/-!
# White space and words

The characters with the Unicode property White_Space, trimming, and the split of a text into
words. A word remembers the column it starts at and everything that follows it, so that a
reader can stop at any word and still take the rest of the text as it stands.

* `words_eq_nil_iff` says that a text has no word exactly when it is blank.
-/

namespace Daybook.Text

/-! ## White space -/

/-- A character with the Unicode property White_Space. -/
def isBlank (c : Char) : Bool :=
  let n := c.toNat
  (9 ≤ n && n ≤ 13) || n == 0x20 || n == 0x85 || n == 0xA0 || n == 0x1680 ||
    (0x2000 ≤ n && n ≤ 0x200A) || n == 0x2028 || n == 0x2029 || n == 0x202F ||
    n == 0x205F || n == 0x3000

/-- The text without the white space it starts with. -/
def trimLeft (cs : List Char) : List Char :=
  cs.dropWhile isBlank

/-- The text without the white space it ends with. -/
def trimRight : List Char → List Char
  | [] => []
  | c :: cs =>
    match trimRight cs with
    | [] => if isBlank c then [] else [c]
    | d :: ds => c :: d :: ds

/-- The text without the white space at either end. -/
def trim (cs : List Char) : List Char :=
  trimLeft (trimRight cs)

/-- Only white space is trimmed away completely. -/
theorem trimRight_eq_nil_iff (cs : List Char) :
    trimRight cs = [] ↔ ∀ c ∈ cs, isBlank c = true := by
  induction cs with
  | nil => simp [trimRight]
  | cons c cs ih =>
    unfold trimRight
    split
    · next h =>
      have := ih.mp h
      by_cases hc : isBlank c = true <;> simp_all
    · next d ds h =>
      have : ¬ ∀ x ∈ cs, isBlank x = true := fun hall => by simp [ih.mpr hall] at h
      simp_all

/-! ## Words -/

/-- A maximal run of characters that are not white space. -/
structure Word where
  /-- The characters of the word; never empty. -/
  text : List Char
  /-- The position of the first character, in the count that `words` was given. -/
  column : Nat
  /-- Everything after the word. -/
  rest : List Char
deriving DecidableEq, Repr

/-- The words of a text whose first character is at `column`. The flag says that the character
before the text belongs to a word already taken. -/
def wordsFrom (inside : Bool) (column : Nat) : List Char → List Word
  | [] => []
  | c :: cs =>
    if isBlank c then wordsFrom false (column + 1) cs
    else if inside then wordsFrom true (column + 1) cs
    else
      ⟨c :: cs.takeWhile (fun d => !isBlank d), column, cs.dropWhile (fun d => !isBlank d)⟩ ::
        wordsFrom true (column + 1) cs

/-- The words of a text whose first character is at `column`. -/
def words (column : Nat) (cs : List Char) : List Word :=
  wordsFrom false column cs

theorem words_eq_nil_iff (column : Nat) (cs : List Char) :
    words column cs = [] ↔ ∀ c ∈ cs, isBlank c = true := by
  unfold words
  induction cs generalizing column with
  | nil => simp [wordsFrom]
  | cons c cs ih =>
    by_cases hc : isBlank c = true
    · simp [wordsFrom, hc, ih]
    · simp [wordsFrom, hc]

end Daybook.Text
