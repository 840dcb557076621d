import Daybook.Line.Lexer
import Daybook.Proofs.Text.Digits
import Daybook.Proofs.Text.Words

/-!
# Marks

A mark is what a token of a line says, without its place: a kind and a text. An annotation is
written as its text with the sign of its kind, and `classify` takes the sign off again.

* `classify_eq_mark_iff` : the words that are read as a mark are exactly its written form.
-/

namespace Daybook

open Text

/-- A kind and a text that goes with it. -/
abbrev Mark := TokenKind × List Char

/-- What a token says, wherever it stands. -/
def Token.mark (t : Token) : Mark :=
  (t.kind, t.text.toList)

namespace Mark

/-- The word that a line has for a mark: its text with the sign of its kind. -/
def written (m : Mark) : List Char :=
  match m.1 with
  | .project | .resume | .stop => '@' :: m.2
  | .tag => '+' :: m.2
  | .estimate => '~' :: m.2
  | .duration => '(' :: (m.2 ++ [')'])
  | .suffix => '-' :: '>' :: m.2
  | .timestamp | .description | .remark => m.2

/-- The kind is that of an annotation and the text one that goes with it. -/
def IsAnnotation (m : Mark) : Prop :=
  '#' ∉ m.2 ∧
    match m.1 with
    | .project | .resume | .stop => m.2 ≠ [] ∧ nameKind m.2 = m.1
    | .tag | .estimate => m.2 ≠ []
    | .duration => True
    | .suffix => (State.ofSuffix? (String.ofList m.2)).isSome = true
    | .timestamp | .description | .remark => False

end Mark

/-! ## The kind of a name -/

theorem nameKind_cases (name : List Char) :
    nameKind name = .stop ∨ nameKind name = .resume ∨ nameKind name = .project := by
  unfold nameKind
  split
  · exact .inl rfl
  · split
    · exact .inr (.inl rfl)
    · exact .inr (.inr rfl)

/-- Digits name an entry, since no word for a stop is made of digits. -/
theorem nameKind_digits (n : Nat) : nameKind (digits n) = .resume := by
  have hdigits : (digits n).all isDigit = true :=
    List.all_eq_true.mpr fun c hc => isDigit_of_mem_digits hc
  -- none of the words for stopping is made of digits
  have hstop : Stop.ofWord? (String.ofList (digits n)) = none := by
    have hword : ∀ word : String, word.toList.all isDigit = false →
        String.ofList (digits n) ≠ word := fun word h => ofNat_ne h n
    rw [Stop.ofWord?, if_neg (hword "end" (by decide)), if_neg (hword "pause" (by decide)),
      if_neg (hword "abandon" (by decide))]
  rw [nameKind, hstop, if_neg (by simp), if_pos (.inr (.inr hdigits))]

/-! ## Classifying -/

theorem closed?_eq_some_iff {cs inner : List Char} :
    closed? cs = some inner ↔ cs = inner ++ [')'] := by
  unfold closed?
  constructor
  · intro h
    split at h
    · next hlast =>
      obtain ⟨front, rfl⟩ := List.getLast?_eq_some_iff.mp hlast
      simpa using h
    · simp at h
  · rintro rfl
    simp

/-- The words that are read as a mark are exactly its written form. -/
theorem classify_eq_mark_iff {word : List Char} {m : Mark} :
    classify word = .ok (some m) ↔ word = m.written ∧ m.IsAnnotation := by
  obtain ⟨kind, text⟩ := m
  constructor
  · intro h
    -- a word with a hash is refused before its sign is looked at
    have hhash : '#' ∉ word := by
      intro hhash
      simp [classify, hhash] at h
    unfold classify at h
    rw [if_neg (by simpa using hhash)] at h
    split at h
    · next state =>
      split at h
      · next hstate =>
        obtain ⟨rfl, rfl⟩ : TokenKind.suffix = kind ∧ state = text := by simpa using h
        exact ⟨rfl, by simp_all, hstate⟩
      · simp at h
    · next name =>
      split at h
      · simp at h
      · next hne =>
        obtain ⟨rfl, rfl⟩ : nameKind name = kind ∧ name = text := by simpa using h
        rcases nameKind_cases name with hkind | hkind | hkind <;>
          exact ⟨by simp [Mark.written, hkind], by simp_all, by simp [hkind, hne]⟩
    · next tag =>
      split at h
      · simp at h
      · next hne =>
        obtain ⟨rfl, rfl⟩ : TokenKind.tag = kind ∧ tag = text := by simpa using h
        exact ⟨rfl, by simp_all, hne⟩
    · next estimate =>
      split at h
      · simp at h
      · next hne =>
        obtain ⟨rfl, rfl⟩ : TokenKind.estimate = kind ∧ estimate = text := by simpa using h
        exact ⟨rfl, by simp_all, hne⟩
    · next rest =>
      split at h
      · next inner hclosed =>
        obtain ⟨rfl, rfl⟩ : TokenKind.duration = kind ∧ inner = text := by simpa using h
        obtain rfl := closed?_eq_some_iff.mp hclosed
        exact ⟨rfl, by simp_all, trivial⟩
      · simp at h
    · simp at h
  -- conversely, the sign that is written for a kind is the one that is looked for
  · rintro ⟨rfl, hhash, hkind⟩
    cases kind with
    | timestamp => exact hkind.elim
    | description => exact hkind.elim
    | remark => exact hkind.elim
    | suffix => simp_all [classify, Mark.written]
    | project => simp_all [classify, Mark.written]
    | resume => simp_all [classify, Mark.written]
    | stop => simp_all [classify, Mark.written]
    | tag => simp_all [classify, Mark.written]
    | estimate => simp_all [classify, Mark.written]
    | duration => simp_all [classify, Mark.written, closed?_eq_some_iff.mpr rfl]

/-- The word says what the mark says and can be told from the words around it. -/
def Mark.Legible (m : Mark) : Prop :=
  m.IsAnnotation ∧ IsWord m.written

theorem Mark.IsAnnotation.ne_hash {m : Mark} (h : m.IsAnnotation) : m.written ≠ ['#'] := by
  intro heq
  have := classify_eq_mark_iff.mpr ⟨heq.symm, h⟩
  simp [classify] at this

/-- A word of a description. -/
def IsPlainWord (w : List Char) : Prop :=
  IsWord w ∧ classify w = .ok none

theorem isPlain_eq_true_iff {w : Word} : isPlain w = true ↔ classify w.text = .ok none := by
  unfold isPlain
  split
  · next h => simp [h]
  · next h => simpa using h

theorem Mark.IsAnnotation.not_plain {m : Mark} (h : m.IsAnnotation) {w : Word}
    (hw : w.text = m.written) : isPlain w = false := by
  have hmark := classify_eq_mark_iff.mpr ⟨hw, h⟩
  simp [isPlain, hmark]

end Daybook
