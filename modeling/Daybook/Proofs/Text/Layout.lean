import Daybook.Proofs.Text.Words

/-!
# Words set apart by white space

How a text is laid out: words with white space between them, and what is left behind them. The
words of a text are the ones that it is laid out with, wherever the reading stops.

* `words_laid`, `laid_of_words` : the words of a text and its layout.
* `words_trimRight` : white space at the end of a text belongs to no word.
-/

namespace Daybook.Text

/-! ## Layout -/

/-- Nothing but white space. -/
def IsGap (cs : List Char) : Prop :=
  ∀ c ∈ cs, isBlank c = true

theorem isGap_spaces (n : Nat) : IsGap (List.replicate n ' ') := by
  intro c hc
  rw [List.eq_of_mem_replicate hc]
  decide

/-- `Laid ws tail cs`: the text `cs` begins with the words `ws`, with white space between them and
possibly before the first, and `tail` is what is left. No word runs into what follows it. -/
inductive Laid : List (List Char) → List Char → List Char → Prop where
  | done (tail : List Char) : Laid [] tail tail
  | word {gap w rest tail : List Char} {ws : List (List Char)} (hgap : IsGap gap) (hw : IsWord w)
      (hrest : StartsBlank rest) (h : Laid ws tail rest) : Laid (w :: ws) tail (gap ++ (w ++ rest))

theorem Laid.isWord {ws : List (List Char)} {tail cs : List Char} (h : Laid ws tail cs) :
    ∀ w ∈ ws, IsWord w := by
  induction h with
  | done => simp
  | word _ hw _ _ ih => exact List.forall_mem_cons.mpr ⟨hw, ih⟩

/-- What is left of a text stands at its end. -/
theorem Laid.sublist {ws : List (List Char)} {tail cs : List Char} (h : Laid ws tail cs) :
    tail.Sublist cs := by
  induction h with
  | done => exact List.Sublist.refl _
  | word _ _ _ _ ih =>
    exact (ih.trans (List.sublist_append_right _ _)).trans (List.sublist_append_right _ _)

/-- Words written one space apart are laid out before what follows them. -/
theorem laid_spaced {ws : List (List Char)} {tail : List Char} (hws : ∀ w ∈ ws, IsWord w)
    (htail : StartsBlank tail) : Laid ws tail (spaced ws ++ tail) := by
  induction ws with
  | nil => exact .done tail
  | cons w ws ih =>
    obtain ⟨hw, hrest⟩ := List.forall_mem_cons.mp hws
    rw [spaced_cons, List.append_assoc]
    exact .word (isGap_spaces 1) hw (startsBlank_spaced_append htail ws) (ih hrest)

theorem startsBlank_dropWhile (cs : List Char) :
    StartsBlank (cs.dropWhile fun c => !isBlank c) := by
  intro c hc
  have hne := List.head?_dropWhile_not (fun c => !isBlank c) cs
  rw [Option.mem_def.mp hc] at hne
  simpa using hne

/-- A text with something in it begins with a word, perhaps after white space. -/
theorem exists_word {cs : List Char} (h : ¬ IsGap cs) :
    ∃ gap w rest, cs = gap ++ (w ++ rest) ∧ IsGap gap ∧ IsWord w ∧ StartsBlank rest := by
  have hgap : IsGap (cs.takeWhile isBlank) := List.all_eq_true.mp List.all_takeWhile
  -- what follows the white space starts with a character of a word
  obtain ⟨c, after, hafter⟩ : ∃ c after, cs.dropWhile isBlank = c :: after := by
    refine List.exists_cons_of_ne_nil fun hnil => h ?_
    rw [← List.takeWhile_append_dropWhile (p := isBlank) (l := cs), hnil, List.append_nil]
    exact hgap
  have hc : isBlank c = false := by
    have hhead := List.head?_dropWhile_not isBlank cs
    rw [hafter] at hhead
    simpa using hhead
  refine ⟨cs.takeWhile isBlank, (c :: after).takeWhile fun c => !isBlank c,
    (c :: after).dropWhile fun c => !isBlank c, ?_, hgap, ?_, startsBlank_dropWhile _⟩
  · rw [List.takeWhile_append_dropWhile, ← hafter, List.takeWhile_append_dropWhile]
  · exact isWord_of_all (by simp [hc]) List.all_takeWhile

/-- What is true of white space, and of a text with one more word in front, is true of every
text. -/
theorem layout_induction {P : List Char → Prop} (hgap : ∀ cs, IsGap cs → P cs)
    (hword : ∀ gap w rest, IsGap gap → IsWord w → StartsBlank rest → P rest →
      P (gap ++ (w ++ rest))) (cs : List Char) : P cs := by
  by_cases h : IsGap cs
  · exact hgap cs h
  · obtain ⟨gap, w, rest, hcs, hg, hw, hrest⟩ := exists_word h
    have hshorter : rest.length < cs.length := by
      have hpos := List.length_pos_iff.mpr hw.1
      simp only [hcs, List.length_append]
      omega
    exact hcs ▸ hword gap w rest hg hw hrest (layout_induction hgap hword rest)
termination_by cs.length

/-! ## Reading words -/

theorem words_of_isGap {cs : List Char} (h : IsGap cs) (column : Nat) : words column cs = [] :=
  (words_eq_nil_iff column cs).mpr h

/-- White space before a word only moves the word to the right. -/
theorem words_gap {gap : List Char} (h : IsGap gap) (column : Nat) (cs : List Char) :
    words column (gap ++ cs) = words (column + gap.length) cs := by
  induction gap generalizing column with
  | nil => rfl
  | cons c gap ih =>
    rw [List.cons_append, words, wordsFrom, if_pos (h c List.mem_cons_self), ← words,
      ih fun d hd => h d (List.mem_cons_of_mem _ hd), List.length_cons]
    congr 1
    omega

/-- The first word of a text, and the others. -/
theorem words_first {gap w rest : List Char} (hgap : IsGap gap) (hw : IsWord w)
    (hrest : StartsBlank rest) (column : Nat) :
    words column (gap ++ (w ++ rest)) =
      ⟨w, column + gap.length, rest⟩ :: words (column + gap.length + w.length) rest := by
  rw [words_gap hgap, words_append hw hrest]

/-- The words that a text is laid out with are read one by one. -/
theorem words_laid {ws : List (List Char)} {tail cs : List Char} (h : Laid ws tail cs)
    (column : Nat) :
    ∃ read column', words column cs = read ++ words column' tail ∧ read.map Word.text = ws := by
  induction h generalizing column with
  | done => exact ⟨[], column, rfl, rfl⟩
  | word hgap hw hrest _ ih =>
    obtain ⟨read, column', hread, htexts⟩ := ih (column + _ + _)
    exact ⟨_ :: read, column', by rw [words_first hgap hw hrest, hread, List.cons_append],
      by rw [List.map_cons, htexts]⟩

/-- A text is laid out with the words that are read, up to any one of them. -/
theorem laid_of_words {read others : List Word} {cs : List Char} {column : Nat}
    (h : words column cs = read ++ others) :
    ∃ tail column', Laid (read.map Word.text) tail cs ∧ words column' tail = others := by
  induction read generalizing cs column with
  | nil => exact ⟨cs, column, .done cs, h⟩
  | cons first read ih =>
    have hsome : ¬ IsGap cs := by
      intro hgap
      rw [words_of_isGap hgap] at h
      simp at h
    obtain ⟨gap, w, rest, rfl, hgap, hw, hrest⟩ := exists_word hsome
    rw [words_first hgap hw hrest, List.cons_append] at h
    obtain ⟨rfl, hothers⟩ := List.cons.inj h
    obtain ⟨tail, column', hlaid, htail⟩ := ih hothers
    exact ⟨tail, column', .word hgap hw hrest hlaid, htail⟩

/-! ## Trimming -/

theorem trimRight_of_isGap {cs : List Char} (h : IsGap cs) : trimRight cs = [] :=
  (trimRight_eq_nil_iff cs).mpr h

/-- A word at the front is not touched when white space is trimmed off the end. -/
theorem trimRight_word {gap w rest : List Char} (hw : IsWord w) :
    trimRight (gap ++ (w ++ rest)) = gap ++ (w ++ trimRight rest) := by
  have hfront : ∀ v : List Char, (∀ c ∈ v, isBlank c = false) →
      trimRight (v ++ rest) = v ++ trimRight rest := by
    intro v hv
    induction v with
    | nil => rfl
    | cons c v ih =>
      have htail := ih fun d hd => hv d (List.mem_cons_of_mem _ hd)
      rw [List.cons_append, trimRight, htail]
      split
      · next hnil => simp [hnil, hv c List.mem_cons_self]
      · next hcons => rw [← hcons, List.cons_append]
  rw [← hfront w hw.2]
  apply trimRight_append
  rw [hfront w hw.2]
  simp [hw.1]

/-- The word with the white space at the end of the text taken off what follows it. -/
def Word.trimmed (w : Word) : Word :=
  { w with rest := trimRight w.rest }

/-- White space at the end of a text belongs to no word. -/
theorem words_trimRight (cs : List Char) (column : Nat) :
    words column (trimRight cs) = (words column cs).map Word.trimmed := by
  induction cs using layout_induction generalizing column with
  | hgap cs h =>
    rw [trimRight_of_isGap h, words_of_isGap h]
    rfl
  | hword gap w rest hgap hw hrest ih =>
    have hrest' : StartsBlank (trimRight rest) := by
      cases rest with
      | nil => exact hrest
      | cons c cs =>
        -- what is left of the rest starts where the rest starts
        intro d hd
        unfold trimRight at hd
        split at hd
        · split at hd
          · simp at hd
          · exact hrest d (by simpa using hd)
        · exact hrest d (by simpa using hd)
    rw [trimRight_word hw, words_first hgap hw hrest', words_first hgap hw hrest, ih, List.map_cons]
    rfl

end Daybook.Text
