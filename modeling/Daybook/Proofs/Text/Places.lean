import Daybook.Proofs.Text.Layout
import Mathlib.Data.List.Basic

/-!
# Where words stand

The column of a word is a place in the text that it was read from: the word stands there with
white space or nothing on either side, and what stands before it are the words that were read
before it. Columns increase from word to word.

* `standsAt_of_words`, `wordsBefore_of_words` : the place of a word, and what is before it.
* `pairwise_columns` : the order of the columns.
-/

namespace Daybook.Text

/-! ## Places -/

/-- The text is empty or ends with white space, so no word of it is prolonged. -/
def EndsBlank (cs : List Char) : Prop :=
  ∀ c ∈ cs.getLast?, isBlank c = true

/-- The word stands in the text at a column, counted from one, with white space or nothing on either
side. -/
def StandsAt (text : List Char) (column : Nat) (w : List Char) : Prop :=
  ∃ before rest, text = before ++ (w ++ rest) ∧ before.length + 1 = column ∧
    EndsBlank before ∧ IsWord w ∧ StartsBlank rest

/-- What stands in the text before a column is the words `ws`, set apart by white space. -/
def WordsBefore (text : List Char) (column : Nat) (ws : List (List Char)) : Prop :=
  ∃ gap, Laid ws gap (text.take (column - 1)) ∧ IsGap gap

theorem IsGap.endsBlank {gap : List Char} (h : IsGap gap) : EndsBlank gap :=
  fun c hc => h c (List.mem_of_getLast? hc)

/-- A word does not run into what stands before it. -/
theorem endsBlank_append {before w rest : List Char} (hends : EndsBlank before)
    (hstarts : StartsBlank (before ++ (w ++ rest))) (hw : IsWord w) (first : List Char) :
    EndsBlank (first ++ before) := by
  cases before with
  | nil =>
    -- the word would start with white space
    obtain ⟨c, w, rfl⟩ := List.exists_cons_of_ne_nil hw.1
    have hblank : isBlank c = true := hstarts c rfl
    rw [hw.2 c List.mem_cons_self] at hblank
    exact Bool.noConfusion hblank
  | cons c before =>
    intro d hd
    rw [List.getLast?_append_cons] at hd
    exact hends d hd

theorem StartsBlank.of_append {cs ds : List Char} (h : StartsBlank (cs ++ ds)) :
    StartsBlank cs := by
  cases cs with
  | nil => simp [StartsBlank]
  | cons c cs => exact h

theorem StandsAt.column_le {text w : List Char} {column : Nat} (h : StandsAt text column w) :
    column ≤ text.length := by
  obtain ⟨before, rest, rfl, rfl, -, hw, -⟩ := h
  have hpos := List.length_pos_iff.mpr hw.1
  simp only [List.length_append]
  omega

/-! ## The places of words that are read -/

variable {read later : List Word} {w : Word} {cs : List Char} {column : Nat}

/-- What stands before a word that is read, in what the reader was given. -/
theorem exists_before_of_words (h : words column cs = read ++ w :: later) :
    ∃ before gap rest, cs = before ++ (w.text ++ rest) ∧ column + before.length = w.column ∧
      Laid (read.map Word.text) gap before ∧ IsGap gap ∧
      EndsBlank before ∧ IsWord w.text ∧ StartsBlank rest := by
  induction read generalizing cs column with
  | nil =>
    have hsome : ¬ IsGap cs := fun hgap => by simp [words_of_isGap hgap] at h
    obtain ⟨gap, text, rest, rfl, hgap, hw, hrest⟩ := exists_word hsome
    rw [words_first hgap hw hrest, List.nil_append] at h
    obtain ⟨rfl, -⟩ := List.cons.inj h
    exact ⟨gap, gap, rest, rfl, rfl, .done gap, hgap, hgap.endsBlank, hw, hrest⟩
  | cons first read ih =>
    have hsome : ¬ IsGap cs := fun hgap => by simp [words_of_isGap hgap] at h
    obtain ⟨gap, text, others, rfl, hgap, hfirst, hothers⟩ := exists_word hsome
    rw [words_first hgap hfirst hothers, List.cons_append] at h
    obtain ⟨rfl, htail⟩ := List.cons.inj h
    obtain ⟨before, last, rest, rfl, hcolumn, hlaid, hlast, hends, hw, hrest⟩ := ih htail
    refine ⟨gap ++ (text ++ before), last, rest, by simp, ?_, ?_, hlast, ?_, hw, hrest⟩
    · simp only [List.length_append]
      omega
    · exact .word hgap hfirst hothers.of_append hlaid
    · rw [← List.append_assoc]
      exact endsBlank_append hends hothers hw _

/-- A word stands at its column in the text that it was read from. -/
theorem standsAt_of_words (h : words 1 cs = read ++ w :: later) :
    StandsAt cs w.column w.text := by
  obtain ⟨before, _, rest, hcs, hcolumn, -, -, hends, hw, hrest⟩ := exists_before_of_words h
  exact ⟨before, rest, hcs, by omega, hends, hw, hrest⟩

/-- The words that were read before a word stand before its column. -/
theorem wordsBefore_of_words (h : words 1 cs = read ++ w :: later) :
    WordsBefore cs w.column (read.map Word.text) := by
  obtain ⟨before, gap, rest, rfl, hcolumn, hlaid, hgap, -⟩ := exists_before_of_words h
  have hlength : w.column - 1 = before.length := by omega
  refine ⟨gap, ?_, hgap⟩
  rwa [hlength, List.take_left]

/-! ## The order of columns -/

/-- Columns increase from word to word, and none is before the first column of the text. -/
theorem pairwise_columns (column : Nat) (cs : List Char) :
    (words column cs).Pairwise (fun a b => a.column < b.column) ∧
      ∀ w ∈ words column cs, column ≤ w.column := by
  induction cs using layout_induction generalizing column with
  | hgap cs h => simp [words_of_isGap h]
  | hword gap w rest hgap hw hrest ih =>
    obtain ⟨hpairwise, hle⟩ := ih (column + gap.length + w.length)
    have hpos := List.length_pos_iff.mpr hw.1
    rw [words_first hgap hw hrest]
    refine ⟨List.pairwise_cons.mpr ⟨fun v hv => ?_, hpairwise⟩, List.forall_mem_cons.mpr ⟨?_, ?_⟩⟩
    · -- the words behind a word begin where it is over
      have := hle v hv
      simp only
      omega
    · simp
    · intro v hv
      have := hle v hv
      omega

end Daybook.Text
