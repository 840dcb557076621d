import Daybook.Text.Blank
import Daybook.Text.Split

/-!
# Lines, words and pieces put together again

A text that is put together from parts falls into these parts again when it is read.

* `lines_append_lineFeed` and `lines_joinWith` : the lines of texts joined with line feeds.
* `words_append` : a word that white space follows is read whole.
* `pieces_append`, `splitAt?_append` : the pieces on both sides of a character.
-/

namespace Daybook.Text

/-! ## Trimming -/

private theorem trimRight_cons_of_eq_nil {cs : List Char} (h : trimRight cs = []) (c : Char) :
    trimRight (c :: cs) = if isBlank c then [] else [c] := by
  rw [trimRight, h]

private theorem trimRight_cons_of_ne_nil {cs : List Char} (h : trimRight cs ≠ []) (c : Char) :
    trimRight (c :: cs) = c :: trimRight cs := by
  rw [trimRight]
  split
  · next hnil => exact absurd hnil h
  · next hcons => rw [hcons]

/-- White space is trimmed off the end of what stands last, if anything else stands there. -/
theorem trimRight_append {cs ds : List Char} (h : trimRight ds ≠ []) :
    trimRight (cs ++ ds) = cs ++ trimRight ds := by
  induction cs with
  | nil => rfl
  | cons c cs ih =>
    -- something is left at the end, so every character before it stays
    have hne : trimRight (cs ++ ds) ≠ [] := by simp [ih, h]
    rw [List.cons_append, trimRight_cons_of_ne_nil hne, ih, List.cons_append]

/-- Without white space there is nothing to trim. -/
theorem trimRight_eq_self {cs : List Char} (h : ∀ c ∈ cs, isBlank c = false) :
    trimRight cs = cs := by
  induction cs with
  | nil => rfl
  | cons c cs ih =>
    have htail := ih fun d hd => h d (List.mem_cons_of_mem _ hd)
    cases cs with
    | nil => simp [trimRight, h c List.mem_cons_self]
    | cons d ds => rw [trimRight_cons_of_ne_nil (by simp [htail]), htail]

theorem trimRight_trimRight (cs : List Char) : trimRight (trimRight cs) = trimRight cs := by
  induction cs with
  | nil => rfl
  | cons c cs ih =>
    by_cases h : trimRight cs = []
    · rw [trimRight_cons_of_eq_nil h]
      cases hc : isBlank c <;> simp [trimRight, hc]
    · rw [trimRight_cons_of_ne_nil h, trimRight_cons_of_ne_nil (by rwa [ih]), ih]

/-- What is trimmed on the right stays so without the white space on its left. -/
theorem trimRight_trimLeft {cs : List Char} (h : trimRight cs = cs) :
    trimRight (trimLeft cs) = trimLeft cs := by
  induction cs with
  | nil => rfl
  | cons c cs ih =>
    -- nothing is trimmed off the text, so nothing is trimmed off what follows its first character
    have htail : trimRight cs = cs := by
      by_cases hnil : trimRight cs = []
      · rw [trimRight_cons_of_eq_nil hnil] at h
        split at h <;> simp_all
      · rw [trimRight_cons_of_ne_nil hnil] at h
        simpa using h
    rw [trimLeft, List.dropWhile_cons]
    split
    · exact ih htail
    · exact h

theorem trimLeft_trimLeft (cs : List Char) : trimLeft (trimLeft cs) = trimLeft cs := by
  induction cs with
  | nil => rfl
  | cons c cs ih =>
    unfold trimLeft at *
    by_cases hc : isBlank c = true
    · simpa [List.dropWhile_cons, hc] using ih
    · simp [hc]

/-- A trimmed text has nothing to trim at either end. -/
theorem trimRight_trim (cs : List Char) : trimRight (trim cs) = trim cs :=
  trimRight_trimLeft (trimRight_trimRight cs)

theorem trimLeft_trim (cs : List Char) : trimLeft (trim cs) = trim cs :=
  trimLeft_trimLeft _

theorem trim_trim (cs : List Char) : trim (trim cs) = trim cs := by
  rw [trim, trimRight_trim, trimLeft_trim]

/-- Trimmed text does not end with white space. -/
theorem isBlank_of_getLast?_trimRight {cs : List Char} {c : Char}
    (h : (trimRight cs).getLast? = some c) : isBlank c = false := by
  induction cs with
  | nil => simp [trimRight] at h
  | cons d ds ih =>
    unfold trimRight at h
    split at h
    · split at h
      · simp at h
      · next hd =>
        obtain rfl : d = c := by simpa using h
        simpa using hd
    · next e es htail =>
      rw [htail] at ih
      exact ih (by simpa [List.getLast?_cons_cons] using h)

theorem trimRight_sublist (cs : List Char) : (trimRight cs).Sublist cs := by
  induction cs with
  | nil => exact List.Sublist.refl _
  | cons c cs ih =>
    unfold trimRight
    split
    · split
      · exact List.nil_sublist _
      · exact (List.nil_sublist cs).cons_cons c
    · next h => exact (h ▸ ih).cons_cons c

/-- Trimming adds nothing. -/
theorem trim_sublist (cs : List Char) : (trim cs).Sublist cs :=
  (List.dropWhile_sublist _).trans (trimRight_sublist cs)

/-! ## Lines -/

/-- No line has a line feed inside. -/
theorem lineFeed_notMem_of_mem_lines {cs line : List Char} (h : line ∈ lines cs) :
    '\n' ∉ line := by
  fun_induction lines cs generalizing line with
  | case1 => simp at h
  | case2 cs ih =>
    rcases List.mem_cons.mp h with rfl | h
    · simp
    · exact ih h
  | case3 cs ih =>
    rcases List.mem_cons.mp h with rfl | h
    · simp
    · exact ih h
  | case4 c cs _ hc hnil =>
    obtain rfl := List.mem_singleton.mp h
    simpa [eq_comm] using hc
  | case5 c cs _ hc first rest hcons ih =>
    rw [hcons] at ih
    rcases List.mem_cons.mp h with rfl | h
    · have hfirst := ih List.mem_cons_self
      rw [List.mem_cons]
      rintro (rfl | hmem)
      · exact hc rfl
      · exact hfirst hmem
    · exact ih (List.mem_cons_of_mem _ h)

/-- A text without line feeds, and with something in it, is a single line. -/
theorem lines_eq_singleton {line : List Char} (hne : line ≠ []) (h : '\n' ∉ line) :
    lines line = [line] := by
  fun_induction lines line with
  | case1 => exact absurd rfl hne
  | case2 cs _ => simp at h
  | case3 cs _ => simp at h
  | case4 c cs _ _ hnil ih =>
    cases cs with
    | nil => rfl
    | cons d ds =>
      have := ih (List.cons_ne_nil _ _) fun hmem => h (List.mem_cons_of_mem _ hmem)
      simp [this] at hnil
  | case5 c cs _ _ first rest hcons ih =>
    have hcs : cs ≠ [] := by
      rintro rfl
      simp [lines] at hcons
    rw [ih hcs fun hmem => h (List.mem_cons_of_mem _ hmem)] at hcons
    simp_all

/-- A line feed ends the line before it, unless a carriage return stands in between. -/
theorem lines_append_lineFeed {line : List Char} (h : '\n' ∉ line)
    (hlast : line.getLast? ≠ some '\r') (rest : List Char) :
    lines (line ++ '\n' :: rest) = line :: lines rest := by
  induction line with
  | nil => rw [List.nil_append, lines]
  | cons c cs ih =>
    have hc : c ≠ '\n' := fun hc => h (hc ▸ List.mem_cons_self)
    have hcs : '\n' ∉ cs := fun hmem => h (List.mem_cons_of_mem _ hmem)
    -- a carriage return counts as a line end only right before the line feed
    have hreturn : ∀ ds, c = '\r' → cs ++ '\n' :: rest ≠ '\n' :: ds := by
      rintro ds rfl heq
      cases cs with
      | nil => exact hlast rfl
      | cons d ds => simp_all
    have hlast' : cs.getLast? ≠ some '\r' := by
      cases cs with
      | nil => simp
      | cons d ds => simpa using hlast
    rw [List.cons_append, lines.eq_4 _ _ hreturn hc, ih hcs hlast']

theorem intercalate_eq_joinWith (separator : List Char) (ls : List (List Char)) :
    separator.intercalate ls = joinWith separator ls := by
  induction ls with
  | nil => rfl
  | cons line ls ih =>
    cases ls with
    | nil => simp [joinWith]
    | cons next ls =>
      rw [List.intercalate_cons_cons, ih]
      rfl

/-- Lines joined with line feeds are read as they were. -/
theorem lines_joinWith {ls : List (List Char)}
    (h : ∀ line ∈ ls, line ≠ [] ∧ '\n' ∉ line ∧ line.getLast? ≠ some '\r') :
    lines (joinWith ['\n'] ls) = ls := by
  induction ls with
  | nil => rfl
  | cons line ls ih =>
    obtain ⟨hne, hfeed, hlast⟩ := h line List.mem_cons_self
    cases ls with
    | nil => exact lines_eq_singleton hne hfeed
    | cons next ls =>
      rw [joinWith, List.append_assoc, List.singleton_append,
        lines_append_lineFeed hfeed hlast, ih fun l hl => h l (List.mem_cons_of_mem _ hl)]
      exact List.cons_ne_nil _ _

/-! ## Words -/

/-- The characters of a word: at least one, and no white space. -/
def IsWord (w : List Char) : Prop :=
  w ≠ [] ∧ ∀ c ∈ w, isBlank c = false

theorem isWord_of_all {w : List Char} (hne : w ≠ []) (h : w.all (fun c => !isBlank c) = true) :
    IsWord w := by
  refine ⟨hne, fun c hc => ?_⟩
  have hblank := List.all_eq_true.mp h c hc
  simpa using hblank

theorem IsWord.lineFeed_notMem {w : List Char} (h : IsWord w) : '\n' ∉ w := by
  intro hmem
  exact absurd (h.2 '\n' hmem) (by decide)

/-- The text is empty or starts with white space, so it prolongs no word. -/
def StartsBlank (cs : List Char) : Prop :=
  ∀ c ∈ cs.head?, isBlank c = true

/-- Words written one after the other, with a space before each. -/
def spaced (ws : List (List Char)) : List Char :=
  ws.flatMap (' ' :: ·)

@[simp]
theorem spaced_nil : spaced [] = [] := rfl

@[simp]
theorem spaced_cons (w : List Char) (ws : List (List Char)) :
    spaced (w :: ws) = ' ' :: w ++ spaced ws := rfl

@[simp]
theorem spaced_append (vs ws : List (List Char)) : spaced (vs ++ ws) = spaced vs ++ spaced ws :=
  List.flatMap_append

/-- Words joined with spaces, with a space before them. -/
theorem spaced_eq_cons_joinWith {ws : List (List Char)} (h : ws ≠ []) :
    spaced ws = ' ' :: joinWith [' '] ws := by
  induction ws with
  | nil => exact absurd rfl h
  | cons w ws ih =>
    cases ws with
    | nil => simp [joinWith]
    | cons v ws =>
      rw [spaced_cons, ih (List.cons_ne_nil _ _), joinWith.eq_3 _ _ _ (List.cons_ne_nil _ _)]
      simp

private theorem wordsFrom_true_append {w rest : List Char} (h : ∀ c ∈ w, isBlank c = false)
    (column : Nat) :
    wordsFrom true column (w ++ rest) = wordsFrom true (column + w.length) rest := by
  induction w generalizing column with
  | nil => rfl
  | cons c cs ih =>
    have hc := h c List.mem_cons_self
    rw [List.cons_append, wordsFrom, if_neg (by simp [hc]), if_pos rfl,
      ih fun d hd => h d (List.mem_cons_of_mem _ hd), List.length_cons, Nat.add_assoc,
      Nat.add_comm 1]

private theorem wordsFrom_true_of_startsBlank {rest : List Char} (h : StartsBlank rest)
    (column : Nat) : wordsFrom true column rest = words column rest := by
  cases rest with
  | nil => rfl
  | cons c cs => simp [words, wordsFrom, h c rfl]

/-- A word is read whole when white space or nothing follows it. -/
theorem words_append {w rest : List Char} (hw : IsWord w) (hrest : StartsBlank rest)
    (column : Nat) :
    words column (w ++ rest) = ⟨w, column, rest⟩ :: words (column + w.length) rest := by
  obtain ⟨hne, hblank⟩ := hw
  cases w with
  | nil => exact absurd rfl hne
  | cons c cs =>
    have hcs : ∀ d ∈ cs, isBlank d = false := fun d hd => hblank d (List.mem_cons_of_mem _ hd)
    -- what the reader takes as the word ends where the white space starts
    have htake : (cs ++ rest).takeWhile (fun d => !isBlank d) = cs := by
      rw [List.takeWhile_append_of_pos fun d hd => by simp [hcs d hd]]
      cases rest with
      | nil => simp
      | cons d ds => simp [h_head hrest]
    have hdrop : (cs ++ rest).dropWhile (fun d => !isBlank d) = rest := by
      rw [List.dropWhile_append_of_pos fun d hd => by simp [hcs d hd]]
      cases rest with
      | nil => rfl
      | cons d ds => simp [h_head hrest]
    have hc := hblank c List.mem_cons_self
    rw [List.cons_append, words, wordsFrom, if_neg (by simp [hc]), if_neg (by simp), htake, hdrop,
      wordsFrom_true_append hcs, wordsFrom_true_of_startsBlank hrest, List.length_cons,
      Nat.add_assoc, Nat.add_comm 1]
where
  h_head {c : Char} {cs : List Char} (h : StartsBlank (c :: cs)) : isBlank c = true := h c rfl

theorem startsBlank_spaced_append {tail : List Char} (h : StartsBlank tail)
    (ws : List (List Char)) : StartsBlank (spaced ws ++ tail) := by
  cases ws with
  | nil => exact h
  | cons w ws =>
    rintro c hc
    obtain rfl : ' ' = c := by simpa using hc
    decide

/-! ## Pieces -/

theorem splitAt?_append {c : Char} {before : List Char} (h : c ∉ before) (after : List Char) :
    splitAt? c (before ++ c :: after) = some (before, after) := by
  induction before with
  | nil => simp [splitAt?]
  | cons d ds ih =>
    have hd : d ≠ c := fun hd => h (hd ▸ List.mem_cons_self)
    rw [List.cons_append, splitAt?, if_neg hd, ih fun hmem => h (List.mem_cons_of_mem _ hmem)]
    rfl

theorem splitAt?_eq_none {c : Char} {cs : List Char} (h : c ∉ cs) : splitAt? c cs = none := by
  induction cs with
  | nil => rfl
  | cons d ds ih =>
    have hd : d ≠ c := fun hd => h (hd ▸ List.mem_cons_self)
    rw [splitAt?, if_neg hd, ih fun hmem => h (List.mem_cons_of_mem _ hmem)]
    rfl

theorem pieces_eq_singleton {c : Char} {cs : List Char} (h : c ∉ cs) : pieces c cs = [cs] := by
  induction cs with
  | nil => rfl
  | cons d ds ih =>
    have hd : d ≠ c := fun hd => h (hd ▸ List.mem_cons_self)
    rw [pieces, if_neg hd, ih fun hmem => h (List.mem_cons_of_mem _ hmem)]

theorem pieces_append {c : Char} {before : List Char} (h : c ∉ before) (after : List Char) :
    pieces c (before ++ c :: after) = before :: pieces c after := by
  induction before with
  | nil => simp [pieces]
  | cons d ds ih =>
    have hd : d ≠ c := fun hd => h (hd ▸ List.mem_cons_self)
    rw [List.cons_append, pieces, if_neg hd, ih fun hmem => h (List.mem_cons_of_mem _ hmem)]

end Daybook.Text
