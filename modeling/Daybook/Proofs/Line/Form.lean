import Daybook.Proofs.Line.Grammar
import Daybook.Proofs.Text.Digits

/-!
# Lines in canonical form

A canonical line is put together from its parts with single spaces: the timestamp, the words of
the description, the annotations and the remark. Reading it gives back the parts as tokens.

* `LineForm.read` : the tokens of a canonical line are its parts.
-/

namespace Daybook

open Text

/-! ## Remarks -/

/-- A remark that can stand at the end of a line. -/
structure IsRemark (r : List Char) : Prop where
  ne_nil : r ≠ []
  trimmed : trim r = r
  lineFeed : '\n' ∉ r

theorem IsRemark.trimRight {r : List Char} (h : IsRemark r) : trimRight r = r := by
  rw [← h.trimmed, trimRight_trim]

theorem IsRemark.trim_space {r : List Char} (h : IsRemark r) : trim (' ' :: r) = r := by
  have htail : Text.trimRight (' ' :: r) = ' ' :: r := by
    have happend : Text.trimRight ([' '] ++ r) = [' '] ++ Text.trimRight r :=
      trimRight_append (by rw [h.trimRight]; exact h.ne_nil)
    rwa [h.trimRight] at happend
  have hleft : trimLeft r = r := by rw [← h.trimmed, trimLeft_trim]
  rw [trim, htail, trimLeft, List.dropWhile_cons_of_pos (by decide)]
  exact hleft

/-- The end of a line with a remark, or nothing. -/
def remarkEnd : Option (List Char) → List Char
  | none => []
  | some r => ' ' :: '#' :: ' ' :: r

theorem startsBlank_remarkEnd (remark : Option (List Char)) : StartsBlank (remarkEnd remark) := by
  cases remark with
  | none => simp [StartsBlank, remarkEnd]
  | some r =>
    rintro c hc
    obtain rfl : ' ' = c := by simpa [remarkEnd] using hc
    decide

/-! ## The parts of a line -/

/-- The parts that a canonical line is put together from. -/
structure LineForm where
  indent : Nat
  date : List Char
  time : List Char
  /-- The words of the description. -/
  plain : List (List Char)
  annotations : List Mark
  remark : Option (List Char)

namespace LineForm

/-- The words after the date. -/
def words (f : LineForm) : List (List Char) :=
  f.time :: f.plain ++ f.annotations.map Mark.written

/-- The line without its indentation. -/
def body (f : LineForm) : List Char :=
  f.date ++ (spaced f.words ++ remarkEnd f.remark)

/-- The canonical line. -/
def text (f : LineForm) : List Char :=
  List.replicate f.indent ' ' ++ f.body

/-- What the timestamp says. -/
def stamp (f : LineForm) : Mark :=
  (.timestamp, f.date ++ ' ' :: f.time)

/-- What the description says, if there is one. -/
def description (f : LineForm) : List Mark :=
  if f.plain = [] then [] else [(.description, joinWith [' '] f.plain)]

/-- What the tokens of the line say. -/
def marks (f : LineForm) : List Mark :=
  f.stamp :: f.description ++ f.annotations ++ (f.remark.toList.map fun r => (.remark, r))

/-- Every part can be told from its neighbours. -/
structure Legible (f : LineForm) : Prop where
  date : isDateShape f.date = true ∧ IsWord f.date
  time : isTimeShape f.time = true ∧ IsWord f.time
  plain : ∀ w ∈ f.plain, IsPlainWord w
  annotations : ∀ m ∈ f.annotations, m.Legible
  remark : ∀ r ∈ f.remark, IsRemark r

variable {f : LineForm}

theorem kind_of_mem_description {m : Mark} (h : m ∈ f.description) : m.1 = .description := by
  unfold description at h
  split at h
  · simp at h
  · obtain rfl := List.mem_singleton.mp h
    rfl

theorem Legible.isWord (h : f.Legible) : ∀ w ∈ f.words, IsWord w := by
  intro w hw
  rw [words, List.cons_append, List.mem_cons, List.mem_append, List.mem_map] at hw
  rcases hw with rfl | hw | ⟨m, hm, rfl⟩
  · exact h.time.2
  · exact (h.plain w hw).1
  · exact (h.annotations m hm).2

/-! ## Indentation and body -/

theorem Legible.body_eq_cons (h : f.Legible) :
    ∃ c rest, f.body = c :: rest ∧ isBlank c = false ∧ isDecimal c = true := by
  have hdate := h.date.1
  unfold isDateShape at hdate
  split at hdate
  · next a b c d e f' g k hform =>
    have ha : isDecimal a = true := by simp_all
    exact ⟨a, _, by rw [body, hform]; rfl, isBlank_eq_false_of_isDecimal ha, ha⟩
  · simp at hdate

theorem Legible.indentOf_text (h : f.Legible) : indentOf f.text = f.indent := by
  obtain ⟨c, rest, hbody, hc, -⟩ := h.body_eq_cons
  have hindent : isIndent c = false := by
    cases hi : isIndent c with
    | false => rfl
    | true =>
      simp only [isIndent, Bool.or_eq_true, beq_iff_eq] at hi
      rcases hi with rfl | rfl <;> exact absurd hc (by decide)
  rw [indentOf, text, List.takeWhile_append_of_pos, hbody,
    List.takeWhile_cons_of_neg (by simp [hindent])]
  · simp
  · intro d hd
    rw [List.eq_of_mem_replicate hd]
    decide

theorem trimRight_spaced {ws : List (List Char)} (h : ∀ w ∈ ws, IsWord w) :
    trimRight (spaced ws) = spaced ws := by
  induction ws with
  | nil => rfl
  | cons w ws ih =>
    obtain ⟨hne, hblank⟩ := h w List.mem_cons_self
    have htail := ih fun v hv => h v (List.mem_cons_of_mem _ hv)
    rw [spaced_cons]
    cases ws with
    | nil =>
      have hw := trimRight_eq_self hblank
      rw [spaced_nil, List.append_nil, ← List.singleton_append,
        trimRight_append (by rwa [hw]), hw]
    | cons v ws =>
      rw [trimRight_append (by rw [htail]; simp), htail]

/-- The body ends with a word or a remark, so there is nothing to trim. -/
theorem Legible.trimRight_body (h : f.Legible) : trimRight f.body = f.body := by
  -- a remark stands last and is trimmed already; without one a word stands last
  have hspaced := trimRight_spaced h.isWord
  rw [body]
  cases hremark : f.remark with
  | none =>
    have hne : spaced f.words ≠ [] := by simp [words]
    rw [remarkEnd, List.append_nil, trimRight_append (by rwa [hspaced]), hspaced]
  | some r =>
    have hr := h.remark r hremark
    have hparts : f.date ++ (spaced f.words ++ remarkEnd (some r)) =
        (f.date ++ spaced f.words ++ [' ', '#', ' ']) ++ r := by
      simp [remarkEnd]
    rw [hparts, trimRight_append (by rw [hr.trimRight]; exact hr.ne_nil), hr.trimRight]

/-! ## A single line -/

theorem lineFeed_notMem_spaced {ws : List (List Char)} (h : ∀ w ∈ ws, IsWord w) :
    '\n' ∉ spaced ws := by
  intro hmem
  obtain ⟨w, hw, hmem⟩ := List.mem_flatMap.mp hmem
  rcases List.mem_cons.mp hmem with hspace | hmem
  · exact absurd hspace (by decide)
  · exact (h w hw).lineFeed_notMem hmem

theorem Legible.lineFeed_notMem (h : f.Legible) : '\n' ∉ f.text := by
  intro hmem
  simp only [text, body, List.mem_append] at hmem
  rcases hmem with hmem | hmem | hmem | hmem
  · exact absurd (List.eq_of_mem_replicate hmem) (by decide)
  · exact h.date.2.lineFeed_notMem hmem
  · exact lineFeed_notMem_spaced h.isWord hmem
  · cases hremark : f.remark with
    | none => simp [hremark, remarkEnd] at hmem
    | some r =>
      have hr : '\n' ∈ r := by simpa [hremark, remarkEnd] using hmem
      exact (h.remark r hremark).lineFeed hr

/-- A canonical line is one line of any text that has it between line feeds. -/
theorem Legible.isLine (h : f.Legible) :
    f.text ≠ [] ∧ '\n' ∉ f.text ∧ f.text.getLast? ≠ some '\r' := by
  obtain ⟨c, rest, hbody, -, -⟩ := h.body_eq_cons
  refine ⟨by simp [text, hbody], h.lineFeed_notMem, ?_⟩
  intro hlast
  -- trimming changes nothing, so the line does not end with white space
  have hne : trimRight f.body ≠ [] := by
    rw [h.trimRight_body, hbody]
    exact List.cons_ne_nil c rest
  have htrim : trimRight f.text = f.text := by
    rw [text, trimRight_append hne, h.trimRight_body]
  rw [← htrim] at hlast
  exact absurd (isBlank_of_getLast?_trimRight hlast) (by decide)

/-! ## Reading -/

/-- The parts of the line, however they are set apart. -/
def parts (f : LineForm) : LineParts where
  stamp := [f.date, f.time]
  plain := f.plain
  notes := f.annotations
  remark := f.remark

theorem lineEnd_remarkEnd {remark : Option (List Char)} (h : ∀ r ∈ remark, IsRemark r) :
    LineEnd remark (remarkEnd remark) := by
  cases remark with
  | none => exact .bare (isGap_spaces 0)
  | some r =>
    have hspace : StartsBlank (' ' :: r) := by
      rintro c hc
      obtain rfl : ' ' = c := by simpa using hc
      decide
    have hend := LineEnd.remark (isGap_spaces 1) hspace
    rw [(h r rfl).trim_space] at hend
    exact hend

/-- The parts make up the canonical line. -/
theorem Legible.make (h : f.Legible) : f.parts.Make f.text := by
  refine ⟨⟨.dated h.date.1 h.time.1, ?_, ?_⟩, remarkEnd f.remark, ?_, lineEnd_remarkEnd h.remark⟩
  · intro w hw
    exact classify_eq_none_iff.mp (h.plain w hw).2
  · intro m hm
    exact isNote_iff.mpr (h.annotations m hm).1
  · -- the date stands behind the indentation, and a space before each of the other words
    have htail := startsBlank_remarkEnd f.remark
    exact .word (isGap_spaces f.indent) h.date.2 (startsBlank_spaced_append htail f.words)
      (laid_spaced h.isWord htail)

theorem marks_parts (f : LineForm) : f.parts.marks = f.marks := by
  have hstamp : joinWith [' '] [f.date, f.time] = f.date ++ ' ' :: f.time := by simp [joinWith]
  by_cases hplain : f.plain = []
  · simp [parts, LineParts.marks, LineParts.remarkMarks, marks, stamp, description, hstamp, hplain]
  · simp [parts, LineParts.marks, LineParts.remarkMarks, marks, stamp, description, hstamp, hplain]

/-- The tokens of a canonical line are its parts. -/
theorem read (h : f.Legible) :
    ∃ tokens, Line.ofText f.text = .ok (some ⟨f.indent, tokens⟩) ∧
      tokens.map Token.mark = f.marks := by
  obtain ⟨tokens, hline, hmarks⟩ := Line.ofText_of_make h.make
  rw [h.indentOf_text] at hline
  exact ⟨tokens, hline, hmarks.trans f.marks_parts⟩

end LineForm

end Daybook
