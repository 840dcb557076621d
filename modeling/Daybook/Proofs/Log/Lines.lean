import Daybook.Proofs.Log.Reading
import Daybook.Proofs.Text.LineEnds

/-!
# Every line is accounted for once

A line that says something is an event or a problem, never both and never neither, and it is
counted as a person would count it. How the lines end does not matter.

* `Log.covers_readLines` : the numbers of the events and problems among lines.
* `Log.ofText_withReturns` : carriage returns before the line feeds change nothing.
* `Log.ofText_lines` : the lines of a text, the events and the problems.
-/

namespace Daybook

open Text

/-! ## Lines that say something -/

/-- The numbers of the lines that are neither blank nor comments, of which the first line has the
given number. -/
def loudNumbers (number : Nat) (lines : List (List Char)) : List Nat :=
  ((lines.zipIdx number).filter fun entry => !isSilent entry.1).map Prod.snd

theorem loudNumbers_cons (number : Nat) (line : List Char) (rest : List (List Char)) :
    loudNumbers number (line :: rest) =
      loudNumbers number [line] ++ loudNumbers (number + 1) rest := by
  rw [loudNumbers, loudNumbers, loudNumbers, List.zipIdx_cons, ← List.map_append,
    ← List.filter_append]
  rfl

theorem pairwise_loudNumbers (number : Nat) (lines : List (List Char)) :
    (loudNumbers number lines).Pairwise (· < ·) := by
  have hsublist : (loudNumbers number lines).Sublist (List.range' number lines.length) := by
    rw [← List.zipIdx_map_snd]
    exact List.filter_sublist.map _
  have hrange : (List.range' number lines.length).Pairwise (· < ·) := List.pairwise_lt_range' 1
  exact hrange.sublist hsublist

theorem mem_loudNumbers_iff {lines : List (List Char)} {n : Nat} :
    n ∈ loudNumbers 1 lines ↔
      ∃ i line, n = i + 1 ∧ lines[i]? = some line ∧ trimRight (line.dropWhile isIndent) ≠ [] ∧
        (trimRight (line.dropWhile isIndent)).head? ≠ some '#' := by
  have hloud : ∀ line : List Char, (!isSilent line) = true ↔
      bodyOf line ≠ [] ∧ (bodyOf line).head? ≠ some '#' := by
    intro line
    rw [Bool.not_eq_true', ← Bool.not_eq_true, isSilent_eq_true_iff, not_or]
  simp only [loudNumbers, List.mem_map, List.mem_filter, hloud, Prod.exists,
    List.mk_mem_zipIdx_iff_le_and_getElem?_sub, bodyOf]
  constructor
  · rintro ⟨line, m, ⟨⟨hpos, hline⟩, hbody⟩, rfl⟩
    exact ⟨m - 1, line, (Nat.sub_add_cancel hpos).symm, hline, hbody⟩
  · rintro ⟨i, line, rfl, hline, hbody⟩
    exact ⟨line, i + 1, ⟨⟨Nat.le_add_left _ _, hline⟩, hbody⟩, rfl⟩

namespace Log

/-! ## Events and problems -/

/-- The log has one event or one problem for each of the numbers, in order, and warnings for lines
with an event only. -/
structure Covers (log : Log) (numbers : List Nat) : Prop where
  events : (log.events.map Event.line).Sublist numbers
  problems : (log.problems.map Problem.line).Sublist numbers
  perm : numbers.Perm (log.events.map Event.line ++ log.problems.map Problem.line)
  warnings : ∀ warning ∈ log.warnings, warning.line ∈ log.events.map Event.line

theorem Covers.append {a b : Log} {ns ms : List Nat} (ha : a.Covers ns) (hb : b.Covers ms) :
    (a ++ b).Covers (ns ++ ms) where
  events := by
    rw [events_append, List.map_append]
    exact ha.events.append hb.events
  problems := by
    rw [problems_append, List.map_append]
    exact ha.problems.append hb.problems
  perm := by
    rw [events_append, problems_append, List.map_append, List.map_append]
    refine (ha.perm.append hb.perm).trans ?_
    -- the problems of the first part and the events of the second change places
    rw [List.append_assoc, List.append_assoc]
    refine List.Perm.append_left _ ?_
    rw [← List.append_assoc, ← List.append_assoc]
    exact List.perm_append_comm.append_right _
  warnings := by
    intro warning hmem
    rw [warnings_append, List.mem_append] at hmem
    rw [events_append, List.map_append, List.mem_append]
    exact hmem.imp (ha.warnings warning) (hb.warnings warning)

theorem Finds.covers {clock : Clock} {number : Nat} {line : List Char} {found : Log}
    (h : Finds clock number line found) : found.Covers (loudNumbers number [line]) := by
  have hwarnings := h.line_of_mem_warnings
  cases h with
  | nothing hsilent =>
    have hnone : loudNumbers number [line] = [] := by simp [loudNumbers, hsilent]
    rw [hnone]
    exact ⟨.slnil, .slnil, .refl _, by simp⟩
  | problem hloud hline =>
    have hone : loudNumbers number [line] = [number] := by simp [loudNumbers, hloud]
    subst hline
    rw [hone]
    exact ⟨List.nil_sublist _, .refl _, .refl _, by simp⟩
  | event hloud hstamp hmakes =>
    obtain ⟨-, -, hline, -⟩ := hmakes.place
    have hone : loudNumbers number [line] = [number] := by simp [loudNumbers, hloud]
    subst hline
    rw [hone]
    refine ⟨.refl _, List.nil_sublist _, .refl _, fun warning hmem => ?_⟩
    rw [List.map_singleton, List.mem_singleton]
    exact hwarnings warning hmem

/-- Every line that says something gives one event or one problem. -/
theorem covers_readLines (clock : Clock) (number : Nat) (lines : List (List Char)) :
    (readLines clock number lines).Covers (loudNumbers number lines) := by
  induction lines generalizing clock number with
  | nil => exact ⟨.slnil, .slnil, .refl _, by simp [readLines]⟩
  | cons line rest ih =>
    rw [readLines_cons, loudNumbers_cons]
    exact (readLine_spec clock number line).2.covers.append (ih _ _)

/-- An event of some lines is that of the line with its number. -/
theorem exists_line_of_mem_events {clock : Clock} {number : Nat} {lines : List (List Char)}
    {event : Event} (h : event ∈ (readLines clock number lines).events) :
    ∃ i line, event.line = number + i ∧ lines[i]? = some line ∧ event.indent = indentOf line := by
  obtain ⟨before, line, after, rfl, hmem⟩ := (mem_readLines_iff Log.events rfl fun _ _ => rfl).mp h
  obtain ⟨stamp, rest, warnings, -, hmakes, -⟩ := (readLine_spec _ _ _).2.of_mem_events hmem
  obtain ⟨-, hindent, hline, -⟩ := hmakes.place
  exact ⟨before.length, line, hline, by simp, hindent⟩

/-! ## Carriage returns -/

theorem trimRight_snoc_return (cs : List Char) : trimRight (cs ++ ['\r']) = trimRight cs := by
  induction cs with
  | nil => rfl
  | cons c cs ih => rw [List.cons_append, trimRight, trimRight, ih]

theorem bodyOf_snoc_return (line : List Char) : bodyOf (line ++ ['\r']) = bodyOf line := by
  have hreturn : ['\r'].dropWhile isIndent = ['\r'] := rfl
  rw [bodyOf, bodyOf, List.dropWhile_append]
  split
  · next hempty =>
    rw [hreturn, List.isEmpty_iff.mp hempty]
    rfl
  · exact trimRight_snoc_return _

theorem indentOf_snoc_return (line : List Char) : indentOf (line ++ ['\r']) = indentOf line := by
  have hreturn : ['\r'].takeWhile isIndent = [] := rfl
  rw [indentOf, indentOf, List.takeWhile_append]
  split
  · next hall => rw [hreturn, List.append_nil, hall]
  · rfl

/-- A carriage return at the end of a line is white space like any other. -/
theorem ofText_of_isReturned {line other : List Char} (h : IsReturned line other) :
    Line.ofText other = Line.ofText line := by
  rcases h with rfl | rfl
  · rfl
  · rw [Line.ofText, Line.ofText, isSilent, isSilent, bodyOf_snoc_return, indentOf_snoc_return]

theorem readLines_of_isReturned {lines others : List (List Char)}
    (h : List.Forall₂ IsReturned lines others) (clock : Clock) (number : Nat) :
    readLines clock number others = readLines clock number lines := by
  induction h generalizing clock number with
  | nil => rfl
  | cons hline _ ih =>
    rw [readLines, readLines, readLine, readLine, ofText_of_isReturned hline]
    simp only [ih]

/-- Carriage returns before the line feeds change nothing. -/
theorem ofText_withReturns (base : Date) (text : String) :
    ofText base (String.ofList (withReturns text.toList)) = ofText base text := by
  rw [ofText, ofText, String.toList_ofList]
  exact readLines_of_isReturned (forall₂_lines_withReturns _) _ _

/-! ## Texts -/

/-- The numbers of the events of a text rise, and so do those of its problems. No line is both,
and together they are the lines, counted from one, that are neither empty nor a comment behind
their spaces and tabs. An event has the indentation of its line, a warning is about a line with an
event, and carriage returns before the line feeds change nothing. -/
theorem ofText_lines (base : Date) (text : String) :
    ∃ lines, HasLines text.toList lines ∧
      ((ofText base text).events.map Event.line).Pairwise (· < ·) ∧
      ((ofText base text).problems.map Problem.line).Pairwise (· < ·) ∧
      ((ofText base text).events.map Event.line).Disjoint
        ((ofText base text).problems.map Problem.line) ∧
      (∀ n, n ∈ (ofText base text).events.map Event.line ∨
          n ∈ (ofText base text).problems.map Problem.line ↔
        ∃ i line, n = i + 1 ∧ lines[i]? = some line ∧ trimRight (line.dropWhile isIndent) ≠ [] ∧
          (trimRight (line.dropWhile isIndent)).head? ≠ some '#') ∧
      (∀ event ∈ (ofText base text).events, ∃ i line, event.line = i + 1 ∧
        lines[i]? = some line ∧ event.indent = (line.takeWhile isIndent).length) ∧
      (∀ warning ∈ (ofText base text).warnings,
        warning.line ∈ (ofText base text).events.map Event.line) ∧
      ofText base (String.ofList (withReturns text.toList)) = ofText base text := by
  have hcovers := covers_readLines { date := base } 1 (Text.lines text.toList)
  have hrising := pairwise_loudNumbers 1 (Text.lines text.toList)
  have hdistinct : (loudNumbers 1 (Text.lines text.toList)).Nodup :=
    hrising.imp Nat.ne_of_lt
  refine ⟨Text.lines text.toList, hasLines_lines _, hrising.sublist hcovers.events,
    hrising.sublist hcovers.problems, ?_, ?_, ?_, hcovers.warnings, ofText_withReturns base text⟩
  · have hapart := (List.nodup_append.mp (hcovers.perm.nodup_iff.mp hdistinct)).2.2
    exact fun n hevent hproblem => hapart n hevent n hproblem rfl
  · intro n
    rw [← mem_loudNumbers_iff, hcovers.perm.mem_iff, List.mem_append]
    rfl
  · intro event hmem
    obtain ⟨i, line, hnumber, hline, hindent⟩ := exists_line_of_mem_events hmem
    exact ⟨i, line, by rw [hnumber, Nat.add_comm], hline, hindent⟩

end Log

end Daybook
