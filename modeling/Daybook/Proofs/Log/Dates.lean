import Daybook.Proofs.Log.Reading

/-!
# The dates of a log

A line without a date takes the date that was written last, and it is warned about when it is
earlier than the line before it. Both go by the timestamps of the lines alone: a line counts as
soon as its timestamp is understood, and a line whose timestamp is not understood counts for
nothing.

* `Clock.Tracks` : what the clock knows of the lines that were read.
* `Clock.Tracks.pass`, `Clock.Tracks.foldl` : the clock keeps track of the lines that it passes.
* `Log.ofText_dates` : the moment of an event, and when it is warned about.
-/

namespace Daybook

/-! ## The lines before a line -/

/-- The date of an undated line behind the given lines: the last date that is written on a line
with a timestamp, or the base date. -/
def inheritedDate (base : Date) (before : List (List Char)) : Date :=
  (before.filterMap fun line => (stampOf? line).bind Prod.fst).getLast?.getD base

/-- The moment of a line behind the given lines. -/
def momentAfter (base : Date) (before : List (List Char)) (stamp : Option Date × TimeOfDay) :
    DateTime :=
  ⟨stamp.1.getD (inheritedDate base before), stamp.2⟩

/-- The moment of the nearest line with a timestamp, looking back from the last of the lines. -/
inductive IsPrevious (base : Date) : List (List Char) → DateTime → Prop where
  | here {before : List (List Char)} {line : List Char} {stamp : Option Date × TimeOfDay}
      (h : stampOf? line = some stamp) :
      IsPrevious base (before ++ [line]) (momentAfter base before stamp)
  | earlier {before : List (List Char)} {line : List Char} {t : DateTime}
      (hnone : stampOf? line = none) (h : IsPrevious base before t) :
      IsPrevious base (before ++ [line]) t

variable {base : Date} {before : List (List Char)} {line : List Char} {t : DateTime}

theorem isPrevious_nil : ¬ IsPrevious base [] t := by
  intro h
  generalize hnil : ([] : List (List Char)) = lines at h
  cases h <;> simp at hnil

theorem isPrevious_snoc_of_none (hnone : stampOf? line = none) :
    IsPrevious base (before ++ [line]) t ↔ IsPrevious base before t := by
  refine ⟨fun h => ?_, .earlier hnone⟩
  generalize hlines : before ++ [line] = lines at h
  cases h with
  | here hstamp =>
    obtain ⟨rfl, hline⟩ := List.append_inj' hlines rfl
    obtain rfl := List.singleton_inj.mp hline
    simp [hnone] at hstamp
  | earlier _ h =>
    obtain ⟨rfl, -⟩ := List.append_inj' hlines rfl
    exact h

theorem isPrevious_snoc_of_some {stamp : Option Date × TimeOfDay}
    (hstamp : stampOf? line = some stamp) :
    IsPrevious base (before ++ [line]) t ↔ t = momentAfter base before stamp := by
  constructor
  · intro h
    generalize hlines : before ++ [line] = lines at h
    cases h with
    | here hother =>
      obtain ⟨rfl, hline⟩ := List.append_inj' hlines rfl
      obtain rfl := List.singleton_inj.mp hline
      rw [hstamp] at hother
      rw [Option.some.inj hother]
    | earlier hnone _ =>
      obtain ⟨-, hline⟩ := List.append_inj' hlines rfl
      obtain rfl := List.singleton_inj.mp hline
      simp [hstamp] at hnone
  · rintro rfl
    exact .here hstamp

/-- Only a date that is written changes what later lines inherit. -/
theorem inheritedDate_snoc (base : Date) (before : List (List Char)) (line : List Char) :
    inheritedDate base (before ++ [line]) =
      ((stampOf? line).bind Prod.fst).getD (inheritedDate base before) := by
  rw [inheritedDate, List.filterMap_append]
  cases hdate : (stampOf? line).bind Prod.fst with
  | none => simp [hdate, inheritedDate]
  | some date => simp [hdate]

/-! ## The clock -/

/-- The clock knows the date that the next line inherits, and the moment that it is compared
with. -/
structure Clock.Tracks (base : Date) (before : List (List Char)) (clock : Clock) : Prop where
  date : clock.date = inheritedDate base before
  last : ∀ t, clock.last = some t ↔ IsPrevious base before t

namespace Clock

theorem tracks_nil (base : Date) : Tracks base [] { date := base } where
  date := rfl
  last t := iff_of_false (by simp) isPrevious_nil

theorem Tracks.complete {clock : Clock} (h : clock.Tracks base before)
    (stamp : Option Date × TimeOfDay) : clock.complete stamp = momentAfter base before stamp := by
  rw [Clock.complete, momentAfter, h.date]

/-- A line with a timestamp sets the clock, and any other line leaves it. -/
theorem Tracks.pass {clock : Clock} (h : clock.Tracks base before) (line : List Char) :
    (clock.pass line).Tracks base (before ++ [line]) := by
  cases hstamp : stampOf? line with
  | none =>
    rw [pass_of_none hstamp]
    refine ⟨?_, fun t => ?_⟩
    · rw [inheritedDate_snoc, hstamp]
      exact h.date
    · rw [isPrevious_snoc_of_none hstamp]
      exact h.last t
  | some stamp =>
    rw [pass_of_some hstamp, h.complete]
    refine ⟨?_, fun t => ?_⟩
    · rw [inheritedDate_snoc, hstamp]
      rfl
    · rw [isPrevious_snoc_of_some hstamp, eq_comm (a := t)]
      exact Option.some_inj

/-- The clock keeps track of any lines. -/
theorem Tracks.foldl {clock : Clock} (h : clock.Tracks base before) (lines : List (List Char)) :
    (lines.foldl Clock.pass clock).Tracks base (before ++ lines) := by
  induction lines generalizing clock before with
  | nil => rwa [List.append_nil]
  | cons line lines ih =>
    have hrest := ih (h.pass line)
    rwa [List.append_assoc] at hrest

/-- When the clock warns, and about which times. -/
theorem mem_backwards_iff {clock : Clock} {number : Nat} {dated : Bool}
    {time previous : TimeOfDay} :
    .backwards number time previous ∈ clock.backwards number t dated ↔
      dated = false ∧ ∃ last, clock.last = some last ∧ t < last ∧ time = t.time ∧
        previous = last.time := by
  unfold backwards
  cases clock.last with
  | none => simp
  | some last => cases dated <;> by_cases hback : t < last <;> simp [hback]

end Clock

/-! ## Events -/

namespace Log

/-- An event has the date that is written on its line. Without one it has the last date that is
written on an earlier line with a timestamp, or else the base date, and it is warned about exactly
when it is earlier than the nearest earlier line with a timestamp. -/
theorem ofText_dates (base : Date) (text : String) {event : Event}
    (h : event ∈ (ofText base text).events) :
    ∃ before line after stamp, Text.lines text.toList = before ++ line :: after ∧
      event.line = before.length + 1 ∧ stampOf? line = some stamp ∧
      event.timestamp = momentAfter base before stamp ∧
      ∀ time previous, .backwards event.line time previous ∈ (ofText base text).warnings ↔
        stamp.1 = none ∧ ∃ last, IsPrevious base before last ∧ event.timestamp < last ∧
          time = event.timestamp.time ∧ previous = last.time := by
  obtain ⟨before, line, after, hlines, hmem⟩ :=
    (mem_readLines_iff Log.events rfl fun _ _ => rfl).mp h
  have htracks : (before.foldl Clock.pass { date := base }).Tracks base before :=
    (Clock.tracks_nil base).foldl before
  obtain ⟨stamp, rest, warnings, hstamp, hmakes, hwarnings⟩ :=
    (readLine_spec _ _ _).2.of_mem_events hmem
  obtain ⟨htimestamp, -, hnumber, repeated, rfl⟩ := hmakes.place
  refine ⟨before, line, after, stamp, hlines, by rw [hnumber, Nat.add_comm],
    stampOf?_eq_some_iff.mpr ⟨rest, hstamp⟩, htimestamp.trans (htracks.complete stamp),
    fun time previous => ?_⟩
  have hrepeated : .backwards event.line time previous ∉
      repeatWarnings (1 + before.length) repeated := by
    simp [repeatWarnings]
  have hline : (Warning.backwards event.line time previous).line = 1 + before.length := hnumber
  -- the warnings with this number are those of the line, and the clock knows the lines before
  rw [ofText, hlines, mem_warnings_readLines_iff hline, hwarnings, ← htimestamp, List.mem_append,
    or_iff_left hrepeated, hnumber, Clock.mem_backwards_iff]
  simp only [htracks.last, Option.isSome_eq_false_iff, Option.isNone_iff_eq_none]

/-- The second line cannot be read and counts for nothing. The third has two projects and is a
problem, yet the last line is compared with it. -/
theorem ofText_dates_refused :
    let base : Date := ⟨2025, 3, 1, by decide⟩
    let text := "2025-03-10 7:00 Tea\n2025-03-12 9:00 +\n8:00 Mail @a @b\n7:30 Walk"
    let event : Event := .entry
      { timestamp := ⟨⟨2025, 3, 10, by decide⟩, ⟨7, 30, 0, by decide, by decide, by decide⟩⟩
        description := "Walk"
        indent := 0
        line := 4 }
    event ∈ (ofText base text).events ∧
      .backwards 4 event.timestamp.time ⟨8, 0, 0, by decide, by decide, by decide⟩ ∈
        (ofText base text).warnings ∧
      ∃ last, IsPrevious base ((Text.lines text.toList).take 3) last ∧ event.timestamp < last := by
  intro base text event
  have hevent : event ∈ (ofText base text).events := by decide +kernel
  have hwarning : .backwards 4 event.timestamp.time ⟨8, 0, 0, by decide, by decide, by decide⟩ ∈
      (ofText base text).warnings := by
    decide +kernel
  obtain ⟨before, line, after, stamp, hlines, hnumber, -, -, hwarned⟩ :=
    ofText_dates base text hevent
  have hline : event.line = 4 := rfl
  have hlength : before.length = 3 := by omega
  have hbefore : (Text.lines text.toList).take 3 = before := by
    rw [hlines, ← hlength, List.take_left]
  obtain ⟨-, last, hprevious, hlt, -⟩ := (hwarned _ _).mp hwarning
  exact ⟨hevent, hwarning, last, hbefore ▸ hprevious, hlt⟩

end Log

end Daybook
