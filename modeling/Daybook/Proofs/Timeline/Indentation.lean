import Daybook.Proofs.Timeline.Resume
import Daybook.Proofs.Timeline.Spans
import Daybook.Timeline.Overlap
import Mathlib.Order.Monotone.Basic

/-!
# Indentation matters by its order alone

How far lines are indented is compared and nothing else. So a log can be indented with other
steps, or its left margin can be taken off: as long as what was indented further still is, the
timeline is the same but for the indentations of its entries.

Two logs that differ in this way are gone through together. The stacks of the two runs have the
same entries at the same places, which is what every step keeps.

* `closingsFrom_reindent` and `parentsFrom_reindent` : the two runs over a log.
* `ofEvents_reindent` : the timeline, and the overlaps in it.
-/

namespace Daybook

/-! ## Other indentations -/

/-- The entry with its indentation replaced. -/
def Entry.reindent (f : Nat → Nat) (e : Entry) : Entry :=
  { e with indent := f e.indent }

/-- The stop with its indentation replaced. -/
def StopLine.reindent (f : Nat → Nat) (s : StopLine) : StopLine :=
  { s with indent := f s.indent }

/-- The event with its indentation replaced. -/
def Event.reindent (f : Nat → Nat) : Event → Event
  | .entry e => .entry (e.reindent f)
  | .stop s => .stop (s.reindent f)

/-- The span with the indentation of its entry replaced, and all else as it is. -/
def Span.reindent (f : Nat → Nat) (s : Span) : Span :=
  { s with entry := s.entry.reindent f }

@[simp]
theorem Event.indent_reindent (f : Nat → Nat) (event : Event) :
    (event.reindent f).indent = f event.indent := by
  cases event <;> rfl

@[simp]
theorem Event.entryOf_reindent (f : Nat → Nat) (event : Event) :
    Event.entry? (event.reindent f) = event.entry?.map (Entry.reindent f) := by
  cases event <;> rfl

namespace Timeline

/-- The level with its indentation replaced. -/
def Level.reindent (f : Nat → Nat) (level : Level) : Level :=
  { level with indent := f level.indent }

@[simp]
theorem closingBy_reindent (f : Nat → Nat) (event : Event) :
    closingBy (event.reindent f) = closingBy event := by
  cases event <;> rfl

/-! ## Stacks -/

section Stacks

variable {f : Nat → Nat} {S : Set Nat} {levels : List Level} {n : Nat}

/-- As many levels are indented far enough as before. -/
theorem takeWhile_reindent (hf : StrictMonoOn f S) (hn : n ∈ S)
    (hlevels : ∀ level ∈ levels, level.indent ∈ S) :
    (levels.map (Level.reindent f)).takeWhile (fun level => f n ≤ level.indent) =
      (levels.takeWhile fun level => n ≤ level.indent).map (Level.reindent f) := by
  induction levels with
  | nil => rfl
  | cons top below ih =>
    have htop : f n ≤ (top.reindent f).indent ↔ n ≤ top.indent :=
      hf.le_iff_le hn (hlevels top List.mem_cons_self)
    have hbelow := ih fun level hlevel => hlevels level (List.mem_cons_of_mem _ hlevel)
    simp only [List.map_cons, List.takeWhile_cons, htop, hbelow]
    split <;> rfl

/-- So the same levels are left. -/
theorem dropWhile_reindent (hf : StrictMonoOn f S) (hn : n ∈ S)
    (hlevels : ∀ level ∈ levels, level.indent ∈ S) :
    (levels.map (Level.reindent f)).dropWhile (fun level => f n ≤ level.indent) =
      (levels.dropWhile fun level => n ≤ level.indent).map (Level.reindent f) := by
  -- what is taken and what is left make up the stack, before and after
  have hsplit := List.takeWhile_append_dropWhile (l := levels.map (Level.reindent f))
    (p := fun level => f n ≤ level.indent)
  rw [takeWhile_reindent hf hn hlevels] at hsplit
  apply List.append_cancel_left
  rw [hsplit, ← List.map_append, List.takeWhile_append_dropWhile]

/-! ## Parents -/

/-- The answers are the same at every step, since the stacks are. -/
theorem parentsFrom_reindent (hf : StrictMonoOn f S) {indents : List Nat} (index : Nat)
    (hlevels : ∀ level ∈ levels, level.indent ∈ S) (hindents : ∀ n ∈ indents, n ∈ S) :
    parentsFrom index (levels.map (Level.reindent f)) (indents.map f) =
      parentsFrom index levels indents := by
  induction indents generalizing index levels with
  | nil => rfl
  | cons n rest ih =>
    have hn := hindents n List.mem_cons_self
    have hleft := dropWhile_reindent hf hn hlevels
    -- the entry goes on top of what is left
    have hnext : ∀ level ∈ (⟨index, n⟩ : Level) :: levels.dropWhile (fun level => n ≤ level.indent),
        level.indent ∈ S := by
      intro level hlevel
      rcases List.mem_cons.mp hlevel with rfl | hlevel
      · exact hn
      · exact hlevels level ((List.dropWhile_sublist _).subset hlevel)
    have hrest := ih (index + 1) hnext fun m hm => hindents m (List.mem_cons_of_mem _ hm)
    simp only [List.map_cons, parentsFrom, hleft, List.head?_map, Option.map_map]
    exact congrArg₂ List.cons rfl hrest

theorem parents_reindent (hf : StrictMonoOn f S) {indents : List Nat}
    (hindents : ∀ n ∈ indents, n ∈ S) : parents (indents.map f) = parents indents := by
  have hnone : ∀ level ∈ ([] : List Level), level.indent ∈ S := nofun
  exact parentsFrom_reindent hf 0 hnone hindents

/-! ## Closings -/

/-- An event closes the same levels. -/
theorem closedBy_reindent (hf : StrictMonoOn f S) {event : Event} (hevent : event.indent ∈ S)
    (hlevels : ∀ level ∈ levels, level.indent ∈ S) :
    closedBy (event.reindent f) (levels.map (Level.reindent f)) =
      (closedBy event levels).map (Level.reindent f) := by
  have hdeeper : (levels.map (Level.reindent f)).takeWhile
      (fun level => (event.reindent f).indent ≤ level.indent) =
        (levels.takeWhile fun level => event.indent ≤ level.indent).map (Level.reindent f) := by
    simpa only [Event.indent_reindent] using takeWhile_reindent hf hevent hlevels
  cases hcase : levels.takeWhile fun level => event.indent ≤ level.indent with
  | cons top rest =>
    rw [hcase] at hdeeper
    rw [closedBy_of_cons hdeeper, closedBy_of_cons hcase, List.map_cons]
  | nil =>
    -- where nothing is indented far enough, the latest level is the same one
    rw [hcase] at hdeeper
    cases event with
    | entry e =>
      have hnone : closedBy ((Event.entry e).reindent f) (levels.map (Level.reindent f)) = [] :=
        closedBy_entry_of_nil hdeeper
      rw [hnone, closedBy_entry_of_nil hcase, List.map_nil]
    | stop s =>
      have hlatest : closedBy ((Event.stop s).reindent f) (levels.map (Level.reindent f)) =
          (levels.map (Level.reindent f)).take 1 := closedBy_stop_of_nil hdeeper
      rw [hlatest, closedBy_stop_of_nil hcase, List.map_take]

/-- An event brings about the same closings. -/
theorem map_closedBy_reindent (hf : StrictMonoOn f S) {event : Event} (hevent : event.indent ∈ S)
    (hlevels : ∀ level ∈ levels, level.indent ∈ S) :
    (closedBy (event.reindent f) (levels.map (Level.reindent f))).map
        (fun level => (level.index, closingBy (event.reindent f))) =
      (closedBy event levels).map fun level => (level.index, closingBy event) := by
  rw [closedBy_reindent hf hevent hlevels, closingBy_reindent, List.map_map]
  rfl

/-- An event leaves the same work running. -/
theorem keptBy_reindent (hf : StrictMonoOn f S) {event : Event} (hevent : event.indent ∈ S)
    (hlevels : ∀ level ∈ levels, level.indent ∈ S) :
    keptBy (event.reindent f) (levels.map (Level.reindent f)) =
      (keptBy event levels).map (Level.reindent f) := by
  rw [keptBy, closedBy_reindent hf hevent hlevels, List.length_map, keptBy, List.map_drop]

/-- The events of a log bring about the same closings. -/
theorem closingsFrom_reindent (hf : StrictMonoOn f S) {events : List Event} (index : Nat)
    (hlevels : ∀ level ∈ levels, level.indent ∈ S) (hevents : ∀ event ∈ events, event.indent ∈ S) :
    closingsFrom index (levels.map (Level.reindent f)) (events.map (Event.reindent f)) =
      closingsFrom index levels events := by
  -- by induction on the events; the running work stays the same but for the indentations
  induction events generalizing index levels with
  | nil => rfl
  | cons event rest ih =>
    have hevent := hevents event List.mem_cons_self
    have hrest : ∀ e ∈ rest, e.indent ∈ S := fun e he => hevents e (List.mem_cons_of_mem _ he)
    have hclosed := map_closedBy_reindent hf hevent hlevels
    have hkept := keptBy_reindent hf hevent hlevels
    have hkeptIn : ∀ level ∈ keptBy event levels, level.indent ∈ S := fun level hlevel =>
      hlevels level (List.mem_of_mem_drop hlevel)
    cases event with
    | stop s =>
      simp only [Event.reindent] at hclosed hkept
      simp only [List.map_cons, Event.reindent, closingsFrom, hclosed, hkept, ih index hkeptIn hrest]
    | entry e =>
      -- an entry without a stated duration goes on top of what it leaves running
      have hpush : ∀ level ∈ (⟨index, e.indent⟩ : Level) :: keptBy (.entry e) levels,
          level.indent ∈ S := by
        intro level hlevel
        rcases List.mem_cons.mp hlevel with rfl | hlevel
        · exact hevent
        · exact hkeptIn level hlevel
      have hstated : (e.reindent f).statedEnd = e.statedEnd := rfl
      simp only [Event.reindent] at hclosed hkept
      simp only [List.map_cons, Event.reindent, closingsFrom, hclosed, hkept, hstated]
      split
      · rw [ih (index + 1) hkeptIn hrest]
      · exact congrArg _ (ih (index + 1) hpush hrest)

theorem closings_reindent (hf : StrictMonoOn f S) {events : List Event}
    (hevents : ∀ event ∈ events, event.indent ∈ S) :
    closings (events.map (Event.reindent f)) = closings events := by
  have hnone : ∀ level ∈ ([] : List Level), level.indent ∈ S := nofun
  exact closingsFrom_reindent hf 0 hnone hevents

end Stacks

/-! ## Spans -/

section Spans

variable {f : Nat → Nat} {events : List Event}

theorem spansFrom_reindent (f : Nat → Nat) (found : List (Nat × Closing)) (index : Nat)
    (entries : List (Entry × Option Nat)) :
    spansFrom found index (entries.map (Prod.map (Entry.reindent f) id)) =
      (spansFrom found index entries).map (Span.reindent f) := by
  induction entries generalizing index with
  | nil => rfl
  | cons p rest ih => exact congrArg (List.cons _) (ih (index + 1))

theorem entries_reindent (f : Nat → Nat) (events : List Event) :
    (events.map (Event.reindent f)).filterMap Event.entry? =
      (events.filterMap Event.entry?).map (Entry.reindent f) := by
  rw [List.filterMap_map, List.map_filterMap]
  exact congrArg (fun g => events.filterMap g) (funext (Event.entryOf_reindent f))

/-- The indentations of the entries of a log are among those of its events. -/
theorem exists_indent_of_mem_entries {n : Nat}
    (hn : n ∈ (events.filterMap Event.entry?).map Entry.indent) :
    ∃ event ∈ events, event.indent = n := by
  obtain ⟨e, he, rfl⟩ := List.mem_map.mp hn
  obtain ⟨event, hevent, hentry⟩ := List.mem_filterMap.mp he
  cases event with
  | entry e' =>
    obtain rfl := Option.some.inj hentry
    exact ⟨_, hevent, rfl⟩
  | stop s => nomatch hentry

theorem unlinked_reindent (hf : StrictMonoOn f {n | ∃ event ∈ events, event.indent = n}) :
    unlinked (events.map (Event.reindent f)) = (unlinked events).map (Span.reindent f) := by
  have hclosings : closings (events.map (Event.reindent f)) = closings events :=
    closings_reindent hf fun event hevent => ⟨event, hevent, rfl⟩
  have hindents : ((events.filterMap Event.entry?).map (Entry.reindent f)).map Entry.indent =
      ((events.filterMap Event.entry?).map Entry.indent).map f := by
    rw [List.map_map, List.map_map]
    rfl
  have hentries : ∀ n ∈ (events.filterMap Event.entry?).map Entry.indent,
      n ∈ {n | ∃ event ∈ events, event.indent = n} := fun n hn => exists_indent_of_mem_entries hn
  have hparents := parents_reindent hf hentries
  -- the entries with their parents are the same pairs, but for the indentations
  simp only [unlinked, entries_reindent, hclosings, hindents, hparents, List.zip_map_left]
  exact spansFrom_reindent f (closings events) 0 _

/-- A link by number looks at no indentation. -/
theorem numberedLink_reindent (f : Nat → Nat) (earlier : List Span) (s : Span) :
    numberedLink (earlier.map (Span.reindent f)) (s.reindent f) = numberedLink earlier s := by
  have hresume : (s.reindent f).entry.resume = s.entry.resume := rfl
  have hcontinues : (s.reindent f).continues = s.continues := rfl
  simp only [numberedLink, hresume, hcontinues, List.getElem?_map]
  split
  · next n _ =>
    cases earlier[n]? with
    | none => rfl
    | some target => rfl
  · rfl

theorem linkNumbered_reindent (f : Nat → Nat) (earlier spans : List Span) :
    linkNumbered (earlier.map (Span.reindent f)) (spans.map (Span.reindent f)) =
      (linkNumbered earlier spans).map (Span.reindent f) := by
  induction spans generalizing earlier with
  | nil => rfl
  | cons s rest ih =>
    have hrest := ih (earlier ++ [{ s with continues := numberedLink earlier s }])
    rw [List.map_append] at hrest
    simp only [List.map_cons, linkNumbered, numberedLink_reindent]
    exact congrArg (List.cons _) hrest

/-- The overlaps are of the same spans, and the problems that report them name no indentation. -/
theorem overlapsAmong_reindent (f : Nat → Nat) (spans : List Span) :
    overlapsAmong (spans.map (Span.reindent f)) = overlapsAmong spans := by
  induction spans with
  | nil => rfl
  | cons s rest ih =>
    simp only [List.map_cons, overlapsAmong, ih, List.filter_map, List.map_map]
    rfl

theorem selfOverlaps_reindent (f : Nat → Nat) (spans : List Span) :
    selfOverlaps (spans.map (Span.reindent f)) = selfOverlaps spans := by
  have htop : (spans.map (Span.reindent f)).filter Span.isTopLevel =
      (spans.filter Span.isTopLevel).map (Span.reindent f) := List.filter_map
  rw [selfOverlaps, htop, overlapsAmong_reindent, selfOverlaps]

/-- When the indentations of a log are replaced so that their order stays, the timeline keeps the
bounds, the states, the parents and the links of its spans, and the overlaps among them. -/
theorem ofEvents_reindent (f : Nat → Nat) (events : List Event)
    (hf : StrictMonoOn f {n | ∃ event ∈ events, event.indent = n}) :
    ofEvents (events.map (Event.reindent f)) = (ofEvents events).map (Span.reindent f) ∧
      selfOverlaps (ofEvents (events.map (Event.reindent f))) =
        selfOverlaps (ofEvents events) := by
  have hspans : ofEvents (events.map (Event.reindent f)) =
      (ofEvents events).map (Span.reindent f) := by
    rw [ofEvents, unlinked_reindent hf]
    exact linkNumbered_reindent f [] (unlinked events)
  refine ⟨hspans, ?_⟩
  rw [hspans, selfOverlaps_reindent]

/-- A log with a left margin: a draft, a call in it that a pause further to the right closes, and
a meeting of an hour that lunch begins in. -/
def withMargin : List Event :=
  [.entry { timestamp := morning, description := "Draft", indent := 4, line := 1 },
    .entry { timestamp := morning.addMinutes 5, description := "Call", indent := 6, line := 2 },
    .stop { stop := .pause, timestamp := morning.addMinutes 10, indent := 9, line := 3 },
    .entry { timestamp := morning.addMinutes 60, description := "Meeting", duration := some 60,
             resume := some (.numbered 2), indent := 4, line := 4 },
    .entry { timestamp := morning.addMinutes 90, description := "Lunch", indent := 4, line := 5 }]

/-- Without the margin the call has its parent and its pause, the meeting its link, and lunch its
overlap. Taking the margin off is strictly increasing on the indentations of this log only. -/
theorem ofEvents_reindent_withMargin :
    StrictMonoOn (· - 4) {n | ∃ event ∈ withMargin, event.indent = n} ∧
      (ofEvents (withMargin.map (Event.reindent (· - 4)))).map
          (fun s => (s.entry.indent, s.parent, s.state, s.continues)) =
        [(0, none, .completed, none), (2, some 0, .paused, none),
          (0, none, .completed, some (.entry 1)), (0, none, .working, none)] ∧
      selfOverlaps (ofEvents (withMargin.map (Event.reindent (· - 4)))) =
        [{ line := 5,
           cause := .overlap 4 (morning.addMinutes 60) (some (morning.addMinutes 120)) }] := by
  have hmargin : ∀ event ∈ withMargin, 4 ≤ event.indent := by decide
  have hf : StrictMonoOn (· - 4) {n | ∃ event ∈ withMargin, event.indent = n} := by
    rintro _ ⟨a, ha, rfl⟩ _ ⟨b, -, rfl⟩ hlt
    exact Nat.sub_lt_sub_right (hmargin a ha) hlt
  obtain ⟨hspans, hoverlaps⟩ := ofEvents_reindent (· - 4) withMargin hf
  refine ⟨hf, ?_, ?_⟩
  · rw [hspans]
    decide +kernel
  · rw [hoverlaps]
    decide +kernel

end Spans

end Timeline

end Daybook
