import Daybook.Proofs.Timeline.Scope
import Daybook.Timeline

/-!
# The spans of a log

A timeline has one span for each entry of the log, in order, and the span ends when and as the
rules for closing say. Links between spans change nothing of this.

* `ofEvents_scoped` : the end and the state of every span.
-/

namespace Daybook.Timeline

/-! ## Making the spans -/

theorem getElem?_spansFrom (found : List (Nat × Closing)) (index : Nat)
    (entries : List (Entry × Option Nat)) (k : Nat) :
    (spansFrom found index entries)[k]? =
      entries[k]?.map fun p => spanOf p.1 p.2 (found.lookup (index + k)) := by
  induction entries generalizing index k with
  | nil => rfl
  | cons p rest ih =>
    cases k with
    | zero => rfl
    | succ k =>
      simp only [spansFrom, List.getElem?_cons_succ, ih, Nat.add_assoc, Nat.add_comm 1]

theorem getElem?_entries {events : List Event} {i : Nat} {e : Entry}
    (h : events[i]? = some (.entry e)) :
    (events.filterMap Event.entry?)[entriesBefore events i]? = some e := by
  obtain ⟨hlt, hi⟩ := List.getElem?_eq_some_iff.mp h
  -- the entries before the position, the entry itself, and the entries after it
  have hsplit : events = events.take i ++ .entry e :: events.drop (i + 1) := by
    rw [← hi, List.getElem_cons_drop, List.take_append_drop]
  have hentries : events.filterMap Event.entry? =
      (events.take i).filterMap Event.entry? ++ e ::
        (events.drop (i + 1)).filterMap Event.entry? := by
    conv => lhs; rw [hsplit]
    rw [List.filterMap_append]
    rfl
  rw [hentries, entriesBefore, List.getElem?_append_right (Nat.le_refl _), Nat.sub_self]
  rfl

/-- The span of an entry before links are made. -/
theorem getElem?_unlinked {events : List Event} {i : Nat} {e : Entry}
    (h : events[i]? = some (.entry e)) :
    ∃ parent, (unlinked events)[entriesBefore events i]? =
      some (spanOf e parent ((closings events).lookup (entriesBefore events i))) := by
  have hentry := getElem?_entries h
  obtain ⟨hlt, -⟩ := List.getElem?_eq_some_iff.mp hentry
  rw [← List.length_map Entry.indent, ← length_parents] at hlt
  have hparent := List.getElem?_eq_getElem hlt
  generalize (parents ((events.filterMap Event.entry?).map Entry.indent))[entriesBefore events i] =
    parent at hparent
  have hzip := List.getElem?_zip_eq_some (z := (e, parent)).mpr ⟨hentry, hparent⟩
  exact ⟨parent, by rw [unlinked, getElem?_spansFrom, hzip, Option.map_some, Nat.zero_add]⟩

/-! ## Linking the spans -/

/-- Links by number change only what a span goes on with. -/
theorem getElem?_linkNumbered (earlier spans : List Span) (k : Nat) :
    ∃ link, (linkNumbered earlier spans)[k]? =
      spans[k]?.map fun s => { s with continues := link } := by
  induction spans generalizing earlier k with
  | nil => exact ⟨none, rfl⟩
  | cons s rest ih =>
    cases k with
    | zero => exact ⟨numberedLink earlier s, rfl⟩
    | succ k =>
      obtain ⟨link, hlink⟩ := ih (earlier ++ [{ s with continues := numberedLink earlier s }]) k
      exact ⟨link, by simpa only [linkNumbered, List.getElem?_cons_succ] using hlink⟩

theorem map_entry_spansFrom (found : List (Nat × Closing)) (index : Nat)
    (entries : List (Entry × Option Nat)) :
    (spansFrom found index entries).map Span.entry = entries.map Prod.fst := by
  induction entries generalizing index with
  | nil => rfl
  | cons p rest ih => simp only [spansFrom, List.map_cons, ih, spanOf]

theorem map_entry_linkNumbered (earlier spans : List Span) :
    (linkNumbered earlier spans).map Span.entry = spans.map Span.entry := by
  induction spans generalizing earlier with
  | nil => rfl
  | cons s rest ih => simp only [linkNumbered, List.map_cons, ih]

/-- A timeline has one span for each entry, in order. -/
theorem map_entry_ofEvents (events : List Event) :
    (ofEvents events).map Span.entry = events.filterMap Event.entry? := by
  have hlength : (parents ((events.filterMap Event.entry?).map Entry.indent)).length =
      (events.filterMap Event.entry?).length := by
    rw [length_parents, List.length_map]
  rw [ofEvents, map_entry_linkNumbered, unlinked, map_entry_spansFrom]
  exact List.map_fst_zip (Nat.le_of_eq hlength.symm)

/-- What a span is the work of is an entry of the log. -/
theorem entry_mem_of_mem_ofEvents {events : List Event} {s : Span} (hs : s ∈ ofEvents events) :
    Event.entry s.entry ∈ events := by
  have hentry := List.mem_map_of_mem (f := Span.entry) hs
  rw [map_entry_ofEvents] at hentry
  obtain ⟨event, hevent, heq⟩ := List.mem_filterMap.mp hentry
  cases event with
  | entry e => exact Option.some.inj heq ▸ hevent
  | stop _ => simp [Event.entry?] at heq

/-! ## Ends and states -/

/-- The span is the one that the rules give to the entry at position `i`. A stated duration
alone decides the end; without one the event that closes the entry does, if there is one. The
state that the entry assigns itself goes before the one that its end gives. -/
structure Scoped (events : List Event) (i : Nat) (e : Entry) (s : Span) : Prop where
  entry : s.entry = e
  stated : ∀ minutes, e.duration = some minutes →
    s.stop = some (e.timestamp.addMinutes minutes) ∧ s.state = e.suffix.getD .completed
  closed : e.duration = none → ∀ q event, events[q]? = some event → Closes events q i →
    s.stop = some event.timestamp ∧
      s.state = e.suffix.getD (match event with
        | .entry _ => .completed
        | .stop m => m.stop.state)
  running : e.duration = none → (∀ q, ¬ Closes events q i) →
    s.stop = none ∧ s.state = e.suffix.getD .working

theorem closingBy_eq (event : Event) :
    closingBy event = ⟨event.timestamp, match event with
      | .entry _ => .completed
      | .stop m => m.stop.state⟩ := by
  cases event <;> rfl

/-- A span made with the closing that is looked up for its entry follows the rules. -/
theorem scoped_spanOf {events : List Event} {i : Nat} {e : Entry}
    (hi : events[i]? = some (.entry e)) (parent : Option Nat) (link : Option Link) :
    Scoped events i e
      { spanOf e parent ((closings events).lookup (entriesBefore events i)) with
        continues := link } where
  entry := rfl
  stated := by
    intro minutes hminutes
    have hstop : e.statedEnd = some (e.timestamp.addMinutes minutes) := by
      rw [Entry.statedEnd, hminutes, Option.map_some]
    have hends : EndsFrom events 0 i ⟨e.timestamp.addMinutes minutes, .completed⟩ :=
      .inl ⟨Nat.zero_le i, e, _, hi, hstop, rfl⟩
    rw [(lookup_closings hi).mpr hends]
    exact ⟨rfl, rfl⟩
  closed := by
    intro _ q event hq hcloses
    have hends : EndsFrom events 0 i (closingBy event) :=
      .inr ⟨q, event, Nat.zero_le q, hq, hcloses, rfl⟩
    rw [(lookup_closings hi).mpr hends, closingBy_eq]
    exact ⟨rfl, rfl⟩
  running := by
    intro hnone hnever
    -- a closing would come from a stated duration or from an event, and there is neither
    have hlookup : (closings events).lookup (entriesBefore events i) = none := by
      apply Option.eq_none_iff_forall_ne_some.mpr
      intro closing hclosing
      rcases (lookup_closings hi).mp hclosing with
        ⟨-, f, stop, hf, hstop, -⟩ | ⟨q, -, -, -, hcloses, -⟩
      · obtain rfl : e = f := by simpa using hi.symm.trans hf
        simp [Entry.statedEnd, hnone] at hstop
      · exact hnever q hcloses
    rw [hlookup]
    exact ⟨rfl, rfl⟩

/-- Every entry of a log has its span in the timeline, which ends when and as the rules for
closing say. -/
theorem ofEvents_scoped (events : List Event) :
    (ofEvents events).map Span.entry = events.filterMap Event.entry? ∧
      ∀ i e, events[i]? = some (.entry e) →
        ∃ s, (ofEvents events)[entriesBefore events i]? = some s ∧ Scoped events i e s := by
  refine ⟨map_entry_ofEvents events, ?_⟩
  intro i e hi
  obtain ⟨parent, hspan⟩ := getElem?_unlinked hi
  obtain ⟨link, hlink⟩ := getElem?_linkNumbered [] (unlinked events) (entriesBefore events i)
  rw [hspan, Option.map_some] at hlink
  exact ⟨_, hlink, scoped_spanOf hi parent link⟩

/-- Ten minutes of work, work inside it, and a pause that is indented further than both. -/
def nestedPause : List Event :=
  let moment (minute : Nat) (h : minute < 60) : DateTime :=
    ⟨⟨2024, 3, 1, by decide⟩, ⟨9, minute, 0, by decide, h, by decide⟩⟩
  [.entry { timestamp := moment 0 (by decide), description := "outer", indent := 0, line := 1 },
    .entry { timestamp := moment 5 (by decide), description := "inner", indent := 2, line := 2 },
    .stop { stop := .pause, timestamp := moment 10 (by decide), indent := 4, line := 3 }]

/-- The pause closes the entry that began last, since neither entry is indented as far. -/
theorem ofEvents_scoped_nestedPause :
    ∃ s, (ofEvents nestedPause)[1]? = some s ∧ s.entry.description = "inner" ∧
      s.state = .paused ∧ s.stop.map (fun t => t.time.minute) = some 10 := by
  have hinner : IsOpen nestedPause 2 1 :=
    isOpen_iff.mpr ⟨by decide, ⟨_, rfl, rfl⟩, fun r h₁ h₂ => by omega⟩
  have hcloses : Closes nestedPause 2 1 := by
    refine ⟨_, rfl, hinner, .inr ⟨⟨_, rfl⟩, ?_, ?_⟩⟩
    · intro j e hj he
      have hlt := (isOpen_iff.mp hj).1
      rcases Nat.lt_succ_iff_lt_or_eq.mp hlt with hlt | rfl
      · obtain rfl : j = 0 := by omega
        obtain rfl := Event.entry.inj (Option.some.inj he)
        decide
      · obtain rfl := Event.entry.inj (Option.some.inj he)
        decide
    · intro j hj
      exact Nat.le_of_lt_succ (isOpen_iff.mp hj).1
  obtain ⟨s, hs, hscoped⟩ := (ofEvents_scoped nestedPause).2 1 _ rfl
  obtain ⟨hstop, hstate⟩ := hscoped.closed rfl 2 _ rfl hcloses
  refine ⟨s, hs, ?_, hstate, ?_⟩
  · rw [hscoped.entry]
  · rw [hstop]
    rfl

end Daybook.Timeline
