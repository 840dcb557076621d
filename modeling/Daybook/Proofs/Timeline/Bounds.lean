import Daybook.Proofs.Timeline.Nesting
import Daybook.Proofs.Timeline.Passes
import Daybook.Proofs.Timeline.Spans

/-!
# The bounds and the places of spans

A span begins when its entry does, and it ends when a stated duration is over or when an event of
the log happens. Its parent stands before it.

* `stop_ofEvents` : where the end of a span comes from.
* `Scoped.stop_lt_start_iff` : the spans that end before they begin.
* `parent_lt_of_ofEvents` : the parent of a span stands before it.
-/

namespace Daybook.Timeline

variable {events : List Event} {s : Span}

/-- The span at a position is made of the entry, the parent and the closing there. -/
theorem exists_spanOf_ofEvents {k : Nat} (hs : (ofEvents events)[k]? = some s) :
    ∃ e parent, (parents ((events.filterMap Event.entry?).map Entry.indent))[k]? = some parent ∧
      s = { spanOf e parent ((closings events).lookup k) with continues := s.continues } := by
  have hpass := getElem?_linkNumbered_take [] (unlinked events) k
  rw [show linkNumbered [] (unlinked events) = ofEvents events from rfl, hs] at hpass
  obtain ⟨u, hu, rfl⟩ := Option.map_eq_some_iff.mp hpass.symm
  rw [unlinked, getElem?_spansFrom, Nat.zero_add, Option.map_eq_some_iff] at hu
  obtain ⟨⟨e, parent⟩, hpair, rfl⟩ := hu
  obtain ⟨-, hparent⟩ := List.getElem?_zip_eq_some.mp hpair
  exact ⟨e, parent, hparent, rfl⟩

theorem mem_of_lookup_eq_some {found : List (Nat × Closing)} {k : Nat} {closing : Closing}
    (h : found.lookup k = some closing) : (k, closing) ∈ found := by
  obtain ⟨before, after, rfl, -⟩ := List.lookup_eq_some_iff.mp h
  simp

/-- A span ends when a duration that its log states is over, or when an event happens. -/
theorem stop_ofEvents (hs : s ∈ ofEvents events) {t : DateTime} (ht : s.stop = some t) :
    (∃ e, Event.entry e ∈ events ∧ e.statedEnd = some t) ∨
      ∃ event ∈ events, event.timestamp = t := by
  obtain ⟨k, hk⟩ := List.getElem?_of_mem hs
  obtain ⟨e, parent, -, hspan⟩ := exists_spanOf_ofEvents hk
  rw [hspan] at ht
  obtain ⟨closing, hclosing, rfl⟩ := Option.map_eq_some_iff.mp ht
  obtain ⟨i, -, hends⟩ := mem_closings_iff.mp (mem_of_lookup_eq_some hclosing)
  -- the closing is that of a stated duration, or that of the event that closed the entry
  rcases hends with ⟨-, f, stop, hf, hstop, rfl⟩ | ⟨q, event, -, hq, -, rfl⟩
  · exact .inl ⟨f, List.mem_of_getElem? hf, hstop⟩
  · exact .inr ⟨event, List.mem_of_getElem? hq, by cases event <;> rfl⟩

/-! ## Rules for spans -/

/-- Every entry of a log stands at a position. -/
theorem exists_position {k : Nat} {e : Entry}
    (h : (events.filterMap Event.entry?)[k]? = some e) :
    ∃ i, events[i]? = some (.entry e) ∧ entriesBefore events i = k := by
  induction events generalizing k with
  | nil => simp at h
  | cons event rest ih =>
    cases event with
    | stop m =>
      obtain ⟨i, hi, hk⟩ := ih h
      exact ⟨i + 1, hi, hk⟩
    | entry f =>
      cases k with
      | zero =>
        obtain rfl := Option.some.inj h
        exact ⟨0, rfl, rfl⟩
      | succ k =>
        obtain ⟨i, hi, hk⟩ := ih h
        exact ⟨i + 1, hi, congrArg (· + 1) hk⟩

theorem getElem?_indents {i : Nat} {e : Entry} (hi : events[i]? = some (.entry e)) :
    ((events.filterMap Event.entry?).map Entry.indent)[entriesBefore events i]? =
      some e.indent := by
  rw [List.getElem?_map, getElem?_entries hi, Option.map_some]

/-- Every span is the one that the rules give to the entry at its place, and its parent is the
nearest entry before it that is indented less. -/
theorem exists_place {k : Nat} (hs : (ofEvents events)[k]? = some s) :
    ∃ i e, events[i]? = some (.entry e) ∧ entriesBefore events i = k ∧ Scoped events i e s ∧
      IsParent ((events.filterMap Event.entry?).map Entry.indent) k e.indent s.parent := by
  obtain ⟨e, parent, hparent, hspan⟩ := exists_spanOf_ofEvents hs
  have hentry : (events.filterMap Event.entry?)[k]? = some e := by
    have hmap := congrArg (Option.map Span.entry) hs
    rw [← List.getElem?_map, map_entry_ofEvents] at hmap
    rw [hmap, hspan]
    rfl
  obtain ⟨i, hi, rfl⟩ := exists_position hentry
  refine ⟨i, e, hi, rfl, hspan ▸ scoped_spanOf hi parent s.continues, ?_⟩
  rw [hspan]
  exact parents_sound hparent (getElem?_indents hi)

/-- Every span is the one that the rules give to some entry. -/
theorem exists_scoped (hs : s ∈ ofEvents events) :
    ∃ i e, events[i]? = some (.entry e) ∧ Scoped events i e s := by
  obtain ⟨k, hk⟩ := List.getElem?_of_mem hs
  obtain ⟨i, e, hi, -, hscoped, -⟩ := exists_place hk
  exact ⟨i, e, hi, hscoped⟩

theorem Scoped.start_eq {i : Nat} {e : Entry} (h : Scoped events i e s) : s.start = e.timestamp :=
  congrArg Entry.timestamp h.entry

/-- Without a stated duration a span ends when an event closes its entry. -/
theorem Scoped.exists_closes {i : Nat} {e : Entry} (h : Scoped events i e s)
    (hduration : e.duration = none) {t : DateTime} (ht : s.stop = some t) :
    ∃ q event, events[q]? = some event ∧ Closes events q i ∧ event.timestamp = t := by
  by_cases hnever : ∀ q, ¬ Closes events q i
  · rw [(h.running hduration hnever).1] at ht
    simp at ht
  · obtain ⟨q, hcloses⟩ := Classical.not_forall_not.mp hnever
    obtain ⟨event, hq, -⟩ := id hcloses
    rw [(h.closed hduration q event hq hcloses).1] at ht
    exact ⟨q, event, hq, hcloses, Option.some.inj ht⟩

/-- A span ends before it begins exactly when an event with an earlier timestamp closes its
entry. -/
theorem Scoped.stop_lt_start_iff {i : Nat} {e : Entry} (h : Scoped events i e s)
    (hi : events[i]? = some (.entry e)) :
    (∃ t ∈ s.stop, t < s.start) ↔
      ∃ q event, events[q]? = some event ∧ Closes events q i ∧ event.timestamp < s.start := by
  have hstart := h.start_eq
  constructor
  · rintro ⟨t, ht, hlt⟩
    cases hduration : e.duration with
    | some minutes =>
      -- a stated duration leads forward
      rw [(h.stated minutes hduration).1] at ht
      obtain rfl := Option.some.inj ht
      rw [hstart] at hlt
      exact absurd hlt (Int.not_lt.mpr (e.timestamp.le_addMinutes minutes))
    | none =>
      obtain ⟨q, event, hq, hcloses, rfl⟩ := h.exists_closes hduration ht
      exact ⟨q, event, hq, hcloses, hlt⟩
  · rintro ⟨q, event, hq, hcloses, hlt⟩
    obtain ⟨-, ⟨f, hf, hnone⟩, -⟩ := isOpen_iff.mp hcloses.isOpen
    obtain rfl : e = f := by simpa using hi.symm.trans hf
    exact ⟨event.timestamp, (h.closed hnone q event hq hcloses).1, hlt⟩

/-! ## Parents -/

/-- The parent of a span stands before it. -/
theorem parent_lt_of_ofEvents {k parent : Nat} (hs : (ofEvents events)[k]? = some s)
    (hparent : s.parent = some parent) : parent < k := by
  obtain ⟨i, e, -, -, -, hright⟩ := exists_place hs
  rw [hparent] at hright
  exact hright.1

end Daybook.Timeline
