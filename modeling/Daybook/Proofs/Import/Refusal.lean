import Daybook.Proofs.Calendar.Range
import Daybook.Proofs.Import.Effect
import Daybook.Proofs.Log.RoundTrip
import Daybook.Proofs.Store.Questions
import Daybook.Proofs.Timeline.Bounds

/-!
# Why an import is refused

In a store that imports reach, nothing that is kept can make an import fail: every row can be
read, every link of a log leads to a row, and every end that a duration states can be written
down. What is left are faults of the log, sessions that overlap it, and interruptions that are
nested too deep to be removed. An import that is refused changes nothing.

* `run_refuses` : all the ways in which an import can end.
-/

namespace Daybook.Import

/-! ## The moments of a log -/

variable {r : Request}

theorem fourDigit_of_mem_events (hbase : r.base.FourDigit) {event : Event}
    (h : event ∈ r.log.events) : event.timestamp.FourDigit := by
  have hcanonical := Log.canonical_of_mem_ofText hbase r.text event h
  cases event with
  | entry e => exact hcanonical.1.timestamp.fourDigit
  | stop s => exact hcanonical.1.fourDigit

/-- The end that an entry states can be read. -/
theorem inRange_of_statedEnd (hbase : r.base.FourDigit) {e : Entry}
    (he : Event.entry e ∈ r.log.events) {t : DateTime} (ht : e.statedEnd = some t) :
    t.date.InRange := by
  have hcanonical := (Log.canonical_of_mem_ofText hbase r.text _ he).1
  obtain ⟨minutes, hminutes, rfl⟩ := Option.map_eq_some_iff.mp ht
  exact DateTime.inRange_addMinutes hcanonical.timestamp.fourDigit
    (hcanonical.duration minutes hminutes).2

/-- A log that begins in a year of four digits has no moment that cannot be read. -/
theorem isWithinCalendar_of_fourDigit (hbase : r.base.FourDigit) :
    ∀ s ∈ r.spans, IsWithinCalendar s.start s.stop := by
  intro s hs
  have hentry := Timeline.entry_mem_of_mem_ofEvents hs
  refine ⟨(fourDigit_of_mem_events hbase hentry).inRange, ?_⟩
  intro t ht
  -- an end is stated by an entry, or it is the moment of an event
  rcases Timeline.stop_ofEvents hs ht with ⟨e, he, hstated⟩ | ⟨event, hevent, rfl⟩
  · exact inRange_of_statedEnd hbase he hstated
  · exact (fourDigit_of_mem_events hbase hevent).inRange

/-! ## Storing the spans of a log -/

variable {store after : Store}

theorem isWithinCalendar_of_frames {spans resolved : List Span}
    (hframes : resolved.map Timeline.frame = spans.map Timeline.frame)
    (h : ∀ s ∈ spans, IsWithinCalendar s.start s.stop) :
    ∀ s ∈ resolved, IsWithinCalendar s.start s.stop := by
  intro s hs
  obtain ⟨k, hk⟩ := List.getElem?_of_mem hs
  obtain ⟨t, ht, hstart, hstop, -⟩ := Timeline.exists_of_map_frame hframes hk
  rw [hstart, hstop]
  exact h t (List.mem_of_getElem? ht)

/-- The spans of a log with their links can be stored where the links were made. -/
theorem isStorable_of_resolve {events : List Event} {resolved : List Span}
    (hresolve : Timeline.resolve store.archive (Timeline.ofEvents events) = .ok resolved) :
    ∀ k s, resolved[k]? = some s → store.IsStorable k s := by
  obtain ⟨hframes, hlinked⟩ :=
    Timeline.resolve_linked (Store.answers_isStored store) hresolve
  intro k s hs
  refine ⟨⟨?_, ?_⟩, fun id hid => hlinked k s hs _ hid⟩
  · -- links do not change what a span interrupts
    intro parent hparent
    obtain ⟨t, ht, -, -, -, hsame⟩ := Timeline.exists_of_map_frame hframes hs
    exact Timeline.parent_lt_of_ofEvents ht (hsame.symm.trans hparent)
  · intro target htarget
    exact (Timeline.Linked.target hlinked hs htarget).1

/-- Sessions can be replaced with the spans of a log, unless they cannot be removed. -/
theorem exists_replace (h : store.Readable) {ids : List SessionId}
    (hshallow : store.goesTooDeep ids = false) (r : Request) :
    ∃ done, store.replace ids r.spans = .ok done := by
  -- links are made in what the removals leave, and that can be read as well
  have hleft := h.eraseAll ids
  obtain ⟨resolved, hresolve⟩ := Timeline.exists_resolve (Store.answering_archive hleft) r.spans
  obtain ⟨⟨after, all⟩, hstore⟩ :=
    Store.exists_importSpans (isStorable_of_resolve hresolve)
  exact ⟨_, Store.replace_of_steps (Store.removeAll_of_shallow hshallow) hresolve hstore⟩

/-- Sessions that are nested too deep are the only ones that cannot be replaced. -/
theorem goesTooDeep_of_replace (h : store.Readable) {ids : List SessionId} {cause : StoreError}
    (hfailed : store.replace ids r.spans = .error cause) :
    store.goesTooDeep ids = true ∧ cause = .tooDeep := by
  cases hdeep : store.goesTooDeep ids with
  | false =>
    obtain ⟨done, hdone⟩ := exists_replace h hdeep r
    rw [hfailed] at hdone
    simp at hdone
  | true =>
    rw [Store.replace, Store.removeAll_of_deep hdeep] at hfailed
    exact ⟨rfl, (Except.error.inj hfailed).symm⟩

/-- An import of a log whose moments can be read leaves a store that can be read. -/
theorem readable_apply (h : store.Readable)
    (hr : ∀ s ∈ r.spans, IsWithinCalendar s.start s.stop) : (Request.apply store r).Readable := by
  rcases apply_cases store r with hsame | ⟨conflicts, done, -, -, -, -, hreplace⟩
  · rw [hsame]
    exact h
  · obtain ⟨resolved, all, hresolve, hstore⟩ := Store.replace_ok hreplace
    obtain ⟨hframes, -⟩ := Timeline.resolve_linked (Store.answers_isStored _) hresolve
    exact (h.eraseAll conflicts).importSpans (isWithinCalendar_of_frames hframes hr) hstore

/-! ## What an import prints -/

theorem exists_conflictLine (h : store.Readable) (id : SessionId) :
    ∃ line, conflictLine store id = .ok line := by
  obtain ⟨found, hfound⟩ := Store.exists_session? h.legible id
  cases found with
  | none => exact ⟨_, bind_eq_ok.mpr ⟨none, hfound, rfl⟩⟩
  | some session => exact ⟨_, bind_eq_ok.mpr ⟨some session, hfound, rfl⟩⟩

theorem exists_lostLinks (h : store.Readable) (ids : List SessionId) :
    ∃ notice, lostLinks store ids = .ok notice := by
  obtain ⟨sessions, hsessions⟩ := Store.exists_continuationsOf h ids
  exact ⟨_, bind_eq_ok.mpr ⟨sessions, hsessions, rfl⟩⟩

theorem exists_linkText (h : store.Readable) (spans : List Span) (link : Option Link) :
    ∃ text, linkText store spans link = .ok text := by
  cases link with
  | none => exact ⟨"", rfl⟩
  | some link =>
    cases link with
    | entry target => exact ⟨_, rfl⟩
    | session id =>
      obtain ⟨found, hfound⟩ := Store.exists_state? h id
      cases found with
      | none => exact ⟨_, bind_eq_ok.mpr ⟨none, hfound, rfl⟩⟩
      | some state => exact ⟨_, bind_eq_ok.mpr ⟨some state, hfound, rfl⟩⟩

/-- No part of a plan fails. -/
theorem error_notMem_planParts (h : store.Readable) (spans : List Span) (replaced : Nat)
    (cause : StoreError) : .error cause ∉ planParts store spans replaced := by
  intro hmem
  -- the first line, the lines of one span each, and the last line
  obtain hmem | hmem := List.mem_append.mp hmem
  · rcases List.mem_cons.mp hmem with heq | hmem
    · simp at heq
    · obtain ⟨s, -, hpart⟩ := List.mem_flatMap.mp hmem
      obtain ⟨text, htext⟩ := exists_linkText h spans s.continues
      simp [htext] at hpart
  · simp at hmem

/-! ## All endings -/

theorem readable_reached {requests : List Request}
    (h : ∀ q ∈ requests, ∀ s ∈ q.spans, IsWithinCalendar s.start s.stop) :
    (reached requests).Readable :=
  reached_induction (P := Store.Readable) Store.Readable.empty
    fun _ q hq hstore => readable_apply hstore (h q hq)

theorem sound_reached (requests : List Request) : (reached requests).Sound := by
  obtain ⟨operations, hoperations⟩ := exists_operations requests
  rw [hoperations]
  exact Store.sound_after operations

/-- Where every row can be read, an import succeeds, or it is refused for a fault of the log or for
the stored sessions that overlap it. -/
theorem result_of_readable (h : store.Readable) {result : Except Refusal Summary}
    (hends : Ends store r result after) :
    (∃ summary, result = .ok summary) ∨
      (r.log.isClean = false ∧ result = .error (.problems r.log.problems.length)) ∨
      (Timeline.selfOverlaps r.spans ≠ [] ∧
        result = .error (.overlaps (Timeline.selfOverlaps r.spans).length)) ∨
      ∃ conflicts, store.conflicts r.spans = .ok conflicts ∧ conflicts ≠ [] ∧
        ((r.options.overwrite = false ∧ result = .error (.conflicts conflicts.length)) ∨
          (r.options.overwrite = true ∧ r.options.dryRun = false ∧
            store.goesTooDeep conflicts = true ∧ result = .error (.storing .tooDeep))) := by
  cases hends with
  | problems hfaults => exact .inr (.inl ⟨hfaults, rfl⟩)
  | nothing => exact .inl ⟨_, rfl⟩
  | overlaps hoverlaps => exact .inr (.inr (.inl ⟨hoverlaps, rfl⟩))
  | conflicts hmeets hsome hoverwrite =>
    exact .inr (.inr (.inr ⟨_, hmeets.found, hsome, .inl ⟨hoverwrite, rfl⟩⟩))
  | planned => exact .inl ⟨_, rfl⟩
  | stored => exact .inl ⟨_, rfl⟩
  | @storing conflicts cause hmeets hallowed hdry hreplace =>
    obtain ⟨hdeep, rfl⟩ := goesTooDeep_of_replace h hreplace
    -- something has to go for a removal to reach too deep
    have hsome : conflicts ≠ [] := by
      rintro rfl
      exact Bool.noConfusion hdeep
    exact .inr (.inr (.inr ⟨conflicts, hmeets.found, hsome,
      .inr ⟨hallowed.resolve_left hsome, hdry, hdeep, rfl⟩⟩))
  -- the other endings need a question to the store that fails
  | conflictSearch hsearch =>
    obtain ⟨ids, hids⟩ := Store.exists_conflicts h r.spans
    exact absurd (hsearch.symm.trans hids) (by simp)
  | @conflictRead _ id _ _ _ hread =>
    obtain ⟨line, hline⟩ := exists_conflictLine h id
    exact absurd (hread.symm.trans hline) (by simp)
  | @continuationSearch conflicts _ _ hlost =>
    obtain ⟨notice, hnotice⟩ := exists_lostLinks h conflicts
    exact absurd (hlost.symm.trans hnotice) (by simp)
  | linking hlinking =>
    obtain ⟨resolved, hresolve⟩ :=
      Timeline.exists_resolve (Store.answering_archive h) r.spans
    exact absurd (hlinking.symm.trans hresolve) (by simp)
  | linkedRead _ _ hread => exact absurd hread (error_notMem_planParts h _ _ _)

/-- An import that is refused, or not in earnest, leaves the store as it was. -/
theorem apply_eq_of_ends {result : Except Refusal Summary} (hends : Ends store r result after)
    (h : (∃ refusal, result = .error refusal) ∨ r.options.dryRun = true) : after = store := by
  cases hends with
  | stored _ _ hdry =>
    rcases h with ⟨refusal, hrefusal⟩ | hdry'
    · simp at hrefusal
    · exact absurd (hdry.symm.trans hdry') Bool.noConfusion
  | _ => rfl

/-- When the moments of all earlier logs can be read and a log begins in a year of four digits,
every end that the log states can be read, and its import succeeds, or it is refused for a fault
of the log or for the stored sessions that overlap it. Only sessions with interruptions nested
too deep cannot be replaced. An import that is refused, or not in earnest, leaves the store as it
was. -/
theorem run_refuses (requests : List Request)
    (hrequests : ∀ q ∈ requests, ∀ s ∈ q.spans, IsWithinCalendar s.start s.stop)
    (r : Request) (hbase : r.base.FourDigit) :
    let store := reached requests
    let result := (run store r.options r.base r.text).result
    (∀ e t, Event.entry e ∈ r.log.events → e.statedEnd = some t → t.date.InRange) ∧
      ((∃ summary, result = .ok summary) ∨
        (r.log.isClean = false ∧ result = .error (.problems r.log.problems.length)) ∨
        (Timeline.selfOverlaps r.spans ≠ [] ∧
          result = .error (.overlaps (Timeline.selfOverlaps r.spans).length)) ∨
        ∃ conflicts, store.conflicts r.spans = .ok conflicts ∧ conflicts ≠ [] ∧
          ((r.options.overwrite = false ∧ result = .error (.conflicts conflicts.length)) ∨
            (r.options.overwrite = true ∧ r.options.dryRun = false ∧
              (∃ id ∈ conflicts, ∃ row ∈ store.rows, store.IsBeyond id.value row) ∧
              result = .error (.storing .tooDeep)))) ∧
      ((∃ refusal, result = .error refusal) ∨ r.options.dryRun = true →
        Request.apply store r = store) := by
  intro store result
  have hreadable : store.Readable := readable_reached hrequests
  have hends : Ends store r result (Request.apply store r) := run_ends store r
  refine ⟨fun e t he ht => inRange_of_statedEnd hbase he ht, ?_, apply_eq_of_ends hends⟩
  rcases result_of_readable hreadable hends with
    hok | hfaults | hoverlaps | ⟨conflicts, hfound, hsome, hkept | ⟨hoverwrite, hdry, hdeep, hresult⟩⟩
  · exact .inl hok
  · exact .inr (.inl hfaults)
  · exact .inr (.inr (.inl hoverlaps))
  · exact .inr (.inr (.inr ⟨conflicts, hfound, hsome, .inl hkept⟩))
  · have hbeyond :=
      Store.exists_isBeyond_of_goesTooDeep (sound_reached requests).nested hdeep
    exact .inr (.inr (.inr ⟨conflicts, hfound, hsome,
      .inr ⟨hoverwrite, hdry, hbeyond, hresult⟩⟩))

end Daybook.Import
