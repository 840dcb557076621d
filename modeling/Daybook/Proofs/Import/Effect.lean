import Daybook.Proofs.Import.Runs
import Daybook.Proofs.Log.Tags
import Daybook.Proofs.Store.Operations
import Daybook.Proofs.Store.Reading
import Daybook.Proofs.Timeline.Passes
import Daybook.Proofs.Timeline.Spans

/-!
# What an import stores

An import that succeeds takes the sessions that overlap the log away, with all that goes with
them, and puts one session for each entry of the log after those that stay. Nothing else about
the sessions that stay is touched, except that a link to a session that goes is cleared.

* `run_effect` : the rows of the store after an import.
-/

namespace Daybook.Import

open Store (numberAt linkNumber)

/-! ## The sessions of a log -/

/-- The session that the span at position `k` is stored as, when `lastId` is the last number
that was given out: all that its entry says, its bounds and its state, and its links as numbers. -/
def sessionAt (lastId k : Nat) (s : Span) : Session :=
  { id := numberAt lastId k
    description := s.entry.description
    project := s.entry.project
    tags := s.entry.tags
    start := s.start
    stop := s.stop
    state := s.state
    parent := s.parent.map (numberAt lastId)
    continues := s.continues.map (linkNumber lastId)
    estimate := s.entry.estimate
    remark := s.entry.remark }

theorem rowAt_eq (lastId k : Nat) {s : Span} (h : s.entry.tags.Nodup) :
    Store.rowAt lastId k s = (sessionAt lastId k s).row := by
  simp only [Store.rowAt, Store.rowOf, Store.sessionOf, sessionAt, Session.row,
    eraseDups_of_nodup h]

/-- The store `after` is the store `before` with the spans in the place of the sessions that the
numbers name. -/
structure Replaces (before : Store) (ids : List SessionId) (spans : List Span) (after : Store) :
    Prop where
  rows : ∀ row, row ∈ after.rows ↔
    (∃ old ∈ before.rows, before.LeftOf ids old row) ∨
      ∃ (k : Nat) (s : Span), spans[k]? = some s ∧ row = (sessionAt before.lastId k s).row
  ordered : after.Ordered
  lastId : after.lastId = before.lastId + spans.length
  back : ∀ k s, spans[k]? = some s → Store.RefersBack k s
  linked : ∀ (k : Nat) (s : Span) (id : SessionId), spans[k]? = some s → s.continues = some (.session id) →
    ∃ old ∈ before.rows, old.id = id ∧ ¬ before.Taken ids old

variable {store after : Store} {ids : List SessionId}

/-- The tags of the spans of a log are kept, since none is repeated. -/
theorem nodup_tags_resolved (h : store.Sound) {r : Request} {resolved : List Span}
    (hresolve : Timeline.resolve store.archive r.spans = .ok resolved) :
    ∀ s ∈ resolved, s.entry.tags.Nodup := by
  refine Timeline.resolve_tags ?_ ?_ hresolve
  · intro f session hlatest
    obtain ⟨row, hrow, -, hread⟩ := Store.latestPaused_ok hlatest
    rw [(Store.session_ok hread).2.2]
    exact h.tags row hrow
  · intro s hs
    exact Log.nodup_tags r.base r.text s.entry (Timeline.entry_mem_of_mem_ofEvents hs)

/-- What replacing sessions with the spans of a log does to a store that is in order. -/
theorem replaces_of_replace (h : store.Sound) {r : Request} {done : Store.Replacement}
    (hok : store.replace ids r.spans = .ok (after, done)) :
    ∃ resolved, Timeline.resolve (store.eraseAll ids).1.archive r.spans = .ok resolved ∧
      Replaces store ids resolved after := by
  obtain ⟨resolved, all, hresolve, hstore⟩ := Store.replace_ok hok
  have hleft : ∀ {row}, row ∈ (store.eraseAll ids).1.rows ↔
      ∃ old ∈ store.rows, store.LeftOf ids old row := Store.mem_eraseAll_iff h.nested
  have hlast := Store.lastId_eraseAll store ids
  obtain ⟨hrows, hlast', hback⟩ := Store.importSpans_ok hstore
  have htags := nodup_tags_resolved (h.eraseAll ids) hresolve
  obtain ⟨-, hlinked⟩ := Timeline.resolve_linked (Store.answers_isStored _) hresolve
  refine ⟨resolved, hresolve, ?_, (h.replace hok).nested.ordered, ?_, hback, ?_⟩
  · intro row
    rw [hrows, List.mem_append, hleft, Store.mem_mapIdx_rowAt, hlast]
    -- the new rows keep all tags
    have hnew : (∃ k s, resolved[k]? = some s ∧ Store.rowAt store.lastId k s = row) ↔
        ∃ k s, resolved[k]? = some s ∧ row = (sessionAt store.lastId k s).row := by
      constructor
      · rintro ⟨k, s, hs, rfl⟩
        exact ⟨k, s, hs, rowAt_eq _ k (htags s (List.mem_of_getElem? hs))⟩
      · rintro ⟨k, s, hs, rfl⟩
        exact ⟨k, s, hs, rowAt_eq _ k (htags s (List.mem_of_getElem? hs))⟩
    rw [hnew]
  · rw [hlast', hlast]
  · intro k s id hs hlink
    obtain ⟨row, hrow, hid⟩ := hlinked k s hs _ hlink
    obtain ⟨old, hold, hkept⟩ := hleft.mp hrow
    exact ⟨old, hold, hkept.id_eq ▸ hid, hkept.stays⟩

/-! ## Imports -/

/-- What imports reach, operations reach. -/
theorem exists_operations (requests : List Request) :
    ∃ operations, reached requests = Store.after operations := by
  refine reached_induction (P := fun store => ∃ operations, store = Store.after operations)
    ⟨[], rfl⟩ ?_
  rintro store r - ⟨operations, rfl⟩
  rcases apply_cases (Store.after operations) r with hsame | ⟨conflicts, done, -, -, -, -, hreplace⟩
  · exact ⟨operations, hsame⟩
  · -- all that an import does to the store is one replacement
    refine ⟨operations ++ [.replace conflicts r.spans], ?_⟩
    rw [Store.after_snoc, Store.Operation.apply, hreplace]
    rfl

/-- An import without a dry run that succeeds on a log with an entry replaces the sessions that
overlap the log, in every store that operations reach. The numbers of the new sessions are beyond
all that were ever stored, and the new rows read back as the sessions. -/
theorem run_effect (operations : List Store.Operation) (r : Request)
    (hdry : r.options.dryRun = false) (hspans : r.spans ≠ []) {summary : Summary}
    (hok : (run (Store.after operations) r.options r.base r.text).result = .ok summary) :
    ∃ conflicts resolved,
      (Store.after operations).conflicts r.spans = .ok conflicts ∧
      Timeline.resolve ((Store.after operations).eraseAll conflicts).1.archive r.spans =
        .ok resolved ∧
      resolved.length = r.spans.length ∧
      Replaces (Store.after operations) conflicts resolved
        (Request.apply (Store.after operations) r) ∧
      (∀ k, ∀ row ∈ (Store.after (operations.take k)).rows,
        row.id.value ≤ (Store.after operations).lastId) ∧
      ∀ k s, resolved[k]? = some s → IsWithinCalendar s.start s.stop →
        (sessionAt (Store.after operations).lastId k s).row.session =
          .ok (sessionAt (Store.after operations).lastId k s) := by
  have hends := run_ends (Store.after operations) r
  rw [hok] at hends
  generalize Request.apply (Store.after operations) r = next at hends ⊢
  cases hends with
  | nothing _ hnone => exact absurd hnone hspans
  | planned _ _ hplan _ => exact absurd (hdry.symm.trans hplan) Bool.noConfusion
  | @stored conflicts _ done hmeets _ _ hreplace =>
    obtain ⟨resolved, hresolve, hreplaces⟩ :=
      replaces_of_replace (Store.sound_after operations) hreplace
    refine ⟨conflicts, resolved, hmeets.found, hresolve, Timeline.length_resolve hresolve,
      hreplaces, Store.id_le_of_take operations, ?_⟩
    intro k s _ hbounds
    exact Store.session_row hbounds

theorem isSome_sampleNoon : (TimeOfDay.ofParts? 12 0 0).isSome := by decide

def sampleNoon : DateTime :=
  ⟨sampleDay, (TimeOfDay.ofParts? 12 0 0).get isSome_sampleNoon⟩

/-- A meeting, a call that interrupted it, and the notes that go on with the meeting. -/
def meetingWithNotes : List Store.Operation :=
  [.insert { description := "Meeting", start := sampleNoon,
             stop := some (sampleNoon.addMinutes 120), state := .paused },
    .insert { description := "Call", start := sampleNoon.addMinutes 60,
              stop := some (sampleNoon.addMinutes 120), state := .completed,
              parent := some ⟨1, Int.zero_lt_one⟩ },
    .insert { description := "Notes", start := sampleNoon.addMinutes 300,
              stop := some (sampleNoon.addMinutes 360), state := .completed,
              continues := some ⟨1, Int.zero_lt_one⟩ }]

/-- A review in the place of what overlaps it. -/
def reviewInstead : Request :=
  { options := { overwrite := true }, base := sampleDay, text := "13:30 Review +team\n15:00 @end" }

/-- The meeting goes with the call, the notes lose their link, and the review is new. -/
theorem run_effect_reviewInstead :
    (Request.apply (Store.after meetingWithNotes) reviewInstead).rows.map
        (fun row => (row.id.value, row.description, row.continues)) =
      [(3, "Notes", none), (4, "Review", none)] ∧
    ∃ conflicts resolved, resolved.length = 1 ∧
      Replaces (Store.after meetingWithNotes) conflicts resolved
        (Request.apply (Store.after meetingWithNotes) reviewInstead) := by
  have hresult : (run (Store.after meetingWithNotes) reviewInstead.options reviewInstead.base
      reviewInstead.text).result = .ok { sessions := 1, replaced := 1 } := by decide +kernel
  obtain ⟨conflicts, resolved, -, -, hlength, hreplaces, -, -⟩ :=
    run_effect meetingWithNotes reviewInstead rfl (by decide +kernel) hresult
  refine ⟨by decide +kernel, conflicts, resolved, ?_, hreplaces⟩
  rw [hlength]
  decide +kernel

end Daybook.Import
