import Daybook.Proofs.Import.Carried
import Daybook.Proofs.Import.Conflicts
import Daybook.Proofs.Store.Renumbering

/-!
# The same log again

After a log was imported, the sessions that overlap it are those of the log itself that are at the
top level and take time. A second import of the log is refused for them. With the option to
overwrite it replaces them, and all that goes with them, by themselves under new numbers.

* `run_same_refused` : when the second import is refused.
* `run_again` : what the second import does when it may overwrite.
-/

namespace Daybook.Import

open Store (MeetsTop RefersBack numberAt rowAt topNumbers)

variable {store after : Store} {r : Request} {ids : List SessionId} {resolved : List Span}

/-! ## The sessions of a log that overlap the log -/

/-- In a log without overlaps, no span at the top level overlaps another one. -/
theorem eq_of_overlaps {spans : List Span} (hapart : Timeline.selfOverlaps spans = []) {i j : Nat}
    {s t : Span} (hs : spans[i]? = some s) (ht : spans[j]? = some t) (hstop : s.parent = none)
    (httop : t.parent = none) (hoverlap : overlaps s.start s.stop t.start t.stop = true) :
    i = j := by
  have hpair := Timeline.pairwise_of_selfOverlaps_eq_nil hapart
  rw [List.pairwise_iff_getElem] at hpair
  obtain ⟨hi, rfl⟩ := List.getElem?_eq_some_iff.mp hs
  obtain ⟨hj, rfl⟩ := List.getElem?_eq_some_iff.mp ht
  rcases Nat.lt_trichotomy i j with hlt | heq | hgt
  · have hfree := hpair i j hi hj hlt hstop httop
    exact absurd (hfree.symm.trans hoverlap) Bool.false_ne_true
  · exact heq
  · have hfree := hpair j i hj hi hgt httop hstop
    rw [Span.overlapsWith, overlaps_comm] at hfree
    exact absurd (hfree.symm.trans hoverlap) Bool.false_ne_true

/-- An interval overlaps itself when it takes time. -/
theorem overlaps_self_iff {start : DateTime} {stop : Option DateTime} :
    overlaps start stop start stop = true ↔ ∀ t ∈ stop, start < t := by
  rw [overlaps, Bool.and_self, Option.all_eq_true]
  simp

section

variable (hyears : ∀ s ∈ r.spans, s.parent = none → IsWithinYears s.start s.stop)
include hyears

/-- The row for a span meets the log of the span when the span is at the top level and takes
time. -/
theorem meetsTop_rowAt_iff (hapart : Timeline.selfOverlaps r.spans = []) {lastId k : Nat}
    {s t : Span} (ht : r.spans[k]? = some t) (hstart : s.start = t.start) (hstop : s.stop = t.stop)
    (hparent : s.parent = t.parent) :
    MeetsTop (rowAt lastId k s) r.spans ↔ t.parent = none ∧ ∀ e ∈ t.stop, t.start < e := by
  have hmem := List.mem_of_getElem? ht
  rw [MeetsTop, Store.parent_rowAt_eq_none_iff, hparent]
  refine and_congr_right fun httop => ?_
  have hbounds : IsWithinYears s.start s.stop := by
    rw [hstart, hstop]
    exact hyears t hmem httop
  have hmeets : ∀ u ∈ r.spans, u.parent = none → Store.rowMeets (rowAt lastId k s) u =
      overlaps u.start u.stop t.start t.stop := by
    intro u hu hutop
    rw [← hstart, ← hstop]
    exact Store.rowMeets_rowOf (n := Store.sessionOf lastId s) hbounds (hyears u hu hutop)
  constructor
  · rintro ⟨u, hu, hutop, hmeet⟩
    obtain ⟨j, hj⟩ := List.getElem?_of_mem hu
    rw [hmeets u hu hutop] at hmeet
    obtain rfl := eq_of_overlaps hapart hj ht hutop httop hmeet
    obtain rfl : u = t := Option.some.inj (hj.symm.trans ht)
    exact overlaps_self_iff.mp hmeet
  · intro htime
    exact ⟨t, hmem, httop, (hmeets t hmem httop).trans (overlaps_self_iff.mpr htime)⟩

namespace Carried

/-- What overlaps the log after its import is a session of the log. -/
theorem meetsTop_cases (h : Carried store r ids resolved after) {row : Row}
    (hrow : row ∈ after.rows) (hmeets : MeetsTop row r.spans) :
    ∃ (k : Nat) (s : Span), r.spans[k]? = some s ∧ s.parent = none ∧
      (∀ t ∈ s.stop, s.start < t) ∧ numberAt store.lastId k = row.id ∧
      ∃ session, row.session = .ok session := by
  obtain ⟨k, s, hs, rfl⟩ := h.exists_rowAt_of_meetsTop hrow hmeets
  obtain ⟨t, ht, hstart, hstop, -, hparent⟩ := Timeline.exists_of_map_frame h.frames hs
  obtain ⟨httop, htime⟩ :=
    (meetsTop_rowAt_iff hyears h.apart ht hstart hstop hparent).mp hmeets
  have hbounds : IsWithinYears s.start s.stop := by
    rw [hstart, hstop]
    exact hyears t (List.mem_of_getElem? ht) httop
  obtain ⟨session, hsession, -⟩ :=
    Store.session_rowOf (numberAt store.lastId k) (n := Store.sessionOf store.lastId s) hbounds
  exact ⟨k, t, ht, httop, htime, rfl, session, hsession⟩

/-- After an import, the sessions that overlap its log are those of the log that are at the top
level and take time. -/
theorem exists_conflicts (h : Carried store r ids resolved after) :
    ∃ found, after.conflicts r.spans = .ok found ∧
      ∀ id, id ∈ found ↔ ∃ (k : Nat) (s : Span), r.spans[k]? = some s ∧ s.parent = none ∧
        (∀ t ∈ s.stop, s.start < t) ∧ numberAt store.lastId k = id := by
  have hread : ∀ row ∈ after.rows, MeetsTop row r.spans →
      ∃ session, row.session = .ok session := by
    intro row hrow hmeets
    obtain ⟨-, -, -, -, -, -, hsession⟩ := h.meetsTop_cases hyears hrow hmeets
    exact hsession
  obtain ⟨found, hfound⟩ := Store.exists_conflicts_of_met hread
  refine ⟨found, hfound, fun id => ?_⟩
  rw [Store.mem_conflicts_iff hfound]
  constructor
  · rintro ⟨row, hrow, rfl, hmeets⟩
    obtain ⟨k, s, hs, htop, htime, hid, -⟩ := h.meetsTop_cases hyears hrow hmeets
    exact ⟨k, s, hs, htop, htime, hid⟩
  · rintro ⟨k, t, ht, httop, htime, rfl⟩
    obtain ⟨s, hs, hstart, hstop, -, hparent⟩ := Timeline.exists_of_map_frame h.frames.symm ht
    have hrow := h.extends_left.mem_rowAt hs
    rw [Store.lastId_eraseAll] at hrow
    exact ⟨_, hrow, rfl, (meetsTop_rowAt_iff hyears h.apart ht hstart.symm hstop.symm
      hparent.symm).mpr ⟨httop, htime⟩⟩

end Carried

end

/-! ## A second import that may not overwrite -/

/-- When a log was imported whose entries at the top level are in years of four digits, its import
without the option to overwrite is refused for stored sessions that overlap it exactly when one of
these entries takes time: it is open, or it ends after its start. -/
theorem run_same_refused (operations : List Store.Operation) (r : Request)
    (hyears : ∀ s ∈ r.spans, s.parent = none → IsWithinYears s.start s.stop)
    (hdry : r.options.dryRun = false) {summary : Summary}
    (hok : (run (Store.after operations) r.options r.base r.text).result = .ok summary)
    (dryRun : Bool) :
    let once := Request.apply (Store.after operations) r
    (∃ count, (run once { dryRun } r.base r.text).result = .error (.conflicts count)) ↔
      ∃ s ∈ r.spans, s.parent = none ∧ ∀ t ∈ s.stop, s.start < t := by
  intro once
  obtain ⟨ids, resolved, hcarried, -⟩ := carried_of_ok hdry hok
  have hordered : once.Ordered := (sound_apply (Store.sound_after operations) r).nested.ordered
  obtain ⟨found, hfound, hmem⟩ := hcarried.exists_conflicts hyears
  let again : Request := { r with options := { dryRun } }
  constructor
  · rintro ⟨count, hrefused⟩
    have hends := run_ends once again
    rw [show (run once again.options again.base again.text).result = .error (.conflicts count)
      from hrefused] at hends
    generalize Request.apply once again = left at hends
    cases hends with
    | @conflicts others hmeets hsome _ =>
      obtain rfl := Except.ok.inj (hmeets.found.symm.trans hfound)
      obtain ⟨id, hid⟩ := List.exists_mem_of_ne_nil _ hsome
      obtain ⟨k, s, hs, htop, htime, -⟩ := (hmem id).mp hid
      exact ⟨s, List.mem_of_getElem? hs, htop, htime⟩
  · rintro ⟨s, hs, htop, htime⟩
    obtain ⟨k, hk⟩ := List.getElem?_of_mem hs
    have hid := (hmem _).mpr ⟨k, s, hk, htop, htime, rfl⟩
    refine ⟨found.length, run_eq_refused (r := again) hcarried.clean hcarried.apart hfound
      (List.ne_nil_of_mem hid) rfl ?_⟩
    -- every session that is found is one of the log, so it can be read
    intro id hid
    obtain ⟨row, hrow, rfl, hmeets⟩ := (Store.mem_conflicts_iff hfound).mp hid
    obtain ⟨-, -, -, -, -, -, session, hsession⟩ := hcarried.meetsTop_cases hyears hrow hmeets
    have hread : once.session? row.id = .ok (some session) :=
      (Store.session?_eq_ok_some_iff hordered).mpr ⟨row, hrow, rfl, hsession⟩
    exact ⟨_, bind_eq_ok.mpr ⟨some session, hread, rfl⟩⟩

/-- Two entries at the top level, an interruption, and an end. -/
def reportDay : Request :=
  { options := {}, base := sampleDay
    text := "8:00 Mail\n9:00 Report\n  9:30 Call (10m)\n11:00 @end" }

theorem run_same_refused_reportDay :
    ∃ count, (run (Request.apply (Store.after meetingWithNotes) reportDay) {} reportDay.base
      reportDay.text).result = .error (.conflicts count) := by
  have hok : (run (Store.after meetingWithNotes) reportDay.options reportDay.base
      reportDay.text).result = .ok { sessions := 3, interruptions := 1 } := by decide +kernel
  exact (run_same_refused meetingWithNotes reportDay (by decide +kernel) rfl hok false).mpr
    (by decide +kernel)

/-- An entry that ends when it starts. -/
def stub : Request :=
  { options := {}, base := sampleDay, text := "9:00 Stub\n9:00 @end" }

/-- The import of a log is not always refused the second time: a log whose only entry takes no
time overlaps nothing, itself included. -/
theorem run_same_stub :
    ¬ ∀ (operations : List Store.Operation) (r : Request) (summary : Summary),
      r.options.dryRun = false → r.spans ≠ [] →
      (run (Store.after operations) r.options r.base r.text).result = .ok summary →
      ∃ refusal, (run (Request.apply (Store.after operations) r) {} r.base r.text).result =
        .error refusal := by
  intro hall
  have honce : (run (Store.after []) stub.options stub.base stub.text).result =
      .ok { sessions := 1 } := by decide +kernel
  have htwice : (run (Request.apply (Store.after []) stub) {} stub.base stub.text).result =
      .ok { sessions := 1 } := by decide +kernel
  obtain ⟨refusal, hrefused⟩ := hall [] stub _ rfl (by decide +kernel) honce
  rw [htwice] at hrefused
  simp at hrefused

/-- A log that ends beyond the year 9999 is not refused either, since the store misses what it
has of the log. -/
theorem run_same_newYearShift :
    (run (Request.apply Store.empty newYearShift) {} newYearShift.base
      newYearShift.text).result = .ok { sessions := 1 } := by
  decide +kernel

/-! ## A second import that may overwrite -/

namespace Carried

theorem parents (h : Carried store r ids resolved after) :
    resolved.map Span.parent = r.spans.map Span.parent := by
  have hparents := congrArg (List.map fun frame => frame.2.2.2) h.frames
  simpa [Function.comp_def, Timeline.frame] using hparents

/-- After the import of a log whose entries at the top level take time, what overlaps the log is
the sessions of these entries. -/
theorem conflicts_eq (h : Carried store r ids resolved after)
    (hyears : ∀ s ∈ r.spans, IsWithinYears s.start s.stop)
    (htime : ∀ s ∈ r.spans, s.parent = none → ∀ t ∈ s.stop, s.start < t) :
    after.conflicts r.spans = .ok (topNumbers store.lastId r.spans) := by
  obtain ⟨found, hfound, hmem⟩ := h.exists_conflicts fun s hs _ => hyears s hs
  have hsame : found = topNumbers store.lastId r.spans := by
    refine eq_of_pairwise_of_mem_iff (fun _ _ => Int.lt_asymm) (Store.conflicts_increasing hfound)
      (Store.topNumbers_increasing _ _) fun id => ?_
    rw [hmem, Store.mem_topNumbers_iff]
    constructor
    · rintro ⟨k, s, hs, htop, -, hid⟩
      exact ⟨k, s, hs, htop, hid⟩
    · rintro ⟨k, s, hs, htop, hid⟩
      exact ⟨k, s, hs, htop, htime s (List.mem_of_getElem? hs) htop, hid⟩
  rw [hfound, hsame]

section

variable (h : Carried store r ids resolved after) (hs : store.Sound) (hl : store.LinksBack)
include h hs hl

/-- The links to sessions of the log can be named, since they are the log's own. -/
theorem exists_lostLinks (hyears : ∀ s ∈ r.spans, IsWithinYears s.start s.stop) :
    ∃ notice, lostLinks after (topNumbers store.lastId r.spans) = .ok notice := by
  have hread : ∀ id ∈ topNumbers store.lastId r.spans, ∀ row ∈ after.rows,
      row.continues = some id.value → ∃ session, row.session = .ok session := by
    intro id hid row hrow hlink
    rw [h.rows] at hrow
    rcases List.mem_append.mp hrow with hrow | hrow
    · -- a session that was left goes on with none after it
      have hle := (hl.eraseAll hs.nested ids row hrow _ hlink).1
      have hbound := (hs.nested.ordered.eraseAll ids).bounded row hrow
      have hbeyond := Store.lt_of_mem_topNumbers hid
      rw [Store.lastId_eraseAll] at hbound
      omega
    · obtain ⟨k, s, hk, rfl⟩ := Store.mem_mapIdx_rowAt.mp hrow
      have hbounds := isWithinCalendar_of_frames h.frames
        (fun t ht => (hyears t ht).isWithinCalendar) s (List.mem_of_getElem? hk)
      exact (Store.isKept_rowOf _ (n := Store.sessionOf store.lastId s) hbounds).exists_session
  obtain ⟨sessions, hsessions⟩ := Store.exists_continuationsOf_of_linked hread
  exact ⟨_, bind_eq_ok.mpr ⟨sessions, hsessions, rfl⟩⟩

/-- Without the sessions of the log at the top level, what is left is what the first import left
of the store before it. -/
theorem rows_eraseAll_again (ha : after.Nested) :
    (after.eraseAll (topNumbers store.lastId r.spans)).1.rows = (store.eraseAll ids).1.rows := by
  rw [← Store.topNumbers_congr _ h.parents, ← Store.lastId_eraseAll store ids]
  exact Store.rows_eraseAll_topNumbers h.extends_left (hs.nested.ordered.eraseAll ids)
    (hl.eraseAll hs.nested ids) ha

/-- The sessions of the log can be replaced by themselves under new numbers, unless they cannot
be removed. -/
theorem replace_again (ha : after.Nested)
    (htops : after.AreTop (topNumbers store.lastId r.spans))
    (hshallow : after.goesTooDeep (topNumbers store.lastId r.spans) = false) :
    ∃ last all, after.replace (topNumbers store.lastId r.spans) r.spans =
        .ok (last, { spans := resolved, ids := all, replaced := r.spans.countP Span.isTopLevel }) ∧
      last.rows = (store.eraseAll ids).1.rows ++ resolved.mapIdx (rowAt after.lastId) := by
  have hleft := h.rows_eraseAll_again hs hl ha
  -- the same work is there to go on with
  have hresolve : Timeline.resolve (after.eraseAll (topNumbers store.lastId r.spans)).1.archive
      r.spans = .ok resolved := by
    rw [Store.archive_congr hleft, h.linked]
  obtain ⟨⟨last, all⟩, hstore⟩ := Store.exists_importSpans (isStorable_of_resolve hresolve)
  have hremove : after.removeAll (topNumbers store.lastId r.spans) =
      .ok ((after.eraseAll (topNumbers store.lastId r.spans)).1,
        r.spans.countP Span.isTopLevel) := by
    rw [Store.removeAll_of_shallow hshallow, ← Store.length_topNumbers store.lastId,
      ← htops.count_eraseAll ha]
  refine ⟨last, all, Store.replace_of_steps hremove hresolve hstore, ?_⟩
  rw [(Store.importSpans_ok hstore).1, hleft, Store.lastId_eraseAll]

/-- The rows for the log under later numbers are the rows of the log but for their numbers. -/
theorem sameButNumbers {last : Store}
    (hrows : last.rows = (store.eraseAll ids).1.rows ++ resolved.mapIdx (rowAt after.lastId)) :
    after.SameButNumbers store.lastId last := by
  have hlast := Store.lastId_eraseAll store ids
  rw [h.lastId, ← hlast] at hrows
  rw [← hlast]
  exact Store.sameButNumbers_of_later (hs.nested.eraseAll ids) (hl.eraseAll hs.nested ids)
    h.storable h.extends_left.rows hrows

end

end Carried

/-- When a log was imported whose moments are in years of four digits and whose entries at the
top level take time, what overlaps the log is the sessions of these entries. Its import with the
option to overwrite fails if one of them has an interruption too far below it, and leaves the
store as it was. Otherwise it succeeds, replaces these sessions and no others, and leaves the same
store but for the numbers of the log. -/
theorem run_again (operations : List Store.Operation) (r : Request)
    (hyears : ∀ s ∈ r.spans, IsWithinYears s.start s.stop)
    (htime : ∀ s ∈ r.spans, s.parent = none → ∀ t ∈ s.stop, s.start < t)
    (hdry : r.options.dryRun = false) {summary : Summary}
    (hok : (run (Store.after operations) r.options r.base r.text).result = .ok summary) :
    let before := Store.after operations
    let once := Request.apply before r
    let again : Request := { r with options := { overwrite := true } }
    let result := (run once again.options again.base again.text).result
    let tops := topNumbers before.lastId r.spans
    once.conflicts r.spans = .ok tops ∧
      ((∃ id ∈ tops, ∃ row ∈ once.rows, once.IsBeyond id.value row) →
        result = .error (.storing .tooDeep) ∧ Request.apply once again = once) ∧
      ((∀ id ∈ tops, ∀ row ∈ once.rows, ¬ once.IsBeyond id.value row) →
        result = .ok { summary with replaced := r.spans.countP Span.isTopLevel } ∧
          once.SameButNumbers before.lastId (Request.apply once again)) := by
  intro before once again result tops
  obtain ⟨ids, resolved, h, hsummary⟩ := carried_of_ok hdry hok
  have hs : before.Sound := Store.sound_after operations
  have hl : before.LinksBack := Store.linksBack_after operations
  have honce : once.Nested := (sound_apply hs r).nested
  have hfound : once.conflicts r.spans = .ok tops := h.conflicts_eq hyears htime
  have htops : once.AreTop tops := Store.areTop_conflicts hfound
  obtain ⟨hresult, hstore⟩ := run_eq_carryOut (r := again) h.clean h.apart hfound (.inr rfl)
    (h.exists_lostLinks hs hl hyears) rfl
  have hdeep := htops.goesTooDeep_iff honce
  refine ⟨hfound, ?_, ?_⟩
  · intro hbeyond
    have hreplace : once.replace tops r.spans = .error .tooDeep := by
      rw [Store.replace, Store.removeAll_of_deep (hdeep.mpr hbeyond)]
      rfl
    obtain ⟨hfailed, hsame⟩ := carryOut_of_error hreplace
    exact ⟨hresult.trans hfailed, hstore.trans hsame⟩
  · intro hbeyond
    have hshallow : once.goesTooDeep tops = false := by
      cases hcase : once.goesTooDeep tops with
      | false => rfl
      | true =>
        obtain ⟨id, hid, row, hrow, hfar⟩ := hdeep.mp hcase
        exact absurd hfar (hbeyond id hid row hrow)
    obtain ⟨last, all, hreplace, hrows⟩ := h.replace_again hs hl honce htops hshallow
    obtain ⟨hdone, hlast⟩ := carryOut_of_ok hreplace
    rw [hsummary]
    refine ⟨hresult.trans hdone, ?_⟩
    rw [hstore.trans hlast]
    exact h.sameButNumbers hs hl hrows

/-- A log with at most 1000 entries is replaced by itself. -/
theorem run_again_of_short (operations : List Store.Operation) (r : Request)
    (hyears : ∀ s ∈ r.spans, IsWithinYears s.start s.stop)
    (htime : ∀ s ∈ r.spans, s.parent = none → ∀ t ∈ s.stop, s.start < t)
    (hshort : r.spans.length ≤ Store.levelLimit + 1)
    (hdry : r.options.dryRun = false) {summary : Summary}
    (hok : (run (Store.after operations) r.options r.base r.text).result = .ok summary) :
    let before := Store.after operations
    let once := Request.apply before r
    let again : Request := { r with options := { overwrite := true } }
    (run once again.options again.base again.text).result =
        .ok { summary with replaced := r.spans.countP Span.isTopLevel } ∧
      once.SameButNumbers before.lastId (Request.apply once again) := by
  intro before once again
  obtain ⟨-, -, hreplaced⟩ := run_again operations r hyears htime hdry hok
  apply hreplaced
  intro id hid row hrow
  obtain ⟨ids, resolved, h, -⟩ := carried_of_ok hdry hok
  have hs : before.Sound := Store.sound_after operations
  rw [← Store.topNumbers_congr _ h.parents, ← Store.lastId_eraseAll before ids] at hid
  rw [← Timeline.length_resolve h.linked] at hshort
  exact h.extends_left.not_isBeyond (hs.nested.ordered.eraseAll ids) (sound_apply hs r).nested
    hshort hid hrow

/-- The mail and the report are replaced, and the call with the report. -/
theorem run_again_of_short_reportDay :
    let once := Request.apply (Store.after meetingWithNotes) reportDay
    let again : Request := { reportDay with options := { overwrite := true } }
    (run once again.options again.base again.text).result =
        .ok { sessions := 3, interruptions := 1, replaced := 2 } ∧
      once.SameButNumbers 3 (Request.apply once again) := by
  have hok : (run (Store.after meetingWithNotes) reportDay.options reportDay.base
      reportDay.text).result = .ok { sessions := 3, interruptions := 1 } := by decide +kernel
  have hagain := run_again_of_short meetingWithNotes reportDay (by decide +kernel)
    (by decide +kernel) (by decide +kernel) rfl hok
  have htops : reportDay.spans.countP Span.isTopLevel = 2 := by decide +kernel
  rw [htops] at hagain
  exact hagain

end Daybook.Import
