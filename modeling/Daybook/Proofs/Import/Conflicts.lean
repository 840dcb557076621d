import Daybook.Proofs.Import.Overlap
import Daybook.Proofs.Store.Conflicts

/-!
# What stands in the way of a log

Before an import, the store is asked which of its sessions overlap the log. It compares texts
with texts, and the order of texts is that of the moments they denote as long as all years have
four digits. There the answer is the one that comparing moments gives; the text of the first
moment of the year 10000 is already before all of theirs.

* `reached_conflicts` : the sessions that are found.
* `reached_conflicts_newYear` : a session that is missed.
-/

namespace Daybook.Import

/-- When all logs are in years of four digits, the sessions that are found to overlap a log are
those stored at the top level that overlap one of its spans at the top level. They are found in
the order of their numbers, each once. -/
theorem reached_conflicts (requests : List Request)
    (hyears : ∀ q ∈ requests, ∀ s ∈ q.spans, IsWithinYears s.start s.stop) (r : Request)
    (hlog : ∀ s ∈ r.spans, IsWithinYears s.start s.stop) :
    ∃ ids, (reached requests).conflicts r.spans = .ok ids ∧ ids.Pairwise (· < ·) ∧
      ∀ id, id ∈ ids ↔
        ∃ session, (reached requests).session? id = .ok (some session) ∧ session.parent = none ∧
          ∃ s ∈ r.spans, s.parent = none ∧
            overlaps s.start s.stop session.start session.stop = true := by
  obtain ⟨hordered, -, hapart⟩ := apart_reached hyears
  have hread : ∀ row ∈ (reached requests).rows, Store.MeetsTop row r.spans →
      ∃ session, row.session = .ok session := by
    intro row hrow _
    obtain ⟨session, hsession, -⟩ :=
      Store.exists_session_of_isWritten (hapart.written row hrow) hlog
    exact ⟨session, hsession⟩
  obtain ⟨ids, hids⟩ := Store.exists_conflicts_of_met hread
  exact ⟨ids, hids, Store.conflicts_increasing hids, fun id =>
    Store.mem_conflicts_iff_overlaps hordered hapart.written hlog hids⟩

/-- A log of which one entry overlaps the review and the call that interrupted it. -/
def lunchTalk : Request :=
  { options := {}, base := sampleDay, text := "10:20 Talk\n10:40 @end\n12:00 Lunch (30m)" }

/-- The review is found, and neither the call nor the mail. -/
theorem reached_conflicts_lunchTalk :
    ∃ ids, (reached replacedMorning).conflicts lunchTalk.spans = .ok ids ∧
      ids.map SessionId.value = [3] ∧ ids.Pairwise (· < ·) := by
  obtain ⟨ids, hids, hincreasing, -⟩ :=
    reached_conflicts replacedMorning (by decide +kernel) lunchTalk (by decide +kernel)
  have hfound : ((reached replacedMorning).conflicts lunchTalk.spans).toOption.map
      (List.map SessionId.value) = some [3] := by decide +kernel
  rw [hids] at hfound
  exact ⟨ids, hids, Option.some.inj hfound, hincreasing⟩

/-! ## Beyond the year 9999 -/

/-- Two hours that end in the year 10000. -/
def newYearShift : Request :=
  { options := {}, base := sampleDay, text := "9999-12-31 23:00 Shift (2h)" }

/-- A call during these hours. -/
def newYearCall : Request :=
  { options := {}, base := sampleDay, text := "9999-12-31 23:30 Call (15m)" }

/-- The shift is stored and overlaps the call, and it is not found. -/
theorem reached_conflicts_newYear :
    (reached [newYearShift]).conflicts newYearCall.spans = .ok [] ∧
      ∃ id session, (reached [newYearShift]).session? id = .ok (some session) ∧
        session.parent = none ∧
        ∃ s ∈ newYearCall.spans, s.parent = none ∧
          overlaps s.start s.stop session.start session.stop = true := by
  have hmissed : ∃ session ∈ ((reached [newYearShift]).session? ⟨1, Int.zero_lt_one⟩).toOption.join,
      session.parent = none ∧ ∃ s ∈ newYearCall.spans, s.parent = none ∧
        overlaps s.start s.stop session.start session.stop = true := by
    decide +kernel
  refine ⟨by decide +kernel, ⟨1, Int.zero_lt_one⟩, ?_⟩
  generalize (reached [newYearShift]).session? ⟨1, Int.zero_lt_one⟩ = found at hmissed ⊢
  obtain ⟨session, hsession, hoverlap⟩ := hmissed
  cases found with
  | error cause => simp [Except.toOption] at hsession
  | ok found =>
    obtain rfl : found = some session := by simpa [Except.toOption] using hsession
    exact ⟨session, rfl, hoverlap⟩

end Daybook.Import
