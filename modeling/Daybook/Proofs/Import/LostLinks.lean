import Daybook.Proofs.Import.Refusal
import Daybook.Proofs.Store.Conflicts

/-!
# Links that an import clears

Before an import replaces sessions, it names sessions that go on with one of them, as those
whose link will be cleared. It does not look at what goes with the replaced sessions. So it names
a session that goes itself as an interruption of a replaced one, and it is silent about a session
that goes on with such an interruption. Where replaced sessions have no interruptions, the
sessions that are named are those whose link is cleared.

* `run_lostLinks` : the sessions that are named, and those whose link is cleared.
-/

namespace Daybook

namespace Store

variable {s : Store}

/-! ## Sessions that are named -/

/-- The sessions that are named are those outside the list whose link names one of the list. -/
theorem exists_mem_continuationsOf_iff {ids : List SessionId} {sessions : List Session}
    (h : s.continuationsOf ids = .ok sessions) (id : SessionId) :
    (∃ session ∈ sessions, session.id = id) ↔
      id ∉ ids ∧ ∃ r ∈ s.rows, r.id = id ∧ ∃ target ∈ ids, r.continues = some target.value := by
  obtain ⟨found, hfound, h⟩ := bind_eq_ok.mp h
  obtain rfl := Except.ok.inj h
  constructor
  · rintro ⟨session, hsession, rfl⟩
    obtain ⟨hmem, houtside⟩ := List.mem_filter.mp hsession
    obtain ⟨part, hpart, hsession⟩ := List.mem_flatten.mp hmem
    obtain ⟨target, htarget, hselect⟩ := exists_of_mem_mapM_ok hfound part hpart
    obtain ⟨r, hr, hlink, hid⟩ :=
      (exists_mem_select_iff hselect).mp ⟨session, hsession, rfl⟩
    exact ⟨by simpa using houtside, r, hr, hid, target, htarget, by simpa using hlink⟩
  · rintro ⟨houtside, r, hr, rfl, target, htarget, hlink⟩
    obtain ⟨part, hpart, hselect⟩ := exists_of_mapM_ok hfound target htarget
    obtain ⟨session, hsession, hid⟩ :=
      (exists_mem_select_iff hselect).mpr ⟨r, hr, by simpa using hlink, rfl⟩
    refine ⟨session, List.mem_filter.mpr ⟨List.mem_flatten.mpr ⟨part, hpart, hsession⟩, ?_⟩, hid⟩
    simpa [hid] using houtside

/-! ## Links that are cleared -/

/-- The session is stored before and after, with a link before and without one after. -/
def ClearsLink (before after : Store) (id : SessionId) : Prop :=
  ∃ old ∈ before.rows, ∃ new ∈ after.rows,
    old.id = id ∧ new.id = id ∧ old.continues ≠ none ∧ new.continues = none

end Store

namespace Import

open Store (ClearsLink)

/-- Replacing sessions clears the links of those that stay and go on with one that goes. -/
theorem clearsLink_iff {before after : Store} {ids : List SessionId} {spans : List Span}
    (hordered : before.Ordered) (h : Replaces before ids spans after) (id : SessionId) :
    ClearsLink before after id ↔
      ∃ r ∈ before.rows, r.id = id ∧ ¬ before.Taken ids r ∧ before.Loses ids r := by
  constructor
  · rintro ⟨old, hold, new, hnew, rfl, hid, hsome, hnone⟩
    rcases (h.rows new).mp hnew with ⟨origin, horigin, hleft⟩ | ⟨k, s, -, rfl⟩
    · -- what is left under the number is left of the session itself
      obtain rfl : origin = old := by
        apply hordered.eq_of_id horigin hold
        rw [← hid, hleft.id_eq]
      refine ⟨origin, hold, rfl, hleft.stays, ?_⟩
      by_cases hloses : before.Loses ids origin
      · exact hloses
      · exact absurd ((hleft.kept hloses).symm.trans hnone) hsome
    · -- a number that is given out now was never given out before
      have hle := hordered.bounded old hold
      rw [← hid] at hle
      have hnumber : (sessionAt before.lastId k s).row.id.value = before.lastId + k + 1 := rfl
      omega
  · rintro ⟨r, hr, rfl, hstays, hloses⟩
    obtain ⟨new, hleft⟩ := Store.exists_leftOf hstays
    have hnew := (h.rows new).mpr (.inl ⟨r, hr, hleft⟩)
    refine ⟨r, hr, new, hnew, rfl, hleft.id_eq, ?_, hleft.cleared hloses⟩
    obtain ⟨t, -, -, hlink⟩ := hloses
    rw [hlink]
    exact Option.some_ne_none _

/-- When an import that may overwrite succeeds, the sessions that it named are those outside the
replaced ones with a link to a replaced one. The links that it cleared are those to any session
that went, of any session that stayed. The two are the same where nothing but the replaced
sessions went. -/
theorem run_lostLinks (requests : List Request)
    (hrequests : ∀ q ∈ requests, ∀ s ∈ q.spans, IsWithinCalendar s.start s.stop)
    (r : Request) (hdry : r.options.dryRun = false) (hspans : r.spans ≠ []) {summary : Summary}
    (hok : (run (reached requests) r.options r.base r.text).result = .ok summary) :
    ∃ conflicts named,
      (reached requests).conflicts r.spans = .ok conflicts ∧
      (reached requests).continuationsOf conflicts = .ok named ∧
      (∀ id, (∃ session ∈ named, session.id = id) ↔
        id ∉ conflicts ∧ ∃ row ∈ (reached requests).rows, row.id = id ∧
          ∃ target ∈ conflicts, row.continues = some target.value) ∧
      (∀ id, ClearsLink (reached requests) (Request.apply (reached requests) r) id ↔
        ∃ row ∈ (reached requests).rows, row.id = id ∧ ¬ (reached requests).Taken conflicts row ∧
          (reached requests).Loses conflicts row) ∧
      ((∀ row ∈ (reached requests).rows,
          (reached requests).Taken conflicts row → row.id ∈ conflicts) →
        ∀ id, (∃ session ∈ named, session.id = id) ↔
          ClearsLink (reached requests) (Request.apply (reached requests) r) id) := by
  obtain ⟨operations, hoperations⟩ := exists_operations requests
  have hreadable := readable_reached hrequests
  have hsound := sound_reached requests
  rw [hoperations] at hok
  obtain ⟨conflicts, resolved, hfound, -, -, hreplaces, -, -⟩ :=
    run_effect operations r hdry hspans hok
  rw [← hoperations] at hfound hreplaces
  obtain ⟨named, hnamed⟩ := Store.exists_continuationsOf hreadable conflicts
  have hnames := Store.exists_mem_continuationsOf_iff hnamed
  have hclears := clearsLink_iff hsound.nested.ordered hreplaces
  refine ⟨conflicts, named, hfound, hnamed, hnames, hclears, ?_⟩
  intro halone id
  rw [hnames, hclears]
  constructor
  · rintro ⟨houtside, row, hrow, rfl, target, htarget, hlink⟩
    -- the session that a link names is stored
    obtain ⟨t, ht, hid, -⟩ := (linked_reached requests).2 row hrow _ hlink
    have htaken : (reached requests).Taken conflicts t := .inl (SessionId.ext hid ▸ htarget)
    refine ⟨row, hrow, rfl, fun hgone => houtside (halone row hrow hgone), t, ht, htaken, ?_⟩
    rw [hlink, hid]
  · -- where nothing else went, a link to what went is a link to one of the list
    rintro ⟨row, hrow, rfl, hstays, t, ht, htaken, hlink⟩
    exact ⟨fun hmem => hstays (.inl hmem), row, hrow, rfl, t.id, halone t ht htaken, hlink⟩

/-- A pause inside other work, which the next day goes on with. -/
def pausedInside : List Request :=
  [{ options := {}, base := sampleDay, text := "9:00 Top\n  9:10 Child\n  9:20 @pause\n10:00 @end" },
    { options := {}, base := sampleDay, text := "2024-03-02 8:00 @resume\n9:00 @end" }]

/-- Other work in the place of the work around the pause. -/
def otherInstead : Request :=
  { options := { overwrite := true }, base := sampleDay, text := "9:30 Other\n9:45 @end" }

/-- Nobody is named, and the third session loses its link to the second, which went with the
first. -/
theorem lostLinks_silent :
    (lostLinks (reached pausedInside) [⟨1, by decide⟩]).toOption = some "" ∧
      (reached pausedInside).conflicts otherInstead.spans = .ok [⟨1, by decide⟩] ∧
      (reached pausedInside).rows.map (fun row => (row.id.value, row.continues)) =
        [(1, none), (2, none), (3, some 2)] ∧
      (Request.apply (reached pausedInside) otherInstead).rows.map
        (fun row => (row.id.value, row.continues)) = [(3, none), (4, none)] := by
  decide +kernel

/-- Work that is gone on with inside itself, and paused in the end. -/
def resumedInside : List Request :=
  [{ options := {}, base := sampleDay
     text := "9:00 Top\n  9:10 @resume\n  9:20 @end\n10:00 @pause" }]

/-- The second session is named, and it goes with the first. -/
theorem lostLinks_superfluous :
    ((reached resumedInside).continuationsOf [⟨1, by decide⟩]).toOption.map
        (List.map fun session => session.id.value) = some [2] ∧
      (reached resumedInside).conflicts otherInstead.spans = .ok [⟨1, by decide⟩] ∧
      (Request.apply (reached resumedInside) otherInstead).rows.map (fun row => row.id.value) =
        [3] := by
  decide +kernel

end Import

end Daybook
