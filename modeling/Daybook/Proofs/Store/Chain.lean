import Daybook.Proofs.Store.Admission
import Daybook.Proofs.Timeline.Links

/-!
# The start of a chain

In a store whose links are all to the starts of chains, work to go on with is found at the start
of its chain: the session that the archive answers with is paused and has no link.

* `Store.answers_archive` : what the archive of such a store answers with.
* `Store.Chained.importSpans` : storing spans keeps all links to the starts of chains.
-/

namespace Daybook.Store

variable {store : Store} {r : Row} {session : Session}

/-! ## Following links -/

/-- The session is stored, paused, and goes on with no other. -/
def IsStart (store : Store) (id : SessionId) : Prop :=
  ∃ r ∈ store.rows, r.id = id ∧ r.state = State.paused.word ∧ r.continues = none

theorem chainFrom_of_unlinked (fuel : Nat) (visited : List SessionId)
    (h : session.continues = none) : store.chainFrom fuel visited session = .ok session := by
  cases fuel with
  | zero => rfl
  | succ fuel => rw [chainFrom, h]

/-- A row of the store is found as a session. -/
theorem session?_ok (ho : store.Ordered) (hr : r ∈ store.rows) {found : Option Session}
    (h : store.session? r.id = .ok found) : ∃ t, r.session = .ok t ∧ found = some t := by
  unfold session? at h
  rw [ho.row?_eq_some hr] at h
  obtain ⟨t, ht, h⟩ := bind_eq_ok.mp h
  exact ⟨t, ht, (Except.ok.inj h).symm⟩

/-- The chain of a paused session starts at a session without a link. -/
theorem isStart_of_chainRoot (ho : store.Ordered) (hc : store.Chained) (hr : r ∈ store.rows)
    (hpaused : r.state = State.paused.word) {root : Option Session}
    (h : store.chainRoot r.id = .ok root) : ∃ t, root = some t ∧ store.IsStart t.id := by
  obtain ⟨found, hfound, h⟩ := bind_eq_ok.mp h
  obtain ⟨current, hcurrent, rfl⟩ := session?_ok ho hr hfound
  -- a chain has at most one link here, so one step leads to its start
  obtain ⟨last, hlast, h⟩ := bind_eq_ok.mp h
  obtain rfl := Except.ok.inj h
  refine ⟨last, rfl, ?_⟩
  obtain ⟨hid, hlink, -⟩ := session_ok hcurrent
  cases hnext : current.continues with
  | none =>
    rw [chainFrom_of_unlinked _ _ hnext] at hlast
    obtain rfl := Except.ok.inj hlast
    rw [hnext] at hlink
    exact ⟨r, hr, hid.symm, hpaused, hlink.symm⟩
  | some previous =>
    rw [hnext] at hlink
    obtain ⟨t, ht, htid, hlt, htpaused, htnone⟩ := hc r hr previous.value hlink.symm
    -- the target comes before the session, so it was not visited
    have hnew : previous ∉ [current.id] := by
      rw [List.mem_singleton, hid]
      rintro rfl
      exact absurd hlt (Int.lt_irrefl _)
    obtain ⟨fuel, hfuel⟩ : ∃ fuel, store.rows.length = fuel + 1 :=
      Nat.exists_eq_add_one.mpr (List.length_pos_of_mem hr)
    rw [hfuel, chainFrom, hnext] at hlast
    simp only [if_neg hnew] at hlast
    obtain ⟨found, hfound, hlast⟩ := bind_eq_ok.mp hlast
    obtain rfl : previous = t.id := SessionId.ext htid.symm
    obtain ⟨target, htarget, rfl⟩ := session?_ok ho ht hfound
    obtain ⟨htid', htlink, -⟩ := session_ok htarget
    have hunlinked : target.continues = none := by
      rw [htnone] at htlink
      simpa using htlink
    simp only [chainFrom_of_unlinked _ _ hunlinked] at hlast
    obtain rfl := Except.ok.inj hlast
    exact ⟨t, ht, htid'.symm, htpaused, htnone⟩

/-- A session that is found is stored. -/
theorem isStored_of_session? {id : SessionId} (h : store.session? id = .ok (some session)) :
    store.IsStored session.id := by
  unfold session? at h
  split at h
  · simp at h
  · next r hr =>
    obtain ⟨t, ht, h⟩ := bind_eq_ok.mp h
    obtain rfl := Option.some.inj (Except.ok.inj h)
    exact ⟨r, List.mem_of_find?_eq_some hr, (session_ok ht).1.symm⟩

/-! ## The archive -/

theorem latestPaused_ok {f : Filter} (h : store.latestPaused f = .ok (some session)) :
    ∃ r ∈ store.rows, r.state = State.paused.word ∧ r.session = .ok session := by
  unfold latestPaused at h
  simp only at h
  split at h
  · simp at h
  · next r hlast =>
    obtain ⟨t, ht, h⟩ := bind_eq_ok.mp h
    obtain rfl := Option.some.inj (Except.ok.inj h)
    obtain ⟨hr, hchosen⟩ := List.mem_filter.mp (mem_of_getLast?_byStart hlast)
    refine ⟨r, hr, ?_, ht⟩
    simp only [Bool.and_eq_true, beq_iff_eq] at hchosen
    exact hchosen.1

/-- The archive answers with sessions that are paused and go on with no other. -/
theorem answers_archive (ho : store.Ordered) (hc : store.Chained) :
    Timeline.Answers store.archive store.IsStart := by
  intro f work h
  rcases Timeline.pausedInArchive_ok_cases h with
    ⟨-, hnone⟩ | ⟨session, root, hlatest, hroot, hfound⟩
  · simp at hnone
  · obtain rfl := Option.some.inj hfound
    obtain ⟨r, hr, hpaused, hsession⟩ := latestPaused_ok hlatest
    have hroot' : store.chainRoot r.id = .ok root := by
      rw [← (session_ok hsession).1]
      exact hroot
    obtain ⟨t, rfl, hstart⟩ := isStart_of_chainRoot ho hc hr hpaused hroot'
    exact ⟨t.id, rfl, hstart⟩

/-- A chain ends at a stored session. -/
theorem isStored_of_chainFrom {fuel : Nat} {visited : List SessionId} {last : Session}
    (hstored : store.IsStored session.id)
    (h : store.chainFrom fuel visited session = .ok last) : store.IsStored last.id := by
  induction fuel generalizing visited session with
  | zero =>
    obtain rfl := Except.ok.inj h
    exact hstored
  | succ fuel ih =>
    unfold chainFrom at h
    split at h
    · obtain rfl := Except.ok.inj h
      exact hstored
    · split at h
      · obtain rfl := Except.ok.inj h
        exact hstored
      · obtain ⟨found, hfound, h⟩ := bind_eq_ok.mp h
        cases found with
        | none =>
          obtain rfl := Except.ok.inj h
          exact hstored
        | some next => exact ih (isStored_of_session? hfound) h

theorem isStored_of_chainRoot {id : SessionId} {last : Session}
    (h : store.chainRoot id = .ok (some last)) : store.IsStored last.id := by
  obtain ⟨found, hfound, h⟩ := bind_eq_ok.mp h
  cases found with
  | none => simp at h
  | some current =>
    obtain ⟨last', hlast, h⟩ := bind_eq_ok.mp h
    obtain rfl := Option.some.inj (Except.ok.inj h)
    exact isStored_of_chainFrom (isStored_of_session? hfound) hlast

/-- Whatever the links are, the archive answers with stored sessions. -/
theorem answers_isStored (store : Store) : Timeline.Answers store.archive store.IsStored := by
  intro f work h
  rcases Timeline.pausedInArchive_ok_cases h with
    ⟨-, hnone⟩ | ⟨session, root, hlatest, hroot, hfound⟩
  · simp at hnone
  · obtain rfl := Option.some.inj hfound
    obtain ⟨r, hr, -, hsession⟩ := latestPaused_ok hlatest
    cases root with
    | none => exact ⟨session.id, rfl, r, hr, (session_ok hsession).1.symm⟩
    | some last => exact ⟨last.id, rfl, isStored_of_chainRoot hroot⟩

/-! ## Storing spans -/

/-- Spans whose links are to the starts of chains are stored so that all links are. -/
theorem Chained.importSpans (ho : store.Ordered) (hc : store.Chained) {spans : List Span}
    (hlinked : Timeline.Linked Timeline.IsPausedStart store.IsStart spans) {after : Store}
    {all : List SessionId} (h : store.importSpans spans = .ok (after, all)) : after.Chained := by
  obtain ⟨hrows, -⟩ := importSpans_ok h
  intro r hr v hv
  rw [hrows] at hr ⊢
  rcases List.mem_append.mp hr with hr | hr
  · obtain ⟨t, ht, htarget⟩ := hc r hr v hv
    exact ⟨t, List.mem_append_left _ ht, htarget⟩
  · obtain ⟨k, s, hs, rfl⟩ := mem_mapIdx_rowAt.mp hr
    obtain ⟨id, hid, rfl⟩ := Option.map_eq_some_iff.mp hv
    obtain ⟨link, hlink, rfl⟩ := Option.map_eq_some_iff.mp hid
    have hnumber : (rowAt store.lastId k s).id.value = store.lastId + k + 1 := rfl
    cases link with
    | session id =>
      -- a stored session: its number was given out before
      obtain ⟨t, ht, rfl, hpaused, hnone⟩ := hlinked k s hs _ hlink
      have hle := ho.bounded t ht
      refine ⟨t, List.mem_append_left _ ht, rfl, ?_, hpaused, hnone⟩
      rw [linkNumber, hnumber]
      omega
    | entry target =>
      -- a span of the log: its row stands earlier among the new ones
      obtain ⟨hlt, u, hu, hpaused, hnone⟩ := hlinked.target hs hlink
      have hmem : rowAt store.lastId target u ∈ spans.mapIdx (rowAt store.lastId) :=
        mem_mapIdx_rowAt.mpr ⟨target, u, hu, rfl⟩
      refine ⟨rowAt store.lastId target u, List.mem_append_right _ hmem, rfl, ?_, ?_, ?_⟩
      · show (store.lastId + target + 1 : Int) < store.lastId + k + 1
        omega
      · rw [rowAt, rowOf, sessionOf, hpaused]
      · simp only [rowAt, rowOf, sessionOf, hnone, Option.map_none]

end Daybook.Store
