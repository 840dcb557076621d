import Daybook.Proofs.Store.ChainEnd
import Daybook.Proofs.Store.Reading
import Daybook.Proofs.Timeline.Passes

/-!
# Questions that have an answer

A store whose rows can be read answers every question that is put to it: nothing that it keeps
can make one fail.

* `Store.answering_archive` : work to go on with is looked up without a failure.
* `Store.exists_conflicts` : so are the sessions that overlap a log.
-/

namespace Daybook

variable {r : Row}

theorem Row.IsKept.exists_session (h : r.IsKept) : ∃ session, r.session = .ok session := by
  obtain ⟨session, hbounds, rfl⟩ := h
  exact ⟨session, Store.session_row hbounds⟩

theorem Row.IsKept.exists_state (h : r.IsKept) :
    ∃ state, checked (State.ofWord r.state) = .ok state := by
  obtain ⟨session, -, rfl⟩ := h
  exact ⟨session.state, Store.checked_ofWord_word session.state⟩

namespace Store

variable {s : Store}

/-! ## Single sessions -/

theorem Readable.legible (h : s.Readable) : s.Legible :=
  fun r hr => (h r hr).exists_session

theorem exists_state? (h : s.Readable) (id : SessionId) : ∃ found, s.state? id = .ok found := by
  unfold state?
  split
  · exact ⟨none, rfl⟩
  · next r hr =>
    obtain ⟨state, hstate⟩ := (h r (List.mem_of_find?_eq_some hr)).exists_state
    exact ⟨some state, bind_eq_ok.mpr ⟨state, hstate, rfl⟩⟩

/-! ## Lists of sessions -/

/-- Sessions are chosen without a failure when every chosen row can be read. -/
theorem exists_select_of_chosen {choose : Row → Bool}
    (h : ∀ r ∈ s.rows, choose r = true → ∃ session, r.session = .ok session) :
    ∃ sessions, s.select choose = .ok sessions := by
  apply exists_mapM_ok
  intro r hr
  obtain ⟨hmem, hchoose⟩ := List.mem_filter.mp (mem_byStart_iff.mp hr)
  exact h r hmem hchoose

theorem exists_select (h : s.Readable) (choose : Row → Bool) :
    ∃ sessions, s.select choose = .ok sessions :=
  exists_select_of_chosen fun r hr _ => h.legible r hr

theorem exists_conflicts (h : s.Readable) (spans : List Span) :
    ∃ ids, s.conflicts spans = .ok ids := by
  have hall : ∃ found, ((spans.filter Span.isTopLevel).mapM fun span =>
      s.overlapping span.start span.stop) = .ok found :=
    exists_mapM_ok fun _ _ => exists_select h _
  obtain ⟨found, hfound⟩ := hall
  exact ⟨_, bind_eq_ok.mpr ⟨found, hfound, rfl⟩⟩

/-- Sessions that go on with others are found when every one of them can be read. -/
theorem exists_continuationsOf_of_linked {ids : List SessionId}
    (h : ∀ id ∈ ids, ∀ r ∈ s.rows, r.continues = some id.value →
      ∃ session, r.session = .ok session) :
    ∃ sessions, s.continuationsOf ids = .ok sessions := by
  have hall : ∃ found, (ids.mapM fun id => s.select fun r => r.continues = some id.value) =
      .ok found :=
    exists_mapM_ok fun id hid => exists_select_of_chosen fun r hr hlink =>
      h id hid r hr (of_decide_eq_true hlink)
  obtain ⟨found, hfound⟩ := hall
  exact ⟨_, bind_eq_ok.mpr ⟨found, hfound, rfl⟩⟩

theorem exists_continuationsOf (h : s.Readable) (ids : List SessionId) :
    ∃ sessions, s.continuationsOf ids = .ok sessions :=
  exists_continuationsOf_of_linked fun _ _ r hr _ => h.legible r hr

/-! ## Work to go on with -/

theorem exists_latestPaused (h : s.Legible) (f : Filter) :
    ∃ found, s.latestPaused f = .ok found := by
  unfold latestPaused
  simp only
  split
  · exact ⟨none, rfl⟩
  · next r hlast =>
    have hmem := mem_of_getLast?_byStart hlast
    obtain ⟨session, hsession⟩ := h r (List.mem_filter.mp hmem).1
    exact ⟨some session, bind_eq_ok.mpr ⟨session, hsession, rfl⟩⟩

theorem Legible.answering_archive (h : s.Legible) : Timeline.Answering s.archive where
  latest := exists_latestPaused h
  root := exists_chainRoot h

/-- Every question for work to go on with is answered. -/
theorem answering_archive (h : s.Readable) : Timeline.Answering s.archive :=
  h.legible.answering_archive

end Store

end Daybook
