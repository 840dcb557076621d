import Daybook.Proofs.Distinct
import Daybook.Proofs.Store.Cascade
import Daybook.Proofs.Store.Overlap
import Daybook.Proofs.Store.Questions

/-!
# Conflicts

The sessions that stand in the way of a log are those at the top level that overlap one of its
spans at the top level. The store finds them by comparing texts, each once and in the order of
their numbers. As long as all moments are in years of four digits, it finds what overlaps.

* `Store.mem_conflicts_iff` : which sessions are found.
* `Store.exists_conflicts_of_met` : the search fails only at a session that it finds.
* `Store.mem_conflicts_iff_overlaps` : in years of four digits, what is found is what overlaps.
-/

namespace Daybook.Store

variable {s : Store} {spans : List Span} {ids : List SessionId} {id : SessionId} {r : Row}

/-! ## Rows that meet spans -/

/-- The bounds of a row and of a span, compared as texts, overlap. -/
def rowMeets (r : Row) (span : Span) : Bool :=
  r.stop.all (fun text => decide (storedText span.start < text)) &&
    span.stop.all (fun t => decide (r.start < storedText t))

/-- A row meets a span when it overlaps a row with the bounds of the span. -/
theorem rowMeets_eq_rowsOverlap {span : Span} {n : NewSession} (hstart : n.start = span.start)
    (hstop : n.stop = span.stop) : rowMeets r span = rowsOverlap r (rowOf id n) := by
  rw [rowsOverlap_comm, rowsOverlap, rowOf, hstart, hstop]
  simp only [Option.all_map]
  rfl

/-- A row that was written meets a span when the session that it was written for overlaps the
span. -/
theorem rowMeets_rowOf {n : NewSession} {span : Span} (hn : IsWithinYears n.start n.stop)
    (hspan : IsWithinYears span.start span.stop) :
    rowMeets (rowOf id n) span = overlaps span.start span.stop n.start n.stop := by
  have hbounds : rowMeets (rowOf id n) span =
      rowsOverlap (rowOf id n) (rowOf id { n with start := span.start, stop := span.stop }) :=
    rowMeets_eq_rowsOverlap rfl rfl
  rw [hbounds, rowsOverlap_rowOf hn hspan, overlaps_comm]

/-- When the row for one span meets another, a row with the bounds of the other meets a span with
those of the one. -/
theorem rowMeets_rowAt_comm (lastId lastId' j k : Nat) {a a' b b' : Span}
    (ha : a'.start = a.start ∧ a'.stop = a.stop) (hb : b'.start = b.start ∧ b'.stop = b.stop) :
    rowMeets (rowAt lastId j a) b = rowMeets (rowAt lastId' k b') a' := by
  simp only [rowMeets, rowAt, rowOf, sessionOf, Option.all_map, ha.1, ha.2, hb.1, hb.2]
  exact Bool.and_comm _ _

theorem parent_rowAt_eq_none_iff {lastId k : Nat} {span : Span} :
    (rowAt lastId k span).parent = none ↔ span.parent = none := by
  simp [rowAt, rowOf, sessionOf]

/-- The row is at the top level and meets a span at the top level. -/
def MeetsTop (r : Row) (spans : List Span) : Prop :=
  r.parent = none ∧ ∃ span ∈ spans, span.parent = none ∧ rowMeets r span = true

/-! ## The sessions that are found -/

/-- The sessions that are chosen are those of the rows that are. -/
theorem exists_mem_select_iff {choose : Row → Bool} {sessions : List Session}
    (h : s.select choose = .ok sessions) :
    (∃ session ∈ sessions, session.id = id) ↔ ∃ r ∈ s.rows, choose r = true ∧ r.id = id := by
  constructor
  · rintro ⟨session, hsession, rfl⟩
    obtain ⟨r, hr, hread⟩ := exists_of_mem_mapM_ok h session hsession
    obtain ⟨hmem, hchoose⟩ := List.mem_filter.mp (mem_byStart_iff.mp hr)
    exact ⟨r, hmem, hchoose, (session_ok hread).1.symm⟩
  · rintro ⟨r, hr, hchoose, rfl⟩
    have hmem : r ∈ byStart (s.rows.filter choose) :=
      mem_byStart_iff.mpr (List.mem_filter.mpr ⟨hr, hchoose⟩)
    obtain ⟨session, hsession, hread⟩ := exists_of_mapM_ok h r hmem
    exact ⟨session, hsession, (session_ok hread).1⟩

/-- The rows that are chosen for an interval are those at the top level that meet it. -/
theorem exists_mem_overlapping_iff {span : Span} {sessions : List Session}
    (h : s.overlapping span.start span.stop = .ok sessions) :
    (∃ session ∈ sessions, session.id = id) ↔
      ∃ r ∈ s.rows, r.id = id ∧ r.parent = none ∧ rowMeets r span = true := by
  rw [exists_mem_select_iff h]
  refine exists_congr fun r => and_congr_right fun _ => ?_
  simp only [rowMeets, Bool.and_eq_true, Option.isNone_iff_eq_none, and_assoc]
  constructor
  · rintro ⟨hparent, hstop, hstart, hid⟩
    exact ⟨hid, hparent, hstop, hstart⟩
  · rintro ⟨hid, hparent, hstop, hstart⟩
    exact ⟨hparent, hstop, hstart, hid⟩

/-- The sessions that are found are those at the top level that meet a span at the top level. -/
theorem mem_conflicts_iff (h : s.conflicts spans = .ok ids) :
    id ∈ ids ↔ ∃ r ∈ s.rows, r.id = id ∧ MeetsTop r spans := by
  obtain ⟨found, hfound, h⟩ := bind_eq_ok.mp h
  obtain rfl := Except.ok.inj h
  rw [List.mem_eraseDups, List.mem_mergeSort, List.mem_map]
  constructor
  · rintro ⟨session, hsession, rfl⟩
    obtain ⟨part, hpart, hmem⟩ := List.mem_flatten.mp hsession
    obtain ⟨span, hspan, hread⟩ := exists_of_mem_mapM_ok hfound part hpart
    obtain ⟨hspan, htop⟩ := List.mem_filter.mp hspan
    obtain ⟨r, hr, hid, hparent, hmeets⟩ :=
      (exists_mem_overlapping_iff hread).mp ⟨session, hmem, rfl⟩
    exact ⟨r, hr, hid, hparent, span, hspan, by simpa [Span.isTopLevel] using htop, hmeets⟩
  · rintro ⟨r, hr, rfl, hparent, span, hspan, htop, hmeets⟩
    have hmem : span ∈ spans.filter Span.isTopLevel :=
      List.mem_filter.mpr ⟨hspan, by simp [Span.isTopLevel, htop]⟩
    obtain ⟨part, hpart, hread⟩ := exists_of_mapM_ok hfound span hmem
    obtain ⟨session, hsession, hid⟩ :=
      (exists_mem_overlapping_iff hread).mpr ⟨r, hr, rfl, hparent, hmeets⟩
    exact ⟨session, List.mem_flatten.mpr ⟨part, hpart, hsession⟩, hid⟩

/-- The numbers are found in order, and none of them twice. -/
theorem conflicts_increasing (h : s.conflicts spans = .ok ids) : ids.Pairwise (· < ·) := by
  obtain ⟨found, -, h⟩ := bind_eq_ok.mp h
  obtain rfl := Except.ok.inj h
  generalize found.flatten.map Session.id = all
  have hsorted : (all.mergeSort fun a b => decide (a ≤ b)).Pairwise (· ≤ ·) := by
    have htrans : ∀ a b c : SessionId, decide (a ≤ b) = true → decide (b ≤ c) = true →
        decide (a ≤ c) = true := by
      intro a b c hab hbc
      exact decide_eq_true (Int.le_trans (of_decide_eq_true hab) (of_decide_eq_true hbc))
    have htotal : ∀ a b : SessionId, (decide (a ≤ b) || decide (b ≤ a)) = true := by
      intro a b
      rw [Bool.or_eq_true, decide_eq_true_eq, decide_eq_true_eq]
      exact Int.le_total a.value b.value
    exact (List.pairwise_mergeSort htrans htotal all).imp of_decide_eq_true
  refine ((hsorted.sublist (eraseDups_sublist _)).and (nodup_eraseDups _)).imp ?_
  rintro a b ⟨hle, hne⟩
  exact Int.lt_iff_le_and_ne.mpr ⟨hle, fun heq => hne (SessionId.ext heq)⟩

/-- The sessions that are found are at the top level. -/
theorem areTop_conflicts (h : s.conflicts spans = .ok ids) : s.AreTop ids where
  distinct := (conflicts_increasing h).imp fun hlt heq => Int.ne_of_lt hlt (congrArg _ heq)
  top := by
    intro id hid
    obtain ⟨r, hr, hid, htop, -⟩ := (mem_conflicts_iff h).mp hid
    exact ⟨r, hr, hid, htop⟩

/-- When the sessions that are found are removed, none is left that meets a span. -/
theorem not_meetsTop_of_mem_eraseAll (h : s.conflicts spans = .ok ids)
    (hr : r ∈ (s.eraseAll ids).1.rows) : ¬ MeetsTop r spans := by
  intro hmeets
  obtain ⟨old, hold, hcore⟩ := exists_of_mem_of_sublist (core_eraseAll_sublist s ids) r hr
  -- links do not matter for what a row meets
  have hcoremeets : MeetsTop r.core spans := hmeets
  rw [← hcore] at hcoremeets
  have hfound : old.id ∈ ids := (mem_conflicts_iff h).mpr ⟨old, hold, rfl, hcoremeets⟩
  rw [Row.id_eq_of_core hcore] at hfound
  exact id_notMem_of_mem_eraseAll r hr hfound

/-! ## The search has an answer -/

/-- The search fails only when a session that it finds cannot be read. -/
theorem exists_conflicts_of_met
    (h : ∀ r ∈ s.rows, MeetsTop r spans → ∃ session, r.session = .ok session) :
    ∃ ids, s.conflicts spans = .ok ids := by
  have hall : ∃ found, ((spans.filter Span.isTopLevel).mapM fun span =>
      s.overlapping span.start span.stop) = .ok found := by
    apply exists_mapM_ok
    intro span hspan
    obtain ⟨hspan, htop⟩ := List.mem_filter.mp hspan
    apply exists_select_of_chosen
    intro r hr hchoose
    simp only [Bool.and_eq_true, Option.isNone_iff_eq_none, and_assoc] at hchoose
    obtain ⟨hparent, hmeets⟩ := hchoose
    refine h r hr ⟨hparent, span, hspan, by simpa [Span.isTopLevel] using htop, ?_⟩
    rwa [rowMeets, Bool.and_eq_true]
  obtain ⟨found, hfound⟩ := hall
  exact ⟨_, bind_eq_ok.mpr ⟨found, hfound, rfl⟩⟩

/-- Where no session meets a span, nothing is found. -/
theorem conflicts_eq_nil (h : ∀ r ∈ s.rows, ¬ MeetsTop r spans) : s.conflicts spans = .ok [] := by
  obtain ⟨ids, hids⟩ := exists_conflicts_of_met fun r hr hmeets => absurd hmeets (h r hr)
  have hnone : ids = [] := by
    apply List.eq_nil_iff_forall_not_mem.mpr
    intro id hid
    obtain ⟨r, hr, -, hmeets⟩ := (mem_conflicts_iff hids).mp hid
    exact h r hr hmeets
  rw [hids, hnone]

/-- Without spans nothing is found. -/
theorem conflicts_nil (s : Store) : s.conflicts [] = .ok [] :=
  conflicts_eq_nil fun _ _ ⟨_, _, hspan, _⟩ => List.not_mem_nil hspan

/-! ## Texts and moments -/

/-- A session is found under a number when a row with the number reads as it. -/
theorem session?_eq_ok_some_iff (ho : s.Ordered) {session : Session} :
    s.session? id = .ok (some session) ↔ ∃ r ∈ s.rows, r.id = id ∧ r.session = .ok session := by
  constructor
  · intro h
    unfold session? at h
    split at h
    · simp at h
    · next r hr =>
      obtain ⟨hmem, hid⟩ := mem_of_row?_eq_some hr
      obtain ⟨found, hfound, h⟩ := bind_eq_ok.mp h
      obtain rfl := Option.some.inj (Except.ok.inj h)
      exact ⟨r, hmem, SessionId.ext hid, hfound⟩
  · rintro ⟨r, hr, rfl, hsession⟩
    unfold session?
    rw [ho.row?_eq_some hr]
    exact bind_eq_ok.mpr ⟨session, hsession, rfl⟩

/-- A row that was written reads as a session that overlaps what the row meets. -/
theorem exists_session_of_isWritten (hr : r.IsWritten)
    (hspans : ∀ span ∈ spans, IsWithinYears span.start span.stop) :
    ∃ session, r.session = .ok session ∧
      (MeetsTop r spans ↔ session.parent = none ∧ ∃ span ∈ spans, span.parent = none ∧
        overlaps span.start span.stop session.start session.stop = true) := by
  obtain ⟨n, hn, hrow⟩ := hr
  refine ⟨numbered r.id n, ?_, ?_⟩
  · rw [hrow, rowOf_eq]
    exact session_row hn.isWithinCalendar
  · have hparent : r.parent = none ↔ n.parent = none := by
      rw [hrow]
      exact Option.map_eq_none_iff
    refine and_congr hparent (exists_congr fun span => and_congr_right fun hspan => ?_)
    rw [hrow, rowMeets_rowOf hn (hspans span hspan)]
    rfl

/-- When all moments are in years of four digits, the sessions that are found are those at the
top level that overlap a span at the top level. -/
theorem mem_conflicts_iff_overlaps (ho : s.Ordered) (hrows : ∀ r ∈ s.rows, r.IsWritten)
    (hspans : ∀ span ∈ spans, IsWithinYears span.start span.stop)
    (h : s.conflicts spans = .ok ids) :
    id ∈ ids ↔ ∃ session, s.session? id = .ok (some session) ∧ session.parent = none ∧
      ∃ span ∈ spans, span.parent = none ∧
        overlaps span.start span.stop session.start session.stop = true := by
  rw [mem_conflicts_iff h]
  simp only [session?_eq_ok_some_iff ho]
  constructor
  · rintro ⟨r, hr, hid, hmeets⟩
    obtain ⟨session, hsession, hiff⟩ := exists_session_of_isWritten (hrows r hr) hspans
    exact ⟨session, ⟨r, hr, hid, hsession⟩, hiff.mp hmeets⟩
  · rintro ⟨session, ⟨r, hr, hid, hsession⟩, hoverlap⟩
    obtain ⟨session', hsession', hiff⟩ := exists_session_of_isWritten (hrows r hr) hspans
    obtain rfl := Except.ok.inj (hsession.symm.trans hsession')
    exact ⟨r, hr, hid, hiff.mpr hoverlap⟩

end Daybook.Store
