import Daybook.Proofs.Import.Runs
import Daybook.Proofs.Store.Conflicts
import Daybook.Proofs.Timeline.Overlap

/-!
# No double booking

An import refuses a log whose spans overlap each other, and removes the stored sessions that the
log overlaps before its spans are stored. So no two sessions at the top level overlap in any
store that imports reach.

* `reached_apart` : sessions at the top level are apart.
-/

namespace Daybook

namespace Timeline

/-! ## Overlaps in a log -/

/-- In a log without overlaps no two spans at the top level overlap. -/
theorem pairwise_of_selfOverlaps_eq_nil {spans : List Span} (h : selfOverlaps spans = []) :
    spans.Pairwise fun a b => a.parent = none → b.parent = none → a.overlapsWith b = false := by
  have hpair := List.pairwise_filter.mp (overlapsAmong_eq_nil_iff.mp h)
  refine hpair.imp ?_
  intro a b hab ha hb
  exact hab (by simp [Span.isTopLevel, ha]) (by simp [Span.isTopLevel, hb])

end Timeline

namespace Store

/-! ## Storing spans apart from what is stored -/

variable {store after : Store}

/-- The row has the bounds and the place of a span. -/
def HasBoundsOf (s : Span) (r : Row) : Prop :=
  ∃ n : NewSession, n.start = s.start ∧ n.stop = s.stop ∧ r = rowOf r.id n ∧
    (r.parent = none ↔ s.parent = none)

theorem HasBoundsOf.parent_iff {s : Span} {r : Row} (h : HasBoundsOf s r) :
    r.parent = none ↔ s.parent = none := by
  obtain ⟨n, -, -, -, hparent⟩ := h
  exact hparent

/-- Links do not change the bounds and the place that a span is stored with. -/
theorem exists_hasBoundsOf_rowAt {spans resolved : List Span}
    (hframes : resolved.map Timeline.frame = spans.map Timeline.frame) {k : Nat} {t : Span}
    (ht : resolved[k]? = some t) (lastId : Nat) :
    ∃ s, spans[k]? = some s ∧ HasBoundsOf s (rowAt lastId k t) := by
  obtain ⟨s, hs, hstart, hstop, -, hparent⟩ := Timeline.exists_of_map_frame hframes ht
  refine ⟨s, hs, sessionOf lastId t, hstart, hstop, rfl, ?_⟩
  simp [rowAt, rowOf, sessionOf, hparent]

theorem hasBoundsOf_of_importSpans {spans resolved : List Span} {all : List SessionId}
    (hframes : resolved.map Timeline.frame = spans.map Timeline.frame)
    (hok : store.importSpans resolved = .ok (after, all)) :
    ∃ news, after.rows = store.rows ++ news ∧
      ∀ (k : Nat) (r : Row), news[k]? = some r → ∃ s, spans[k]? = some s ∧ HasBoundsOf s r := by
  refine ⟨_, (importSpans_ok hok).1, ?_⟩
  intro k r hk
  rw [List.getElem?_mapIdx, Option.map_eq_some_iff] at hk
  obtain ⟨t, ht, rfl⟩ := hk
  exact exists_hasBoundsOf_rowAt hframes ht store.lastId

/-- Spans that overlap neither each other nor what is stored are stored apart. -/
theorem Apart.importSpans (h : store.Apart) {spans resolved : List Span}
    (hframes : resolved.map Timeline.frame = spans.map Timeline.frame)
    (hyears : ∀ s ∈ spans, IsWithinYears s.start s.stop)
    (hself : Timeline.selfOverlaps spans = [])
    (hfree : ∀ r ∈ store.rows, r.parent = none → ∀ s ∈ spans, s.parent = none →
      ∀ r', HasBoundsOf s r' → rowsOverlap r r' = false)
    {all : List SessionId} (hok : store.importSpans resolved = .ok (after, all)) :
    after.Apart := by
  obtain ⟨news, hrows, hnews⟩ := hasBoundsOf_of_importSpans hframes hok
  have hmem : ∀ r ∈ news, ∃ s ∈ spans, HasBoundsOf s r := by
    intro r hr
    obtain ⟨k, hk⟩ := List.getElem?_of_mem hr
    obtain ⟨s, hs, hbounds⟩ := hnews k r hk
    exact ⟨s, List.mem_of_getElem? hs, hbounds⟩
  constructor
  · intro r hr
    rw [hrows] at hr
    rcases List.mem_append.mp hr with hr | hr
    · exact h.written r hr
    · obtain ⟨s, hs, n, hstart, hstop, hrow, -⟩ := hmem r hr
      have hn := hyears s hs
      rw [← hstart, ← hstop] at hn
      exact ⟨n, hn, hrow⟩
  · rw [hrows]
    refine List.pairwise_append.mpr ⟨h.apart, ?_, ?_⟩
    · -- two new rows are as far apart as their spans
      have hpair := Timeline.pairwise_of_selfOverlaps_eq_nil hself
      rw [List.pairwise_iff_getElem] at hpair ⊢
      intro i j hi hj hij ha hb
      obtain ⟨s, hs, m, hmstart, hmstop, hrow, hsparent⟩ := hnews i _ (List.getElem?_eq_getElem hi)
      obtain ⟨t, ht, n, hnstart, hnstop, hrow', htparent⟩ :=
        hnews j _ (List.getElem?_eq_getElem hj)
      obtain ⟨hilt, rfl⟩ := List.getElem?_eq_some_iff.mp hs
      obtain ⟨hjlt, rfl⟩ := List.getElem?_eq_some_iff.mp ht
      have hm := hyears _ (List.getElem_mem hilt)
      have hn := hyears _ (List.getElem_mem hjlt)
      rw [← hmstart, ← hmstop] at hm
      rw [← hnstart, ← hnstop] at hn
      have hapart := hpair i j hilt hjlt hij (hsparent.mp ha) (htparent.mp hb)
      rw [hrow, hrow', rowsOverlap_rowOf hm hn, hmstart, hmstop, hnstart, hnstop]
      exact hapart
    · -- a row that was there and a new one
      intro a ha b hb hatop hbtop
      obtain ⟨s, hs, hbounds⟩ := hmem b hb
      have hstop : s.parent = none := hbounds.parent_iff.mp hbtop
      exact hfree a ha hatop s hs hstop b hbounds

end Store

namespace Import

/-! ## Runs -/

/-- An import keeps sessions at the top level apart. -/
theorem apart_apply {store : Store} (h : store.Ordered ∧ store.Chained ∧ store.Apart)
    {r : Request} (hyears : ∀ s ∈ r.spans, IsWithinYears s.start s.stop) :
    (Request.apply store r).Apart := by
  obtain ⟨ho, hc, ha⟩ := h
  rcases apply_cases store r with hsame | ⟨conflicts, done, hconflicts, hself, -, -, hreplace⟩
  · rw [hsame]
    exact ha
  · obtain ⟨resolved, all, hresolve, hstore⟩ := Store.replace_ok hreplace
    have hanswers := Store.answers_archive (ho.eraseAll conflicts) (hc.eraseAll conflicts)
    obtain ⟨hframes, -⟩ := Timeline.resolve_linked hanswers hresolve
    refine (ha.eraseAll conflicts).importSpans hframes hyears hself ?_ hstore
    -- a session that overlaps a span was a conflict, so it is not there any more
    intro kept hkept hkepttop s hs hstop new hbounds
    obtain ⟨n, hnstart, hnstop, hrow, -⟩ := hbounds
    cases hoverlap : Store.rowsOverlap kept new with
    | false => rfl
    | true =>
      rw [hrow, ← Store.rowMeets_eq_rowsOverlap hnstart hnstop] at hoverlap
      exact absurd ⟨hkepttop, s, hs, hstop, hoverlap⟩
        (Store.not_meetsTop_of_mem_eraseAll hconflicts hkept)

theorem apart_reached {requests : List Request}
    (hyears : ∀ r ∈ requests, ∀ s ∈ r.spans, IsWithinYears s.start s.stop) :
    (reached requests).Ordered ∧ (reached requests).Chained ∧ (reached requests).Apart := by
  refine reached_induction (P := fun store => store.Ordered ∧ store.Chained ∧ store.Apart)
    ⟨Store.Ordered.empty, Store.Chained.empty, Store.Apart.empty⟩ ?_
  intro store r hr h
  obtain ⟨ho, hc⟩ := linked_apply ⟨h.1, h.2.1⟩ r
  exact ⟨ho, hc, apart_apply h (hyears r hr)⟩

/-- When all spans of all logs are in years of four digits, no two sessions at the top level of
a store that imports reach overlap. -/
theorem reached_apart (requests : List Request)
    (hyears : ∀ r ∈ requests, ∀ s ∈ r.spans, IsWithinYears s.start s.stop) :
    (reached requests).rows.Pairwise fun a b => a.parent = none → b.parent = none →
      ∃ m n, a.session = .ok m ∧ b.session = .ok n ∧
        overlaps m.start m.stop n.start n.stop = false := by
  -- rows that were written read as sessions with the same bounds
  obtain ⟨-, -, hapart⟩ := apart_reached hyears
  refine hapart.apart.imp_of_mem ?_
  intro a b ha hb hab hatop hbtop
  obtain ⟨m, hm, hrowa⟩ := hapart.written a ha
  obtain ⟨n, hn, hrowb⟩ := hapart.written b hb
  have hoverlap := hab hatop hbtop
  rw [hrowa, hrowb, Store.rowsOverlap_rowOf hm hn] at hoverlap
  obtain ⟨sa, hsa, hastart, hastop⟩ := Store.session_rowOf a.id hm
  obtain ⟨sb, hsb, hbstart, hbstop⟩ := Store.session_rowOf b.id hn
  refine ⟨sa, sb, hrowa ▸ hsa, hrowb ▸ hsb, ?_⟩
  rw [hastart, hastop, hbstart, hbstop]
  exact hoverlap

/-- Two logs of one morning that overlap, the second in place of the first. -/
def replacedMorning : List Request :=
  [{ options := {}, base := sampleDay, text := "8:00 Mail\n9:00 Report\n11:00 @end" },
    { options := { overwrite := true }, base := sampleDay
      text := "10:00 Review\n  10:15 Call (10m)\n12:00 @end" }]

/-- The report goes, and the mail and the review stay. -/
theorem reached_apart_replacedMorning :
    (reached replacedMorning).rows.map Row.description = ["Mail", "Review", "Call"] ∧
      (reached replacedMorning).rows.Pairwise fun a b => a.parent = none → b.parent = none →
        ∃ m n, a.session = .ok m ∧ b.session = .ok n ∧
          overlaps m.start m.stop n.start n.stop = false :=
  ⟨by decide +kernel, reached_apart replacedMorning (by decide +kernel)⟩

end Import

end Daybook
