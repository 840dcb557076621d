import Daybook.Proofs.Import.Refusal
import Daybook.Proofs.Store.Block
import Daybook.Proofs.Store.Conflicts

/-!
# Imports in earnest

An import that is not a dry run and succeeds has removed the sessions that overlap its log, and
has added the rows for its spans after those that were left. In the other direction, a log
without a fault of its own is stored as soon as nothing overlaps it that may not be replaced.

* `Carried` : what an import in earnest did.
* `carried_of_ok` : every import in earnest that succeeds did that.
* `run_eq_carryOut` : imports that get as far as the store.
-/

namespace Daybook.Import

open Store (MeetsTop RefersBack numberAt rowAt)

variable {store after : Store} {r : Request} {ids : List SessionId} {resolved : List Span}

/-- The log has no fault of its own, the numbers are those of the sessions that overlapped it
and could be replaced, and its spans with their links took the place of those sessions. -/
structure Carried (store : Store) (r : Request) (ids : List SessionId) (resolved : List Span)
    (after : Store) : Prop where
  clean : r.log.isClean = true
  apart : Timeline.selfOverlaps r.spans = []
  found : store.conflicts r.spans = .ok ids
  allowed : ids = [] ∨ r.options.overwrite = true
  linked : Timeline.resolve (store.eraseAll ids).1.archive r.spans = .ok resolved
  rows : after.rows = (store.eraseAll ids).1.rows ++ resolved.mapIdx (rowAt store.lastId)
  lastId : after.lastId = store.lastId + r.spans.length

/-! ## Imports that succeeded -/

/-- An import in earnest that succeeds has put its spans in the place of what overlapped them. -/
theorem carried_of_ok (hdry : r.options.dryRun = false) {summary : Summary}
    (hok : (run store r.options r.base r.text).result = .ok summary) :
    ∃ ids resolved, Carried store r ids resolved (Request.apply store r) ∧
      summary = .ofSpans resolved (store.eraseAll ids).2 := by
  have hends := run_ends store r
  rw [hok] at hends
  generalize Request.apply store r = after at hends ⊢
  cases hends with
  | nothing hclean hnone =>
    -- nothing is to be stored, and nothing stood in its place
    refine ⟨[], [], ?_, rfl⟩
    constructor
    case clean => exact hclean
    case allowed => exact .inl rfl
    case found => rw [hnone, Store.conflicts_nil]
    case rows => rw [List.mapIdx_nil, List.append_nil]; rfl
    case lastId => rw [hnone]; rfl
    all_goals
      rw [hnone]
      rfl
  | planned _ _ hplan _ => exact absurd (hdry.symm.trans hplan) Bool.noConfusion
  | @stored ids _ done hmeets hallowed _ hreplace =>
    obtain ⟨resolved, all, hresolve, hstore, rfl⟩ := Store.steps_of_replace hreplace
    obtain ⟨hrows, hlast, -⟩ := Store.importSpans_ok hstore
    rw [Store.lastId_eraseAll] at hrows hlast
    rw [Timeline.length_resolve hresolve] at hlast
    exact ⟨ids, resolved,
      ⟨hmeets.clean, hmeets.apart, hmeets.found, hallowed, hresolve, hrows, hlast⟩, rfl⟩

theorem sound_apply (h : store.Sound) (r : Request) : (Request.apply store r).Sound := by
  rcases apply_cases store r with hsame | ⟨conflicts, done, -, -, -, -, hreplace⟩
  · rw [hsame]
    exact h
  · exact h.replace hreplace

namespace Carried

/-- Links do not change the frames of the spans. -/
theorem frames (h : Carried store r ids resolved after) :
    resolved.map Timeline.frame = r.spans.map Timeline.frame :=
  (Timeline.resolve_linked (Store.answers_isStored _) h.linked).1

theorem storable (h : Carried store r ids resolved after) (k : Nat) (s : Span)
    (hs : resolved[k]? = some s) : (store.eraseAll ids).1.IsStorable k s :=
  isStorable_of_resolve h.linked k s hs

/-- The rows of the log stand after those that were left. -/
theorem extends_left (h : Carried store r ids resolved after) :
    (store.eraseAll ids).1.Extends resolved after where
  rows := by rw [Store.lastId_eraseAll, h.rows]
  back := fun k s hs => (h.storable k s hs).back

/-- Only rows of the log itself meet its spans. -/
theorem exists_rowAt_of_meetsTop (h : Carried store r ids resolved after) {row : Row}
    (hrow : row ∈ after.rows) (hmeets : MeetsTop row r.spans) :
    ∃ k s, resolved[k]? = some s ∧ rowAt store.lastId k s = row := by
  rw [h.rows] at hrow
  rcases List.mem_append.mp hrow with hrow | hrow
  · exact absurd hmeets (Store.not_meetsTop_of_mem_eraseAll h.found hrow)
  · exact Store.mem_mapIdx_rowAt.mp hrow

end Carried

/-! ## Imports that get as far as the store -/

/-- An import of a log without a fault of its own and without entries stores nothing. -/
theorem run_eq_nothing (store : Store) (hclean : r.log.isClean = true) (hnone : r.spans = []) :
    (run store r.options r.base r.text).result = .ok {} ∧ Request.apply store r = store := by
  have hclean' : ¬ (!r.log.isClean) = true := by simpa using hclean
  have hspans : Timeline.ofEvents r.log.events = r.spans := rfl
  rw [Request.apply, run_eq_runLog, Outcome.result_after, Outcome.store_after, runLog,
    if_neg hclean', hspans, if_pos hnone]
  exact ⟨rfl, rfl⟩

/-- An import of a log without a fault of its own is one of its spans. -/
theorem run_eq_runSpans (store : Store) (options : Options) (hclean : r.log.isClean = true)
    (hapart : Timeline.selfOverlaps r.spans = []) (hsome : r.spans ≠ []) :
    run store options r.base r.text =
      (runSpans store options r.spans).after (warningLines r.log.warnings) := by
  have hclean' : ¬ (!r.log.isClean) = true := by simpa using hclean
  have hspans : Timeline.ofEvents r.log.events = r.spans := rfl
  rw [run_eq_runLog, runLog, if_neg hclean', hspans, if_neg hsome,
    if_neg (fun hoverlaps => hoverlaps hapart)]

/-- Where spans may take the place of what overlaps them and the links that are lost can be named,
a notice is printed, and then they are planned or stored. -/
theorem runSpans_eq_after {overwrite : Bool} {spans : List Span}
    (hfound : store.conflicts spans = .ok ids) (hallowed : ids = [] ∨ overwrite = true)
    (hnotice : ∃ notice, lostLinks store ids = .ok notice) :
    ∃ notice, ∀ dryRun, runSpans store { dryRun, overwrite } spans =
      (if dryRun then plan store ids spans else carryOut store ids spans).after notice := by
  obtain ⟨notice, hnotice⟩ := hnotice
  have hgoes : ¬ (ids ≠ [] ∧ (!overwrite) = true) := by
    rintro ⟨hsome, hkeep⟩
    simp [hallowed.resolve_left hsome] at hkeep
  have hprinted : ∃ text, (if overwrite then lostLinks store ids else .ok "") =
      Except.ok (ε := StoreError) text := by
    cases overwrite with
    | false => exact ⟨"", rfl⟩
    | true => exact ⟨notice, hnotice⟩
  obtain ⟨text, htext⟩ := hprinted
  refine ⟨text, fun dryRun => ?_⟩
  unfold runSpans
  rw [hfound]
  simp only [if_neg hgoes, htext]

/-- Where something overlaps spans that may not take its place, they are refused. -/
theorem runSpans_eq_refuseConflicts {options : Options} {spans : List Span}
    (hfound : store.conflicts spans = .ok ids) (hsome : ids ≠ [])
    (hkeep : options.overwrite = false) :
    runSpans store options spans = refuseConflicts store ids := by
  rw [runSpans, hfound]
  simp only [hkeep, if_pos (And.intro hsome Bool.not_false)]

/-- An import in earnest of a log without a fault of its own replaces what overlaps the log, if
that may be replaced and the links that are lost can be named. -/
theorem run_eq_carryOut (hclean : r.log.isClean = true)
    (hapart : Timeline.selfOverlaps r.spans = []) (hfound : store.conflicts r.spans = .ok ids)
    (hallowed : ids = [] ∨ r.options.overwrite = true)
    (hnotice : ∃ notice, lostLinks store ids = .ok notice) (hdry : r.options.dryRun = false) :
    (run store r.options r.base r.text).result = (carryOut store ids r.spans).result ∧
      Request.apply store r = (carryOut store ids r.spans).store := by
  by_cases hnone : r.spans = []
  · -- nothing is to be stored, and nothing stands in its place
    rw [hnone, Store.conflicts_nil] at hfound
    obtain rfl := Except.ok.inj hfound
    rw [hnone]
    exact run_eq_nothing store hclean hnone
  · obtain ⟨notice, hruns⟩ := runSpans_eq_after hfound hallowed hnotice
    have hcarried : runSpans store r.options r.spans =
        (carryOut store ids r.spans).after notice := by
      have hrun := hruns r.options.dryRun
      rw [hdry] at hrun
      rw [show r.options = ⟨false, r.options.overwrite⟩ from by rw [← hdry]]
      exact hrun
    rw [Request.apply, run_eq_runSpans store r.options hclean hapart hnone, hcarried]
    exact ⟨rfl, rfl⟩

theorem carryOut_of_ok {spans : List Span} {done : Store.Replacement}
    (h : store.replace ids spans = .ok (after, done)) :
    (carryOut store ids spans).result = .ok (.ofSpans done.spans done.replaced) ∧
      (carryOut store ids spans).store = after := by
  rw [carryOut, h]
  exact ⟨rfl, rfl⟩

theorem carryOut_of_error {spans : List Span} {cause : StoreError}
    (h : store.replace ids spans = .error cause) :
    (carryOut store ids spans).result = .error (.storing cause) ∧
      (carryOut store ids spans).store = store := by
  rw [carryOut, h]
  exact ⟨rfl, rfl⟩

/-- An import of a log without a fault of its own is refused for the sessions that overlap the
log, if they may not be replaced and can be read. -/
theorem run_eq_refused (hclean : r.log.isClean = true)
    (hapart : Timeline.selfOverlaps r.spans = []) (hfound : store.conflicts r.spans = .ok ids)
    (hsome : ids ≠ []) (hkeep : r.options.overwrite = false)
    (hlines : ∀ id ∈ ids, ∃ line, conflictLine store id = .ok line) :
    (run store r.options r.base r.text).result = .error (.conflicts ids.length) := by
  have hspans : r.spans ≠ [] := by
    intro hnone
    rw [hnone, Store.conflicts_nil] at hfound
    exact hsome (Except.ok.inj hfound).symm
  rw [run_eq_runSpans store r.options hclean hapart hspans, Outcome.result_after,
    runSpans_eq_refuseConflicts hfound hsome hkeep]
  unfold refuseConflicts
  split
  · next output cause hfailed =>
    obtain ⟨id, hid, hread⟩ := List.mem_map.mp (mem_of_untilError hfailed)
    obtain ⟨line, hline⟩ := hlines id hid
    rw [hread] at hline
    simp at hline
  · rfl

end Daybook.Import
