import Daybook.Import
import Daybook.Proofs.Store.Chain

/-!
# Runs of the import

Imports are asked for one after the other, and the first finds an empty store. An import leaves
the store alone, or it puts the spans of its log in the place of the sessions that overlap them;
whatever both keep is true of every store that is reached.

* `run_ends` : how an import can end.
* `apply_cases` : what an import does to the store.
* `reached_linked` : in every store that is reached, links are to the starts of chains.
-/

namespace Daybook.Import

/-! ## Requests -/

/-- An import that is asked for. -/
structure Request where
  options : Options
  base : Date
  text : String

namespace Request

/-- What is read of the log. -/
def log (r : Request) : Log :=
  Log.ofText r.base r.text

/-- The spans of the log. -/
def spans (r : Request) : List Span :=
  Timeline.ofEvents (Log.ofText r.base r.text).events

/-- The store that the import leaves. -/
def apply (store : Store) (r : Request) : Store :=
  (run store r.options r.base r.text).store

end Request

/-- The store after imports that start with an empty one. -/
def reached (requests : List Request) : Store :=
  requests.foldl Request.apply Store.empty

/-- What is true of the empty store and kept by every import is true of a store that is
reached. -/
theorem reached_induction {P : Store → Prop} {requests : List Request} (hempty : P Store.empty)
    (hstep : ∀ store, ∀ r ∈ requests, P store → P (Request.apply store r)) :
    P (reached requests) := by
  -- by induction on the imports that are left, from any store
  have hall : ∀ (rest : List Request) (store : Store), (∀ r ∈ rest, r ∈ requests) → P store →
      P (rest.foldl Request.apply store) := by
    intro rest
    induction rest with
    | nil =>
      intro store _ h
      exact h
    | cons r rest ih =>
      intro store hsub h
      have hr := hstep store r (hsub r List.mem_cons_self) h
      exact ih _ (fun r' hr' => hsub r' (List.mem_cons_of_mem _ hr')) hr
  exact hall requests Store.empty (fun _ hr => hr) hempty

/-! ## One import -/

theorem run_eq_runLog (store : Store) (options : Options) (r : Request) :
    run store options r.base r.text =
      (runLog store options r.log).after (warningLines r.log.warnings) := rfl

/-- The log has no fault of its own, and these stored sessions overlap it. -/
structure Meets (store : Store) (r : Request) (conflicts : List SessionId) : Prop where
  clean : r.log.isClean = true
  nonempty : r.spans ≠ []
  apart : Timeline.selfOverlaps r.spans = []
  found : store.conflicts r.spans = .ok conflicts

/-- How an import can end, and the store that it leaves. -/
inductive Ends (store : Store) (r : Request) : Except Refusal Summary → Store → Prop where
  | problems (h : r.log.isClean = false) :
      Ends store r (.error (.problems r.log.problems.length)) store
  | nothing (h : r.log.isClean = true) (hspans : r.spans = []) : Ends store r (.ok {}) store
  | overlaps (h : Timeline.selfOverlaps r.spans ≠ []) :
      Ends store r (.error (.overlaps (Timeline.selfOverlaps r.spans).length)) store
  | conflictSearch {cause : StoreError} (h : store.conflicts r.spans = .error cause) :
      Ends store r (.error (.conflictSearch cause)) store
  | conflictRead {conflicts : List SessionId} {id : SessionId} {cause : StoreError}
      (h : Meets store r conflicts) (hid : id ∈ conflicts)
      (hread : conflictLine store id = .error cause) :
      Ends store r (.error (.conflictRead cause)) store
  | conflicts {conflicts : List SessionId} (h : Meets store r conflicts)
      (hsome : conflicts ≠ []) (hoverwrite : r.options.overwrite = false) :
      Ends store r (.error (.conflicts conflicts.length)) store
  | continuationSearch {conflicts : List SessionId} {cause : StoreError}
      (h : Meets store r conflicts) (hlost : lostLinks store conflicts = .error cause) :
      Ends store r (.error (.continuationSearch cause)) store
  | linking {cause : StoreError} (h : Timeline.resolve store.archive r.spans = .error cause) :
      Ends store r (.error (.linking cause)) store
  | linkedRead {conflicts : List SessionId} {resolved : List Span} {cause : StoreError}
      (h : Meets store r conflicts)
      (hresolve : Timeline.resolve store.archive r.spans = .ok resolved)
      (hread : .error cause ∈ planParts store resolved conflicts.length) :
      Ends store r (.error (.linkedRead cause)) store
  | planned {conflicts : List SessionId} {resolved : List Span} (h : Meets store r conflicts)
      (hallowed : conflicts = [] ∨ r.options.overwrite = true) (hdry : r.options.dryRun = true)
      (hresolve : Timeline.resolve store.archive r.spans = .ok resolved) :
      Ends store r (.ok (.ofSpans resolved conflicts.length)) store
  | storing {conflicts : List SessionId} {cause : StoreError} (h : Meets store r conflicts)
      (hallowed : conflicts = [] ∨ r.options.overwrite = true) (hdry : r.options.dryRun = false)
      (hreplace : store.replace conflicts r.spans = .error cause) :
      Ends store r (.error (.storing cause)) store
  | stored {conflicts : List SessionId} {after : Store} {done : Store.Replacement}
      (h : Meets store r conflicts)
      (hallowed : conflicts = [] ∨ r.options.overwrite = true) (hdry : r.options.dryRun = false)
      (hreplace : store.replace conflicts r.spans = .ok (after, done)) :
      Ends store r (.ok (.ofSpans done.spans done.replaced)) after

theorem mem_of_untilError {ε : Type} {parts : List (Except ε String)} {output : String} {cause : ε}
    (h : untilError parts = (output, some cause)) : .error cause ∈ parts := by
  induction parts generalizing output with
  | nil => simp [untilError] at h
  | cons part rest ih =>
    cases part with
    | error e =>
      obtain ⟨-, he⟩ := Prod.mk.inj h
      rw [Option.some.inj he]
      exact List.mem_cons_self
    | ok text =>
      obtain ⟨-, hrest⟩ := Prod.mk.inj h
      exact List.mem_cons_of_mem _ (ih (Prod.ext rfl hrest))

variable {store : Store} {r : Request} {conflicts : List SessionId}

theorem ends_refuseConflicts (h : Meets store r conflicts) (hsome : conflicts ≠ [])
    (hoverwrite : r.options.overwrite = false) :
    Ends store r (refuseConflicts store conflicts).result
      (refuseConflicts store conflicts).store := by
  unfold refuseConflicts
  split
  · next output cause hfailed =>
    obtain ⟨id, hid, hread⟩ := List.mem_map.mp (mem_of_untilError hfailed)
    exact .conflictRead h hid hread
  · exact .conflicts h hsome hoverwrite

theorem ends_plan (h : Meets store r conflicts)
    (hallowed : conflicts = [] ∨ r.options.overwrite = true) (hdry : r.options.dryRun = true) :
    Ends store r (plan store conflicts r.spans).result (plan store conflicts r.spans).store := by
  unfold plan
  split
  · next cause hresolve => exact .linking hresolve
  · next resolved hresolve =>
    split
    · next output cause hfailed => exact .linkedRead h hresolve (mem_of_untilError hfailed)
    · exact .planned h hallowed hdry hresolve

theorem ends_carryOut (h : Meets store r conflicts)
    (hallowed : conflicts = [] ∨ r.options.overwrite = true) (hdry : r.options.dryRun = false) :
    Ends store r (carryOut store conflicts r.spans).result
      (carryOut store conflicts r.spans).store := by
  unfold carryOut
  split
  · next cause hreplace => exact .storing h hallowed hdry hreplace
  · next after done hreplace => exact .stored h hallowed hdry hreplace

theorem ends_runSpans (hclean : r.log.isClean = true) (hnonempty : r.spans ≠ [])
    (hapart : Timeline.selfOverlaps r.spans = []) :
    Ends store r (runSpans store r.options r.spans).result
      (runSpans store r.options r.spans).store := by
  unfold runSpans
  split
  · next cause hsearch => exact .conflictSearch hsearch
  · next conflicts hfound =>
    have hmeets : Meets store r conflicts := ⟨hclean, hnonempty, hapart, hfound⟩
    split
    · next hrefused => exact ends_refuseConflicts hmeets hrefused.1 (by simpa using hrefused.2)
    · next hgoes =>
      -- an import goes on past its conflicts only if it may overwrite them
      have hallowed : conflicts = [] ∨ r.options.overwrite = true := by
        by_cases hnil : conflicts = []
        · exact .inl hnil
        · exact .inr (by simpa [hnil] using hgoes)
      split
      · next cause hlost =>
        refine .continuationSearch hmeets ?_
        split at hlost
        · exact hlost
        · simp at hlost
      · rw [Outcome.result_after, Outcome.store_after]
        split
        · next hdry => exact ends_plan hmeets hallowed hdry
        · next hdry => exact ends_carryOut hmeets hallowed (by simpa using hdry)

/-- Every import ends in one of these ways. -/
theorem run_ends (store : Store) (r : Request) :
    Ends store r (run store r.options r.base r.text).result (Request.apply store r) := by
  rw [Request.apply, run_eq_runLog, Outcome.result_after, Outcome.store_after]
  unfold runLog
  simp only
  split
  · next hproblems => exact .problems (by simpa using hproblems)
  · next hclean =>
    have hclean' : r.log.isClean = true := by simpa using hclean
    split
    · next hnone => exact .nothing hclean' hnone
    · next hsome =>
      split
      · next hoverlaps => exact .overlaps hoverlaps
      · next hapart => exact ends_runSpans hclean' hsome (Decidable.not_not.mp hapart)

/-- An import leaves the store alone, or its spans take the place of the sessions that overlap
them. -/
theorem apply_cases (store : Store) (r : Request) :
    Request.apply store r = store ∨
      ∃ conflicts done,
        store.conflicts r.spans = .ok conflicts ∧ Timeline.selfOverlaps r.spans = [] ∧
          (conflicts = [] ∨ r.options.overwrite = true) ∧ r.options.dryRun = false ∧
          store.replace conflicts r.spans = .ok (Request.apply store r, done) := by
  have hends := run_ends store r
  generalize (run store r.options r.base r.text).result = result at hends
  generalize Request.apply store r = after at hends ⊢
  cases hends with
  | stored h hallowed hdry hreplace =>
    exact .inr ⟨_, _, h.found, h.apart, hallowed, hdry, hreplace⟩
  | _ => exact .inl rfl

/-! ## Links -/

/-- An import keeps the order of the numbers, and the links to the starts of chains. -/
theorem linked_apply {store : Store} (h : store.Ordered ∧ store.Chained) (r : Request) :
    (Request.apply store r).Ordered ∧ (Request.apply store r).Chained := by
  obtain ⟨ho, hc⟩ := h
  rcases apply_cases store r with hsame | ⟨conflicts, done, -, -, -, -, hreplace⟩
  · rw [hsame]
    exact ⟨ho, hc⟩
  · obtain ⟨resolved, all, hresolve, hstore⟩ := Store.replace_ok hreplace
    have ho' := ho.eraseAll conflicts
    have hc' := hc.eraseAll conflicts
    obtain ⟨-, hlinked⟩ := Timeline.resolve_linked (Store.answers_archive ho' hc') hresolve
    exact ⟨ho'.importSpans hstore, Store.Chained.importSpans ho' hc' hlinked hstore⟩

theorem linked_reached (requests : List Request) :
    (reached requests).Ordered ∧ (reached requests).Chained :=
  reached_induction (P := fun store => store.Ordered ∧ store.Chained)
    ⟨Store.Ordered.empty, Store.Chained.empty⟩ fun _ r _ h => linked_apply h r

/-- In every store that imports reach, a session that goes on with another one names a stored
session with a smaller number, which is paused and itself goes on with no other. -/
theorem reached_linked (requests : List Request) :
    ∀ r ∈ (reached requests).rows, ∀ v, r.continues = some v →
      ∃ t ∈ (reached requests).rows, t.id.value = v ∧ v < r.id.value ∧ t.state = "paused" ∧
        t.continues = none :=
  (linked_reached requests).2

theorem isCivil_sampleDay : IsCivil 2024 3 1 := by decide

def sampleDay : Date := ⟨2024, 3, 1, isCivil_sampleDay⟩

/-- Work that is paused in one log and gone on with in the next. -/
def pausedAndResumed : List Request :=
  [{ options := {}, base := sampleDay, text := "9:00 Report @a\n9:30 @pause" },
    { options := {}, base := sampleDay, text := "2024-03-02 8:00 @resume" }]

theorem reached_linked_pausedAndResumed :
    ∃ t ∈ (reached pausedAndResumed).rows, t.id.value = 1 ∧ t.state = "paused" ∧
      t.continues = none := by
  have hlink : ∃ r ∈ (reached pausedAndResumed).rows, r.continues = some 1 := by decide +kernel
  obtain ⟨r, hr, hv⟩ := hlink
  obtain ⟨t, ht, hid, -, hstate, hnone⟩ := reached_linked pausedAndResumed r hr 1 hv
  exact ⟨t, ht, hid, hstate, hnone⟩

end Daybook.Import
