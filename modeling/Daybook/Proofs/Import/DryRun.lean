import Daybook.Proofs.Import.Carried

/-!
# What a dry run foretells

A dry run looks at the store as it is, with the sessions that would be replaced still there. It
is refused exactly as the import in earnest is, and otherwise it names the numbers that the import
comes to: sessions, interruptions and replaced sessions always, and continuations as well where
nothing is to be replaced. It is silent about one failure, since it removes nothing: that
interruptions are nested too deep for a removal to reach them.

* `foretold_reached` : what an import in earnest comes to, next to a dry run of it.
-/

namespace Daybook.Import

variable {store : Store} {r : Request} {ids : List SessionId} {spans : List Span}

/-! ## Two imports of one log -/

/-- The import as a dry run. -/
def Request.rehearse (store : Store) (r : Request) : Outcome :=
  run store { dryRun := true, overwrite := r.options.overwrite } r.base r.text

/-- The import in earnest. -/
def Request.perform (store : Store) (r : Request) : Outcome :=
  run store { dryRun := false, overwrite := r.options.overwrite } r.base r.text

/-- The log has no fault of its own and may replace a session that something is too far below. -/
structure Blocked (store : Store) (r : Request) : Prop where
  clean : r.log.isClean = true
  apart : Timeline.selfOverlaps r.spans = []
  overwrite : r.options.overwrite = true
  deep : ∃ ids, store.conflicts r.spans = .ok ids ∧
    ∃ id ∈ ids, ∃ row ∈ store.rows, store.IsBeyond id.value row

/-- The numbers of a dry run are those of the import in earnest, except that continuations may
differ when sessions are replaced. -/
structure Agrees (store : Store) (r : Request) (planned done : Summary) : Prop where
  sessions : planned.sessions = done.sessions
  interruptions : planned.interruptions = done.interruptions
  replaced : planned.replaced = done.replaced
  continuations : store.conflicts r.spans = .ok [] → planned.continuations = done.continuations

theorem Agrees.refl (store : Store) (r : Request) (summary : Summary) :
    Agrees store r summary summary :=
  ⟨rfl, rfl, rfl, fun _ => rfl⟩

/-- When a log does not get as far as the store, it does not matter what its import may do. -/
theorem run_eq_of_ended (h : ¬ (r.log.isClean = true ∧ r.spans ≠ [] ∧
    Timeline.selfOverlaps r.spans = [])) (options options' : Options) :
    run store options r.base r.text = run store options' r.base r.text := by
  have hspans : Timeline.ofEvents r.log.events = r.spans := rfl
  rw [run_eq_runLog, run_eq_runLog]
  unfold runLog
  simp only [hspans]
  by_cases hclean : r.log.isClean = true
  · by_cases hnone : r.spans = []
    · simp only [hclean, hnone, Bool.not_true, Bool.false_eq_true, if_false, if_true]
    · have hoverlaps : Timeline.selfOverlaps r.spans ≠ [] :=
        fun hapart => h ⟨hclean, hnone, hapart⟩
      simp only [if_neg hnone, if_pos hoverlaps]
  · have hproblems : (!r.log.isClean) = true := by simpa using hclean
    simp only [if_pos hproblems]

/-! ## The plan -/

/-- Where every row can be read, the plan can be made. -/
theorem exists_result_plan (h : store.Readable) (ids : List SessionId) (spans : List Span) :
    ∃ resolved, Timeline.resolve store.archive spans = .ok resolved ∧
      (plan store ids spans).result = .ok (.ofSpans resolved ids.length) := by
  obtain ⟨resolved, hresolve⟩ := Timeline.exists_resolve (Store.answering_archive h) spans
  refine ⟨resolved, hresolve, ?_⟩
  rw [plan, hresolve]
  simp only
  split
  · next output cause hfailed =>
    exact absurd (mem_of_untilError hfailed) (error_notMem_planParts h _ _ _)
  · rfl

/-- Spans with the same frames are as many, and as many of them are interruptions. -/
theorem ofSpans_of_frames {a b : List Span}
    (h : a.map Timeline.frame = b.map Timeline.frame) (m n : Nat) :
    (Summary.ofSpans a m).sessions = (Summary.ofSpans b n).sessions ∧
      (Summary.ofSpans a m).interruptions = (Summary.ofSpans b n).interruptions := by
  have hcount : ∀ spans : List Span, (spans.countP fun s => s.parent.isSome) =
      (spans.map Timeline.frame).countP fun f => f.2.2.2.isSome := by
    intro spans
    rw [List.countP_map]
    rfl
  refine ⟨?_, ?_⟩
  · show a.length = b.length
    simpa using congrArg List.length h
  · rw [Summary.ofSpans, Summary.ofSpans, hcount, hcount, h]

/-- The import in earnest of a log that could be planned reaches too deep, or it comes to the
numbers of the plan. -/
theorem agrees_or_tooDeep (h : store.Readable) (hn : store.Nested)
    (hfound : store.conflicts r.spans = .ok ids) {resolved : List Span}
    (hresolve : Timeline.resolve store.archive r.spans = .ok resolved) :
    (store.goesTooDeep ids = true ∧
        (carryOut store ids r.spans).result = .error (.storing .tooDeep)) ∨
      (store.goesTooDeep ids = false ∧ ∃ done, (carryOut store ids r.spans).result = .ok done ∧
        Agrees store r (.ofSpans resolved ids.length) done) := by
  cases hdeep : store.goesTooDeep ids with
  | true =>
    have hreplace : store.replace ids r.spans = .error .tooDeep := by
      rw [Store.replace, Store.removeAll_of_deep hdeep]
      rfl
    exact .inl ⟨rfl, (carryOut_of_error hreplace).1⟩
  | false =>
    obtain ⟨⟨after, done⟩, hreplace⟩ := exists_replace h hdeep r
    obtain ⟨left, all, hleft, -, rfl⟩ := Store.steps_of_replace hreplace
    refine .inr ⟨rfl, _, (carryOut_of_ok hreplace).1, ?_⟩
    -- both times links are made for the same spans, only in different stores
    have hframes : resolved.map Timeline.frame = left.map Timeline.frame :=
      (Timeline.resolve_linked (Store.answers_isStored _) hresolve).1.trans
        (Timeline.resolve_linked (Store.answers_isStored _) hleft).1.symm
    obtain ⟨hsessions, hinterruptions⟩ :=
      ofSpans_of_frames hframes ids.length (store.eraseAll ids).2
    refine ⟨hsessions, hinterruptions, ?_, ?_⟩
    · exact ((Store.areTop_conflicts hfound).count_eraseAll hn).symm
    · intro hnone
      obtain rfl := Except.ok.inj (hfound.symm.trans hnone)
      obtain rfl := Except.ok.inj (hresolve.symm.trans hleft)
      rfl

/-! ## What a dry run foretells -/

/-- An import of a log without a fault of its own is blocked when it may overwrite and the removals
reach too deep. -/
theorem blocked_iff (hn : store.Nested) (hclean : r.log.isClean = true)
    (hapart : Timeline.selfOverlaps r.spans = []) (hfound : store.conflicts r.spans = .ok ids) :
    Blocked store r ↔ r.options.overwrite = true ∧ store.goesTooDeep ids = true := by
  rw [(Store.areTop_conflicts hfound).goesTooDeep_iff hn]
  constructor
  · intro h
    obtain ⟨ids', hfound', hdeep⟩ := h.deep
    obtain rfl := Except.ok.inj (hfound.symm.trans hfound')
    exact ⟨h.overwrite, hdeep⟩
  · rintro ⟨hoverwrite, hdeep⟩
    exact ⟨hclean, hapart, hoverwrite, ids, hfound, hdeep⟩

theorem Blocked.nonempty (h : Blocked store r) : r.spans ≠ [] := by
  intro hnone
  obtain ⟨ids, hfound, id, hid, -⟩ := h.deep
  rw [hnone, Store.conflicts_nil] at hfound
  rw [← Except.ok.inj hfound] at hid
  exact List.not_mem_nil hid

/-- What a dry run says of the import in earnest: unless that is blocked, it ends in all as the dry
run does when this is refused, and otherwise comes to the numbers that the dry run names. -/
structure Foretold (store : Store) (r : Request) : Prop where
  blocked : Blocked store r → (∃ planned, (r.rehearse store).result = .ok planned) ∧
    (r.perform store).result = .error (.storing .tooDeep)
  free : ¬ Blocked store r →
    ((∃ refusal, (r.rehearse store).result = .error refusal) ∧
        r.perform store = r.rehearse store) ∨
      ∃ planned done, (r.rehearse store).result = .ok planned ∧
        (r.perform store).result = .ok done ∧ Agrees store r planned done

/-- Imports that end in the same way whatever they may do are foretold. -/
theorem foretold_of_same (hfree : ¬ Blocked store r) (h : r.perform store = r.rehearse store) :
    Foretold store r where
  blocked hblocked := absurd hblocked hfree
  free _ := by
    cases hresult : (r.rehearse store).result with
    | error refusal => exact .inl ⟨⟨refusal, rfl⟩, h⟩
    | ok summary => exact .inr ⟨summary, summary, rfl, h ▸ hresult, .refl store r summary⟩

/-- Imports that may go on to the store are foretold. -/
theorem foretold_of_allowed (h : store.Readable) (hn : store.Nested) (hmeets : Meets store r ids)
    (hallowed : ids = [] ∨ r.options.overwrite = true) : Foretold store r := by
  have hblocked := blocked_iff hn hmeets.clean hmeets.apart hmeets.found
  obtain ⟨notice, hruns⟩ := runSpans_eq_after hmeets.found hallowed (exists_lostLinks h ids)
  -- up to the plan both imports take the same steps
  have hdry : (r.rehearse store).result = (plan store ids r.spans).result := by
    rw [Request.rehearse, run_eq_runSpans store _ hmeets.clean hmeets.apart hmeets.nonempty, hruns,
      Outcome.result_after, Outcome.result_after, if_pos rfl]
  have hearnest : (r.perform store).result = (carryOut store ids r.spans).result := by
    rw [Request.perform, run_eq_runSpans store _ hmeets.clean hmeets.apart hmeets.nonempty, hruns,
      Outcome.result_after, Outcome.result_after, if_neg Bool.false_ne_true]
  obtain ⟨resolved, hresolve, hplan⟩ := exists_result_plan h ids r.spans
  rcases agrees_or_tooDeep h hn hmeets.found hresolve with
    ⟨hdeep, hresult⟩ | ⟨hshallow, done, hresult, hagrees⟩
  · have hoverwrite : r.options.overwrite = true := by
      refine hallowed.resolve_left ?_
      rintro rfl
      exact Bool.noConfusion hdeep
    exact ⟨fun _ => ⟨⟨_, hdry.trans hplan⟩, hearnest.trans hresult⟩,
      fun hfree => absurd (hblocked.mpr ⟨hoverwrite, hdeep⟩) hfree⟩
  · refine ⟨fun hdeep => ?_, fun _ => .inr ⟨_, done, hdry.trans hplan, hearnest.trans hresult,
      hagrees⟩⟩
    exact absurd (hshallow.symm.trans (hblocked.mp hdeep).2) Bool.noConfusion

/-- Imports of a log whose conflicts may not be replaced are foretold. -/
theorem foretold_of_kept (hmeets : Meets store r ids) (hsome : ids ≠ [])
    (hkeep : r.options.overwrite = false) : Foretold store r := by
  refine foretold_of_same (fun h => absurd (hkeep.symm.trans h.overwrite) Bool.noConfusion) ?_
  have hrefused : ∀ dryRun, run store { dryRun, overwrite := r.options.overwrite } r.base r.text =
      (refuseConflicts store ids).after (warningLines r.log.warnings) := by
    intro dryRun
    have hkeep' : ({ dryRun, overwrite := r.options.overwrite } : Options).overwrite = false := hkeep
    rw [run_eq_runSpans store _ hmeets.clean hmeets.apart hmeets.nonempty,
      runSpans_eq_refuseConflicts hmeets.found hsome hkeep']
  exact (hrefused false).trans (hrefused true).symm

/-- In every store that imports reach, a dry run foretells the import in earnest. It is silent only
when the removals reach too deep. -/
theorem foretold_reached (requests : List Request)
    (hrequests : ∀ q ∈ requests, ∀ s ∈ q.spans, IsWithinCalendar s.start s.stop) (r : Request) :
    Foretold (reached requests) r := by
  have hreadable := readable_reached hrequests
  by_cases hstarts : r.log.isClean = true ∧ r.spans ≠ [] ∧ Timeline.selfOverlaps r.spans = []
  · obtain ⟨hclean, hsome, hapart⟩ := hstarts
    obtain ⟨ids, hfound⟩ := Store.exists_conflicts hreadable r.spans
    have hmeets : Meets (reached requests) r ids := ⟨hclean, hsome, hapart, hfound⟩
    by_cases hallowed : ids = [] ∨ r.options.overwrite = true
    · exact foretold_of_allowed hreadable (sound_reached requests).nested hmeets hallowed
    · obtain ⟨hfull, hkeep⟩ := not_or.mp hallowed
      exact foretold_of_kept hmeets hfull (Bool.eq_false_iff.mpr hkeep)
  · exact foretold_of_same (fun h => hstarts ⟨h.clean, h.nonempty, h.apart⟩)
      (run_eq_of_ended hstarts _ _)

/-- Work that is gone on with from within the time that is stored for it. -/
def resumedEarly : Request :=
  { options := { overwrite := true }, base := sampleDay, text := "9:15 @resume" }

/-- The dry run still finds the work to go on with, and the import in earnest has replaced it. -/
example :
    let store := reached (pausedAndResumed.take 1)
    (resumedEarly.rehearse store).result =
        .ok { sessions := 1, continuations := 1, replaced := 1 } ∧
      (resumedEarly.perform store).result = .ok { sessions := 1, replaced := 1 } := by
  decide +kernel

end Daybook.Import
