import Daybook.Proofs.Import.Carried
import Daybook.Proofs.Timeline.Resume
import Daybook.Report.Check

/-!
# Logs that were checked

A check looks at a log alone, and an import also looks at the store. Where nothing is stored they
agree: the log is stored when the check finds nothing wrong with it, and what is stored are the
entries that the check reports. All that the store adds is which work is gone on with.

* `ofText_problems_eq_nil_iff` : when a check finds nothing.
* `checked_iff` : logs without a problem, and what an empty store makes of them.
-/

namespace Daybook.Import

open Store (numberAt linkNumber)
open Timeline (Asks)

/-! ## What a check reports -/

variable {r : Request}

/-- A check finds nothing exactly when the log has no fault of its own. -/
theorem ofText_problems_eq_nil_iff (r : Request) :
    (CheckReport.ofText r.base r.text).problems = [] ↔
      r.log.isClean = true ∧ Timeline.selfOverlaps r.spans = [] := by
  have hclean : (Log.ofText r.base r.text).problems = [] ↔ r.log.isClean = true :=
    List.isEmpty_iff.symm
  simp only [CheckReport.ofText, List.append_eq_nil_iff, hclean]
  refine and_congr_right fun h => ?_
  rw [Request.log] at h
  rw [if_pos h]
  rfl

theorem ofText_spans (h : r.log.isClean = true) :
    (CheckReport.ofText r.base r.text).spans = r.spans := by
  rw [Request.log] at h
  simp only [CheckReport.ofText, if_pos h]
  rfl

/-! ## Imports into an empty store -/

/-- A store of which all sessions were removed, if it ever had any. -/
def emptied (lastId : Nat) : Store :=
  { lastId }

variable {lastId : Nat}

theorem readable_emptied : (emptied lastId).Readable := by
  simp [emptied, Store.Readable]

theorem sound_emptied : (emptied lastId).Sound where
  nested := ⟨⟨List.Pairwise.nil, by simp [emptied]⟩, by simp [emptied]⟩
  tags := by simp [emptied]

theorem conflicts_emptied (spans : List Span) : (emptied lastId).conflicts spans = .ok [] :=
  Store.conflicts_eq_nil fun _ hrow => absurd hrow List.not_mem_nil

/-- An import into an empty store succeeds exactly when the log has no fault of its own. -/
theorem exists_summary_iff (r : Request) :
    (∃ summary, (run (emptied lastId) r.options r.base r.text).result = .ok summary) ↔
      r.log.isClean = true ∧ Timeline.selfOverlaps r.spans = [] := by
  have hends := run_ends (emptied lastId) r
  generalize (run (emptied lastId) r.options r.base r.text).result = result at hends ⊢
  constructor
  · rintro ⟨summary, rfl⟩
    generalize Request.apply (emptied lastId) r = after at hends
    cases hends with
    | nothing hclean hnone => exact ⟨hclean, by rw [hnone]; rfl⟩
    | planned hmeets => exact ⟨hmeets.clean, hmeets.apart⟩
    | stored hmeets => exact ⟨hmeets.clean, hmeets.apart⟩
  · rintro ⟨hclean, hapart⟩
    rcases result_of_readable readable_emptied hends with
      hok | ⟨hfaults, -⟩ | ⟨hoverlaps, -⟩ | ⟨conflicts, hfound, hsome, -⟩
    · exact hok
    · exact absurd (hfaults.symm.trans hclean) Bool.noConfusion
    · exact absurd hapart hoverlaps
    · -- nothing that is stored can stand in the way
      rw [conflicts_emptied] at hfound
      exact absurd (Except.ok.inj hfound).symm hsome

/-! ## The sessions that are stored -/

/-- The session at position `k` is the span `s`, which is at the same position among the spans of
a report, under the number of this position. Only an entry that says nothing but to go on has
other words for what was done, and only links that lead to entries that ask for work differ. -/
structure Corresponds (lastId : Nat) (spans : List Span) (sessions : List Session) (k : Nat)
    (s : Span) (session : Session) : Prop where
  id : session.id = numberAt lastId k
  start : session.start = s.start
  stop : session.stop = s.stop
  state : session.state = s.state
  estimate : session.estimate = s.entry.estimate
  remark : session.remark = s.entry.remark
  parent : session.parent = s.parent.map (numberAt lastId)
  named : ¬ (s.entry.resume = some .latest ∧ s.entry.isBare = true) →
    session.description = s.entry.description ∧ session.project = s.entry.project ∧
      session.tags = s.entry.tags
  link : ¬ Asks s → (∀ j t, s.continues = some (.entry j) → spans[j]? = some t → ¬ Asks t) →
    session.continues = s.continues.map (linkNumber lastId)
  chain : ∀ j, s.continues = some (.entry j) →
    ∃ target, sessions[j]? = some target ∧
      session.continues = some (target.continues.getD target.id)

section Resolved

variable {ε : Type} {archive : Archive ε} {events : List Event} {resolved : List Span} {k : Nat}
  {t s : Span}

/-- Links of spans that ask for no work stay as they are. -/
theorem continues_of_not_asks
    (h : Timeline.resolve archive (Timeline.ofEvents events) = .ok resolved)
    (ht : (Timeline.ofEvents events)[k]? = some t) (hs : resolved[k]? = some s) (hasks : ¬ Asks t)
    (htarget : ∀ j u, t.continues = some (.entry j) → (Timeline.ofEvents events)[j]? = some u →
      ¬ Asks u) : s.continues = t.continues := by
  rw [Timeline.eq_of_resumeFilter_none h ht hs (Timeline.resumeFilter_eq_none_iff.mpr hasks)]
  show Timeline.startLink resolved t = t.continues
  cases hlink : t.continues with
  | none => rw [Timeline.startLink, hlink]
  | some link =>
    cases link with
    | session id => rw [Timeline.startLink, hlink]
    | entry j =>
      have hlinked : Timeline.Linked Timeline.IsPausedStart (fun _ => True)
          (Timeline.ofEvents events) := Timeline.linked_ofEvents events
      obtain ⟨-, u, hu, -, hnone⟩ := hlinked.target ht hlink
      obtain ⟨v, hv, -⟩ := Timeline.exists_chainStart_of_resolve h ht hs hlink
      -- the target has no link in the timeline, and it gets none
      have hfilter := Timeline.resumeFilter_eq_none_iff.mpr (htarget j u hlink hu)
      have hend : v.continues = none := by
        rw [Timeline.eq_of_resumeFilter_none h hu hv hfilter]
        show Timeline.startLink resolved u = none
        rw [Timeline.startLink, hnone]
      rw [Timeline.startLink_of_entry hv hlink, Span.chainStart, hend, Option.getD_none]

/-- The spans of a log with their links are stored as the sessions that correspond to them. -/
theorem corresponds_of_resolve (lastId : Nat)
    (h : Timeline.resolve archive (Timeline.ofEvents events) = .ok resolved)
    (ht : (Timeline.ofEvents events)[k]? = some t) (hs : resolved[k]? = some s) :
    Corresponds lastId (Timeline.ofEvents events) (resolved.mapIdx (sessionAt lastId)) k t
      (sessionAt lastId k s) := by
  obtain ⟨entry, link, heq, hentry⟩ := (Timeline.resumed_of_resolve h ht hs).kept
  -- what an entry takes over is only what was done
  have hsame : entry.timestamp = t.entry.timestamp ∧ entry.estimate = t.entry.estimate ∧
      entry.remark = t.entry.remark := by
    rcases hentry with rfl | ⟨-, -, work, rfl⟩
    · exact ⟨rfl, rfl, rfl⟩
    · cases work <;> exact ⟨rfl, rfl, rfl⟩
  constructor
  case id => rfl
  case start => rw [sessionAt, heq]; exact hsame.1
  case stop => rw [sessionAt, heq]
  case state => rw [sessionAt, heq]
  case estimate => rw [sessionAt, heq]; exact hsame.2.1
  case remark => rw [sessionAt, heq]; exact hsame.2.2
  case parent => rw [sessionAt, heq]
  case named =>
    intro hnamed
    rcases hentry with rfl | ⟨hlatest, hbare, -⟩
    · rw [sessionAt, heq]
      exact ⟨rfl, rfl, rfl⟩
    · exact absurd ⟨hlatest, hbare⟩ hnamed
  case link =>
    intro hasks htarget
    rw [sessionAt, continues_of_not_asks h ht hs hasks htarget]
  case chain =>
    intro j hj
    obtain ⟨v, hv, hlink⟩ := Timeline.exists_chainStart_of_resolve h ht hs hj
    refine ⟨sessionAt lastId j v, by rw [List.getElem?_mapIdx, hv, Option.map_some], ?_⟩
    simp only [sessionAt, hlink, Span.chainStart]
    cases v.continues <;> rfl

end Resolved

/-- An import in earnest into an empty store leaves a row for each session of the log, which reads
as the session. -/
theorem exists_sessions (hbase : r.base.FourDigit) (hdry : r.options.dryRun = false)
    (hclean : r.log.isClean = true) (hapart : Timeline.selfOverlaps r.spans = []) :
    ∃ resolved, Timeline.resolve (emptied lastId).archive r.spans = .ok resolved ∧
      (Request.apply (emptied lastId) r).rows.map Row.session =
        (resolved.mapIdx (sessionAt lastId)).map .ok := by
  obtain ⟨summary, hok⟩ := (exists_summary_iff r).mpr ⟨hclean, hapart⟩
  obtain ⟨ids, resolved, hcarried, -⟩ := carried_of_ok hdry hok
  -- there was nothing to be removed
  obtain rfl : [] = ids := Except.ok.inj ((conflicts_emptied r.spans).symm.trans hcarried.found)
  have hresolve : Timeline.resolve (emptied lastId).archive r.spans = .ok resolved :=
    hcarried.linked
  have hrows : (Request.apply (emptied lastId) r).rows =
      resolved.mapIdx (Store.rowAt lastId) := hcarried.rows
  have htags := nodup_tags_resolved sound_emptied hresolve
  have hbounds := isWithinCalendar_of_frames hcarried.frames (isWithinCalendar_of_fourDigit hbase)
  refine ⟨resolved, hresolve, ?_⟩
  rw [hrows]
  apply List.ext_getElem?
  intro k
  simp only [List.getElem?_map, List.getElem?_mapIdx, Option.map_map]
  cases hs : resolved[k]? with
  | none => rfl
  | some s =>
    have hmem := List.mem_of_getElem? hs
    have hread : (sessionAt lastId k s).row.session = .ok (sessionAt lastId k s) :=
      Store.session_row (hbounds s hmem)
    simp only [Option.map_some, Function.comp_apply, rowAt_eq lastId k (htags s hmem), hread]

/-- For every text and every date in a year of four digits, a check finds nothing exactly when an
empty store takes the text in. After an import in earnest, the sessions that are stored are, in
order, the entries that the check reports, with the links that the markers call for. -/
theorem checked_iff (base : Date) (hbase : base.FourDigit) (text : String) (lastId : Nat)
    (options : Options) :
    let report := CheckReport.ofText base text
    let outcome := run (emptied lastId) options base text
    (report.problems = [] ↔ ∃ summary, outcome.result = .ok summary) ∧
      (report.problems = [] → options.dryRun = false →
        ∃ resolved sessions, Timeline.resolve (emptied lastId).archive report.spans = .ok resolved ∧
          sessions = resolved.mapIdx (sessionAt lastId) ∧
          outcome.store.rows.map Row.session = sessions.map .ok ∧
          sessions.length = report.spans.length ∧
          ∀ k s session, report.spans[k]? = some s → sessions[k]? = some session →
            Corresponds lastId report.spans sessions k s session) := by
  intro report outcome
  let r : Request := { options, base, text }
  have hproblems : report.problems = [] ↔
      r.log.isClean = true ∧ Timeline.selfOverlaps r.spans = [] := ofText_problems_eq_nil_iff r
  refine ⟨hproblems.trans (exists_summary_iff r).symm, ?_⟩
  intro hnone hdry
  obtain ⟨hclean, hapart⟩ := hproblems.mp hnone
  obtain ⟨resolved, hresolve, hsessions⟩ := exists_sessions (r := r) hbase hdry hclean hapart
  have hspans : report.spans = r.spans := ofText_spans hclean
  rw [hspans]
  refine ⟨resolved, _, hresolve, rfl, hsessions, ?_, ?_⟩
  · rw [List.length_mapIdx, Timeline.length_resolve hresolve]
  · intro k t session ht hsession
    rw [List.getElem?_mapIdx, Option.map_eq_some_iff] at hsession
    obtain ⟨s, hs, rfl⟩ := hsession
    exact corresponds_of_resolve lastId hresolve ht hs

/-- A report that a call interrupts and that is gone on with, and a draft that goes on with the
same work by number. -/
def resumedReport : String :=
  "9:00 Report +docs ~90m\n  9:20 Call\n  9:30 @end\n10:00 @pause\n10:00 @resume\n11:00 @pause\n" ++
    "11:00 Draft @3\n12:00 @end"

/-- The second piece of the report takes over what the first says, and the draft, which names the
second piece, is stored with a link to the first. -/
theorem checked_iff_resumedReport :
    (CheckReport.ofText sampleDay resumedReport).spans.map
        (fun s => (s.entry.description, s.parent, s.continues)) =
      [("Report", none, none), ("Call", some 0, none), ("", none, none),
        ("Draft", none, some (.entry 2))] ∧
    (run (emptied 4) {} sampleDay resumedReport).store.rows.map
        (fun row => (row.id.value, row.description, row.parent, row.continues)) =
      [(5, "Report", none, none), (6, "Call", some 5, none), (7, "Report", none, some 5),
        (8, "Draft", none, some 5)] ∧
    ∃ sessions, (run (emptied 4) {} sampleDay resumedReport).store.rows.map Row.session =
        sessions.map .ok ∧
      ∀ k s session, (CheckReport.ofText sampleDay resumedReport).spans[k]? = some s →
        sessions[k]? = some session →
          Corresponds 4 (CheckReport.ofText sampleDay resumedReport).spans sessions k s session := by
  obtain ⟨-, hstored⟩ := checked_iff sampleDay (by decide) resumedReport 4 {}
  have hnone : (CheckReport.ofText sampleDay resumedReport).problems = [] := by decide +kernel
  obtain ⟨resolved, sessions, -, -, hrows, -, hall⟩ := hstored hnone rfl
  exact ⟨by decide +kernel, by decide +kernel, sessions, hrows, hall⟩

end Daybook.Import
