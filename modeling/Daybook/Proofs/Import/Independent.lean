import Daybook.Proofs.Import.Carried
import Daybook.Proofs.Store.Renumbering

/-!
# Logs that do not depend on each other

A log in which no entry looks for work to go on with does not ask what is stored, except whether
something overlaps it, and overlapping is mutual. So two such logs can be imported in either
order, and what is stored then is the same but for the numbers of the two logs.

* `run_comm` : two imports in the other order.
-/

namespace Daybook

namespace Timeline

variable {ε : Type}

/-! ## Logs that look for nothing -/

/-- Where no entry looks for work, nothing is asked of the archive. -/
theorem resolveFrom_of_unasked (archive : Archive ε) (earlier : List Span) {spans : List Span}
    (h : ∀ s ∈ spans, resumeFilter s.entry = none) :
    resolveFrom archive earlier spans = .ok spans := by
  induction spans generalizing earlier with
  | nil => rfl
  | cons s rest ih =>
    have hhead : resolveSpan archive earlier s = .ok s := by
      rw [resolveSpan, h s List.mem_cons_self]
    have htail := ih (earlier ++ [s]) fun t ht => h t (List.mem_cons_of_mem _ ht)
    exact bind_eq_ok.mpr ⟨s, hhead, bind_eq_ok.mpr ⟨rest, htail, rfl⟩⟩

theorem resolve_of_unasked (archive : Archive ε) {spans : List Span}
    (h : ∀ s ∈ spans, resumeFilter s.entry = none) :
    resolve archive spans = .ok (linkToStarts [] spans) :=
  bind_eq_ok.mpr ⟨spans, resolveFrom_of_unasked archive [] h, rfl⟩

end Timeline

namespace Import

open Store (MeetsTop numberAt rowAt)

/-- No entry of the log goes on with the work paused last, or with the work paused last of some
kind. -/
def Request.StandsAlone (r : Request) : Prop :=
  ∀ e ∈ r.log.events.filterMap Event.entry?,
    e.resume ≠ some .latest ∧ e.resume ≠ some .previous

instance (r : Request) : Decidable r.StandsAlone :=
  inferInstanceAs (Decidable (∀ e ∈ _, _))

variable {store after : Store} {r : Request} {ids : List SessionId} {resolved : List Span}

/-- The spans of the log with all their links, if the log stands alone. -/
def Request.linked (r : Request) : List Span :=
  Timeline.linkToStarts [] r.spans

theorem Request.StandsAlone.resolve (h : r.StandsAlone) (store : Store) :
    Timeline.resolve store.archive r.spans = .ok r.linked := by
  apply Timeline.resolve_of_unasked
  intro s hs
  have hentry := Timeline.entry_mem_of_mem_ofEvents hs
  obtain ⟨hlatest, hprevious⟩ := h s.entry (List.mem_filterMap.mpr ⟨_, hentry, rfl⟩)
  unfold Timeline.resumeFilter
  split
  · next heq => exact absurd heq hlatest
  · next heq => exact absurd heq hprevious
  · rfl

/-! ## One import -/

/-- A log that stands alone was stored after all that was there. -/
theorem carried_of_standsAlone (halone : r.StandsAlone) (hoptions : r.options = {})
    {summary : Summary}
    (hok : (run store r.options r.base r.text).result = .ok summary) :
    Carried store r [] r.linked (Request.apply store r) ∧ summary = .ofSpans r.linked 0 := by
  have hdry : r.options.dryRun = false := by rw [hoptions]
  obtain ⟨ids, resolved, h, hsummary⟩ := carried_of_ok hdry hok
  obtain rfl : ids = [] := by
    refine h.allowed.resolve_right ?_
    rw [hoptions]
    exact Bool.false_ne_true
  obtain rfl : r.linked = resolved := Except.ok.inj ((halone.resolve _).symm.trans h.linked)
  exact ⟨h, hsummary⟩

/-- The import of a log that stands alone succeeds when nothing that is stored overlaps it. -/
theorem run_of_free (halone : r.StandsAlone) (hoptions : r.options = {})
    (hclean : r.log.isClean = true) (hapart : Timeline.selfOverlaps r.spans = [])
    (hfree : ∀ row ∈ store.rows, ¬ MeetsTop row r.spans) :
    (run store r.options r.base r.text).result = .ok (.ofSpans r.linked 0) := by
  have hdry : r.options.dryRun = false := by rw [hoptions]
  obtain ⟨hresult, -⟩ := run_eq_carryOut hclean hapart
    (Store.conflicts_eq_nil hfree) (.inl rfl) ⟨_, rfl⟩ hdry
  have hresolve := halone.resolve store
  obtain ⟨⟨after, all⟩, hstore⟩ := Store.exists_importSpans (isStorable_of_resolve hresolve)
  have hremove : store.removeAll [] = .ok (store, 0) := rfl
  have hreplace := Store.replace_of_steps hremove hresolve hstore
  rw [hresult, (carryOut_of_ok hreplace).1]

theorem Carried.rows_of_nil (h : Carried store r [] resolved after) :
    after.rows = store.rows ++ resolved.mapIdx (rowAt store.lastId) :=
  h.rows

/-- What an import that replaced nothing found in the store does not overlap its log. -/
theorem Carried.not_meetsTop (h : Carried store r [] resolved after) :
    ∀ row ∈ store.rows, ¬ MeetsTop row r.spans := by
  intro row hrow hmeets
  exact List.not_mem_nil ((Store.mem_conflicts_iff h.found).mpr ⟨row, hrow, rfl, hmeets⟩)

/-! ## Two imports -/

/-- When no row of one log overlaps another log, it is so the other way round. -/
theorem not_meetsTop_rowAt_comm {a b : Request} {as bs : List Span}
    (has : as.map Timeline.frame = a.spans.map Timeline.frame)
    (hbs : bs.map Timeline.frame = b.spans.map Timeline.frame) {lastId lastId' : Nat}
    (h : ∀ (j : Nat) (s : Span), as[j]? = some s → ¬ MeetsTop (rowAt lastId j s) b.spans) {k : Nat}
    {t : Span} (ht : bs[k]? = some t) : ¬ MeetsTop (rowAt lastId' k t) a.spans := by
  rintro ⟨htop, u, hu, hutop, hmeets⟩
  rw [Store.parent_rowAt_eq_none_iff] at htop
  obtain ⟨j, hj⟩ := List.getElem?_of_mem hu
  obtain ⟨s, hs, hstart, hstop, -, hparent⟩ := Timeline.exists_of_map_frame has.symm hj
  obtain ⟨v, hv, hvstart, hvstop, -, hvparent⟩ := Timeline.exists_of_map_frame hbs ht
  -- the bounds of a span do not depend on its links
  rw [Store.rowMeets_rowAt_comm lastId' lastId k j ⟨hvstart.symm, hvstop.symm⟩
    ⟨hstart.symm, hstop.symm⟩] at hmeets
  refine h j s hs ⟨?_, v, List.mem_of_getElem? hv, hvparent.symm.trans htop, hmeets⟩
  rw [Store.parent_rowAt_eq_none_iff, ← hparent, hutop]

/-- When two logs that stand alone are imported one after the other, they can as well be imported
in the other order. Both imports succeed again and store as much as before, and the sessions that
are stored in the end are the same but for the numbers of the two logs. -/
theorem run_comm (operations : List Store.Operation) (a b : Request) (ha : a.StandsAlone)
    (hb : b.StandsAlone) (haoptions : a.options = {}) (hboptions : b.options = {})
    {stored stored' : Summary}
    (hfirst : (run (Store.after operations) a.options a.base a.text).result = .ok stored)
    (hsecond : (run (Request.apply (Store.after operations) a) b.options b.base b.text).result =
      .ok stored') :
    let before := Store.after operations
    (run before b.options b.base b.text).result = .ok stored' ∧
      (run (Request.apply before b) a.options a.base a.text).result = .ok stored ∧
      (Request.apply (Request.apply before a) b).SameButNumbers before.lastId
        (Request.apply (Request.apply before b) a) ∧
      (Request.apply (Request.apply before a) b).lastId =
        (Request.apply (Request.apply before b) a).lastId := by
  intro before
  obtain ⟨hafirst, rfl⟩ := carried_of_standsAlone ha haoptions hfirst
  obtain ⟨hbsecond, rfl⟩ := carried_of_standsAlone hb hboptions hsecond
  have hbfree := hbsecond.not_meetsTop
  rw [hafirst.rows_of_nil] at hbfree
  have hown : ∀ (j : Nat) (s : Span), a.linked[j]? = some s →
      ¬ MeetsTop (rowAt before.lastId j s) b.spans := fun j s hs =>
    hbfree _ (List.mem_append_right _ (Store.mem_mapIdx_rowAt.mpr ⟨j, s, hs, rfl⟩))
  -- nothing that was there before both overlaps the second log
  have hbok : (run before b.options b.base b.text).result = .ok (.ofSpans b.linked 0) :=
    run_of_free hb hboptions hbsecond.clean hbsecond.apart fun row hrow =>
      hbfree row (List.mem_append_left _ hrow)
  obtain ⟨hbfirst, -⟩ := carried_of_standsAlone hb hboptions hbok
  have haok : (run (Request.apply before b) a.options a.base a.text).result =
      .ok (.ofSpans a.linked 0) := by
    refine run_of_free ha haoptions hafirst.clean hafirst.apart fun row hrow => ?_
    rw [hbfirst.rows_of_nil] at hrow
    rcases List.mem_append.mp hrow with hrow | hrow
    · exact hafirst.not_meetsTop row hrow
    · obtain ⟨k, t, ht, rfl⟩ := Store.mem_mapIdx_rowAt.mp hrow
      exact not_meetsTop_rowAt_comm hafirst.frames hbfirst.frames hown ht
  obtain ⟨hasecond, -⟩ := carried_of_standsAlone ha haoptions haok
  refine ⟨hbok, haok, ?_, ?_⟩
  · have halength := Timeline.length_resolve hafirst.linked
    have hblength := Timeline.length_resolve hbfirst.linked
    refine Store.sameButNumbers_of_append (Store.sound_after operations).nested
      (Store.linksBack_after operations) hafirst.storable hbfirst.storable ?_ ?_
    · rw [hbsecond.rows_of_nil, hafirst.rows_of_nil, hafirst.lastId, halength]
    · rw [hasecond.rows_of_nil, hbfirst.rows_of_nil, hbfirst.lastId, hblength]
  · rw [hbsecond.lastId, hafirst.lastId, hasecond.lastId, hbfirst.lastId, Nat.add_assoc,
      Nat.add_assoc, Nat.add_comm b.spans.length]

/-- Work that is paused, and gone on with by its number. -/
def draftDay : Request :=
  { options := {}, base := sampleDay, text := "9:00 Draft\n9:30 @pause\n11:00 Proof @1 (5m)" }

/-- An interruption on the day before. -/
def callDay : Request :=
  { options := {}, base := sampleDay, text := "2024-02-29 9:00 Mail\n 9:10 Call\n9:30 @end" }

/-- The link and the interruption are stored in either order. -/
theorem run_comm_draftDay :
    (run (Request.apply (Store.after meetingWithNotes) callDay) draftDay.options draftDay.base
        draftDay.text).result = .ok { sessions := 2, continuations := 1 } ∧
      (Request.apply (Request.apply (Store.after meetingWithNotes) draftDay) callDay).SameButNumbers
        (Store.after meetingWithNotes).lastId
        (Request.apply (Request.apply (Store.after meetingWithNotes) callDay) draftDay) := by
  have hfirst : (run (Store.after meetingWithNotes) draftDay.options draftDay.base
      draftDay.text).result = .ok { sessions := 2, continuations := 1 } := by decide +kernel
  have hsecond : (run (Request.apply (Store.after meetingWithNotes) draftDay) callDay.options
      callDay.base callDay.text).result = .ok { sessions := 2, interruptions := 1 } := by
    decide +kernel
  obtain ⟨-, hagain, hsame, -⟩ := run_comm meetingWithNotes draftDay callDay (by decide +kernel)
    (by decide +kernel) rfl rfl hfirst hsecond
  exact ⟨hagain, hsame⟩

end Import

end Daybook
