import Daybook.Proofs.Import.Carried
import Daybook.Proofs.Timeline.Interruptions
import Daybook.Proofs.Timeline.Resume

/-!
# The order of work in time

The latest paused work of a store is looked for without regard to when the entry begins that asks
for it. So an entry of an earlier day goes on with work of a later one, if the log of the later
day comes first. Within a log in order of time this does not happen, and between logs it does not
as long as each entry that asks for work begins no earlier than all paused work that is stored.

* `reached_continues_future` : work that goes on with work that lies in its future.
* `reached_chronological` : imports after which no session does.
-/

namespace Daybook

/-- The work of a row begins at the moment. -/
def Row.BeginsAt (r : Row) (t : DateTime) : Prop :=
  momentOf r.id r.start = .ok t

namespace Store

variable {s : Store}

/-- No session goes on with one that begins later. -/
def Chronological (s : Store) : Prop :=
  ∀ r ∈ s.rows, ∀ t ∈ s.rows, r.continues = some t.id.value →
    ∀ a b, r.BeginsAt a → t.BeginsAt b → b ≤ a

/-! ## Moments of rows -/

theorem beginsAt_congr {r r' : Row} (h : r.core = r'.core) (t : DateTime) :
    r.BeginsAt t ↔ r'.BeginsAt t := by
  have hstart : r.core.start = r'.core.start := congrArg Row.start h
  rw [Row.BeginsAt, Row.BeginsAt, Row.id_eq_of_core h, show r.start = r'.start from hstart]

theorem eq_of_beginsAt_row {session : Session}
    (h : IsWithinCalendar session.start session.stop) {t : DateTime}
    (ht : session.row.BeginsAt t) : t = session.start :=
  Except.ok.inj (ht.symm.trans (momentOf_storedText session.id h.1))

theorem eq_of_beginsAt_rowAt {lastId k : Nat} {span : Span}
    (h : IsWithinCalendar span.start span.stop) {t : DateTime}
    (ht : (rowAt lastId k span).BeginsAt t) : t = span.start :=
  Except.ok.inj (ht.symm.trans (momentOf_storedText (numberAt lastId k) h.1))

/-! ## What changes keep -/

theorem Chronological.empty : empty.Chronological := by
  simp [Chronological, Store.empty]

/-- Removing sessions makes no links. -/
theorem Chronological.eraseAll (h : s.Chronological) (hn : s.Nested) (ids : List SessionId) :
    (s.eraseAll ids).1.Chronological := by
  intro r' hr' t' ht' hlink a b ha hb
  obtain ⟨r, hr, hleft⟩ := (mem_eraseAll_iff hn).mp hr'
  obtain ⟨t, ht, htleft⟩ := (mem_eraseAll_iff hn).mp ht'
  have hkept : r'.continues = r.continues := by
    refine hleft.kept fun hloses => ?_
    rw [hleft.cleared hloses] at hlink
    simp at hlink
  rw [hkept, htleft.id_eq] at hlink
  exact h r hr t ht hlink a b ((beginsAt_congr hleft.core a).mp ha)
    ((beginsAt_congr htleft.core b).mp hb)

/-- Spans in order of time are stored without a link forward in time, if they go on with no stored
session that begins later. -/
theorem Chronological.importSpans {store after : Store} {spans : List Span} {all : List SessionId}
    (h : store.Chronological) (ho : store.Ordered) (hc : store.Chained)
    (hlinked : Timeline.Linked Timeline.IsPausedStart store.IsStart spans)
    (hcalendar : ∀ s ∈ spans, IsWithinCalendar s.start s.stop)
    (hsorted : spans.Pairwise fun a b => a.start ≤ b.start)
    (hstored : ∀ (k : Nat) (s : Span), spans[k]? = some s → ∀ t ∈ store.rows,
      t.state = State.paused.word → s.continues = some (.session t.id) →
        ∀ b, t.BeginsAt b → b ≤ s.start)
    (hok : store.importSpans spans = .ok (after, all)) : after.Chronological := by
  have ho' := ho.importSpans hok
  obtain ⟨hrows, -, -⟩ := importSpans_ok hok
  intro r hr t ht hlink a b ha hb
  -- a row that the link is to is the row `t`
  have hunique : ∀ u ∈ after.rows, r.continues = some u.id.value → t = u := by
    intro u hu hlink'
    exact ho'.eq_of_id ht hu (Option.some.inj (hlink.symm.trans hlink'))
  have hold : ∀ u ∈ store.rows, u ∈ after.rows := by
    intro u hu
    rw [hrows]
    exact List.mem_append_left _ hu
  rcases List.mem_append.mp (hrows ▸ hr) with hr' | hr'
  · -- an old row has its link to an old one
    obtain ⟨u, hu, hid, -⟩ := hc r hr' _ hlink
    obtain rfl := hunique u (hold u hu) (by rw [hid, hlink])
    exact h r hr' t hu hlink a b ha hb
  · obtain ⟨k, s, hs, rfl⟩ := mem_mapIdx_rowAt.mp hr'
    obtain rfl := eq_of_beginsAt_rowAt (hcalendar s (List.mem_of_getElem? hs)) ha
    obtain ⟨id, hid, hvalue⟩ := Option.map_eq_some_iff.mp hlink
    obtain ⟨link, hcontinues, rfl⟩ := Option.map_eq_some_iff.mp hid
    cases link with
    | session id =>
      obtain ⟨u, hu, rfl, hpaused, -⟩ := hlinked k s hs _ hcontinues
      obtain rfl := hunique u (hold u hu) (by rw [hlink, ← hvalue]; rfl)
      exact hstored k s hs t hu hpaused hcontinues b hb
    | entry target =>
      obtain ⟨hlt, u, hu, -⟩ := hlinked.target hs hcontinues
      have hmem : rowAt store.lastId target u ∈ after.rows := by
        rw [hrows]
        exact List.mem_append_right _ (mem_mapIdx_rowAt.mpr ⟨target, u, hu, rfl⟩)
      obtain rfl := hunique _ hmem (by rw [hlink, ← hvalue]; rfl)
      obtain rfl := eq_of_beginsAt_rowAt (hcalendar u (List.mem_of_getElem? hu)) hb
      -- the target stands earlier in the log
      obtain ⟨hk, rfl⟩ := List.getElem?_eq_some_iff.mp hs
      obtain ⟨htarget, rfl⟩ := List.getElem?_eq_some_iff.mp hu
      exact List.pairwise_iff_getElem.mp hsorted target k htarget hk hlt

end Store

namespace Import

open Timeline (Asks)

/-! ## Imports in order -/

variable {store : Store} {r : Request}

/-- The timestamps of the log never decrease. -/
def Request.IsSorted (r : Request) : Prop :=
  (r.log.events.map Event.timestamp).Pairwise (· ≤ ·)

instance (r : Request) : Decidable r.IsSorted := inferInstanceAs (Decidable (List.Pairwise _ _))

theorem Request.IsSorted.spans (h : r.IsSorted) :
    r.spans.Pairwise fun a b => a.start ≤ b.start := by
  refine List.pairwise_iff_getElem.mpr ?_
  intro j k hj hk hjk
  exact Timeline.IsSorted.start_le h (List.getElem?_eq_getElem hj) (List.getElem?_eq_getElem hk)
    (Nat.le_of_lt hjk)

/-- No paused work that is stored begins later than an entry of the log that asks for work. -/
def Request.Follows (store : Store) (r : Request) : Prop :=
  ∀ s ∈ r.spans, Asks s → ∀ row ∈ store.rows, row.state = State.paused.word →
    ∀ session ∈ row.session.toOption, session.start ≤ s.start

instance (store : Store) (r : Request) : Decidable (r.Follows store) :=
  inferInstanceAs (Decidable (∀ s ∈ r.spans, Asks s → ∀ row ∈ store.rows,
    row.state = State.paused.word → ∀ session ∈ row.session.toOption, session.start ≤ s.start))

/-- Every log follows what is stored when its turn comes. -/
def InOrder (store : Store) : List Request → Prop
  | [] => True
  | r :: rest => r.Follows store ∧ InOrder (r.apply store) rest

instance decidableInOrder (store : Store) : (requests : List Request) →
    Decidable (InOrder store requests)
  | [] => inferInstanceAs (Decidable True)
  | r :: rest =>
    have := decidableInOrder (r.apply store) rest
    inferInstanceAs (Decidable (_ ∧ _))

/-- What imports keep when every log is in order of time and follows what is stored. -/
structure InTime (store : Store) : Prop where
  sound : store.Sound
  chained : store.Chained
  readable : store.Readable
  chronological : store.Chronological

theorem InTime.empty : InTime Store.empty :=
  ⟨Store.Sound.empty, Store.Chained.empty, Store.Readable.empty, Store.Chronological.empty⟩

/-- A span goes on with no stored session that begins later, when the log follows what is
stored. -/
theorem le_start_of_follows (h : store.Readable) (hsorted : r.IsSorted)
    (hfollows : r.Follows store) {left : Store}
    (hsub : (left.rows.map Row.core).Sublist (store.rows.map Row.core)) {resolved : List Span}
    (hresolve : Timeline.resolve left.archive r.spans = .ok resolved) {k : Nat} {s : Span}
    (hs : resolved[k]? = some s) {t : Row} (ht : t ∈ left.rows)
    (hpaused : t.state = State.paused.word) (hlink : s.continues = some (.session t.id))
    {b : DateTime} (hb : t.BeginsAt b) : b ≤ s.start := by
  obtain ⟨j, hj, u, hu, hasks⟩ := Timeline.exists_asks_of_session hresolve hs hlink
  obtain ⟨old, hold, hcore⟩ := Store.exists_of_mem_of_sublist hsub t ht
  have hstate : old.core.state = t.core.state := congrArg Row.state hcore
  -- the work begins no later than the entry that asks for it
  have hasked : b ≤ u.start := by
    obtain ⟨session, hbounds, rfl⟩ := h old hold
    obtain rfl := Store.eq_of_beginsAt_row hbounds ((Store.beginsAt_congr hcore b).mpr hb)
    refine hfollows u (List.mem_of_getElem? hu) hasks _ hold (hstate.trans hpaused) session ?_
    rw [Store.session_row hbounds]
    rfl
  -- and the entry that asks is not after the span
  obtain ⟨hframes, -⟩ := Timeline.resolve_linked (Store.answers_isStored left) hresolve
  obtain ⟨v, hv, hstart, -⟩ := Timeline.exists_of_map_frame hframes hs
  have hle : u.start ≤ v.start := Timeline.IsSorted.start_le hsorted hu hv hj
  rw [hstart]
  exact Int.le_trans hasked hle

/-- An import of a log in order of time that follows what is stored makes no link forward in
time. -/
theorem InTime.apply (h : InTime store)
    (hcalendar : ∀ s ∈ r.spans, IsWithinCalendar s.start s.stop) (hsorted : r.IsSorted)
    (hfollows : r.Follows store) : InTime (r.apply store) := by
  have ho := h.sound.nested.ordered
  refine ⟨sound_apply h.sound r, (linked_apply ⟨ho, h.chained⟩ r).2,
    readable_apply h.readable hcalendar, ?_⟩
  rcases apply_cases store r with hsame | ⟨conflicts, done, -, -, -, -, hreplace⟩
  · rw [hsame]
    exact h.chronological
  · obtain ⟨resolved, all, hresolve, hstore⟩ := Store.replace_ok hreplace
    have ho' := ho.eraseAll conflicts
    have hc' := h.chained.eraseAll conflicts
    obtain ⟨hframes, hlinked⟩ := Timeline.resolve_linked (Store.answers_archive ho' hc') hresolve
    refine (h.chronological.eraseAll h.sound.nested conflicts).importSpans ho' hc' hlinked
      (isWithinCalendar_of_frames hframes hcalendar) ?_ ?_ hstore
    · -- links do not change when spans begin
      have hstarts : resolved.map Span.start = r.spans.map Span.start := by
        have hfirst := congrArg (List.map Prod.fst) hframes
        rwa [List.map_map, List.map_map] at hfirst
      rw [← List.pairwise_map (f := Span.start) (R := (· ≤ ·)), hstarts, List.pairwise_map]
      exact hsorted.spans
    · intro k s hs t ht hpaused hlink b hb
      exact le_start_of_follows h.readable hsorted hfollows
        (Store.core_eraseAll_sublist store conflicts) hresolve hs ht hpaused hlink hb

theorem inTime_reached {requests : List Request}
    (hcalendar : ∀ q ∈ requests, ∀ s ∈ q.spans, IsWithinCalendar s.start s.stop)
    (hsorted : ∀ q ∈ requests, q.IsSorted) (horder : InOrder Store.empty requests) :
    InTime (reached requests) := by
  -- by induction on the imports that are left, from any store that earlier ones left
  have hall : ∀ (rest : List Request) (store : Store), (∀ q ∈ rest, q ∈ requests) →
      InOrder store rest → InTime store → InTime (rest.foldl Request.apply store) := by
    intro rest
    induction rest with
    | nil =>
      intro store _ _ h
      exact h
    | cons q rest ih =>
      intro store hsub ⟨hfollows, horder⟩ h
      have hq := hsub q List.mem_cons_self
      exact ih _ (fun q' hq' => hsub q' (List.mem_cons_of_mem _ hq')) horder
        (h.apply (hcalendar q hq) (hsorted q hq) hfollows)
  exact hall requests Store.empty (fun _ hq => hq) horder InTime.empty

/-- When every log is in order of time, and none has an entry that asks for work before all paused
work that is stored begins, no session that is stored goes on with one that begins later. -/
theorem reached_chronological (requests : List Request)
    (hcalendar : ∀ q ∈ requests, ∀ s ∈ q.spans, IsWithinCalendar s.start s.stop)
    (hsorted : ∀ q ∈ requests, q.IsSorted) (horder : InOrder Store.empty requests) :
    ∀ r ∈ (reached requests).rows, ∀ v, r.continues = some v →
      ∃ t ∈ (reached requests).rows, t.id.value = v ∧ ∃ x y : Session,
        r.session = .ok x ∧ t.session = .ok y ∧ y.start ≤ x.start := by
  have h := inTime_reached hcalendar hsorted horder
  intro r hr v hv
  obtain ⟨t, ht, rfl, -⟩ := h.chained r hr v hv
  obtain ⟨x, hx, rfl⟩ := h.readable r hr
  obtain ⟨y, hy, rfl⟩ := h.readable t ht
  refine ⟨y.row, ht, rfl, x, y, Store.session_row hx, Store.session_row hy, ?_⟩
  exact h.chronological _ hr _ ht hv _ _ (Store.momentOf_storedText x.id hx.1)
    (Store.momentOf_storedText y.id hy.1)

/-- The report is gone on with on the next day. -/
theorem reached_chronological_pausedAndResumed :
    ∃ r ∈ (reached pausedAndResumed).rows, ∃ t ∈ (reached pausedAndResumed).rows,
      r.continues = some t.id.value ∧ ∃ x y : Session,
        r.session = .ok x ∧ t.session = .ok y ∧ y.start ≤ x.start := by
  have hlink : ∃ r ∈ (reached pausedAndResumed).rows, r.continues = some 1 := by decide +kernel
  obtain ⟨r, hr, hv⟩ := hlink
  obtain ⟨t, ht, hid, hearlier⟩ := reached_chronological pausedAndResumed (by decide +kernel)
    (by decide +kernel) (by decide +kernel) r hr 1 hv
  exact ⟨r, hr, t, ht, by rw [hv, hid], hearlier⟩

/-! ## Imports out of order -/

/-- A report that is paused, and a draft of the day before that asks for paused work. -/
def laterDayFirst : List Request :=
  [{ options := {}, base := sampleDay, text := "2024-03-02 9:00 Report\n10:00 @pause" },
    { options := {}, base := sampleDay, text := "9:00 Draft @prev\n10:00 @end" }]

/-- Each log is in order of time, and the draft goes on with the report, which begins a day
later. -/
theorem reached_continues_future :
    (∀ q ∈ laterDayFirst, q.IsSorted) ∧
      ∃ r ∈ (reached laterDayFirst).rows, ∃ t ∈ (reached laterDayFirst).rows,
        r.continues = some t.id.value ∧
          ∃ x ∈ r.session.toOption, ∃ y ∈ t.session.toOption, x.start < y.start := by
  decide +kernel

end Import

end Daybook
