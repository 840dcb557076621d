import Daybook.Proofs.Store.Rows

/-!
# Storing spans

Each span becomes one row, after all rows that are stored and under the next number. What a span
says of another span of its log becomes the number of the row for that span.

* `Store.newSession_numbersTo` : which spans become a session, and the session.
* `Store.replace_of_steps` : a replacement removes sessions, makes the links and stores spans.
-/

namespace Daybook.Store

variable {store after : Store} {ids all : List SessionId} {s : Span} {n : NewSession}

/-! ## One session -/

theorem insert_ok {id : SessionId} (h : store.insert n = .ok (after, id)) :
    after = { rows := store.rows ++ [rowOf store.nextId n], lastId := store.lastId + 1 } ∧
      id = store.nextId := by
  unfold insert at h
  split at h
  · obtain ⟨hafter, hid⟩ := Prod.mk.inj (Except.ok.inj h)
    exact ⟨hafter.symm, hid.symm⟩
  · simp at h

/-- The session names sessions that it may name. -/
def MayNameAll (store : Store) (n : NewSession) : Prop :=
  store.mayName n.parent = true ∧ store.mayName n.continues = true

theorem mayNameAll_of_insert {id : SessionId} (h : store.insert n = .ok (after, id)) :
    store.MayNameAll n := by
  unfold insert at h
  split at h
  · next hnames => exact (Bool.and_eq_true _ _).mp hnames
  · simp at h

theorem insert_of_mayNameAll (h : store.MayNameAll n) :
    store.insert n =
      .ok ({ rows := store.rows ++ [rowOf store.nextId n], lastId := store.lastId + 1 },
        store.nextId) := by
  rw [insert, if_pos ((Bool.and_eq_true _ _).mpr h)]

theorem insert_of_not_mayNameAll (h : ¬store.MayNameAll n) :
    store.insert n = .error .missingSession := by
  rw [insert, if_neg fun hnames => h ((Bool.and_eq_true _ _).mp hnames)]

theorem Ordered.insert {id : SessionId} (h : store.Ordered)
    (hok : store.insert n = .ok (after, id)) : after.Ordered := by
  obtain ⟨rfl, -⟩ := insert_ok hok
  have hnext : (rowOf store.nextId n).id.value = store.lastId + 1 := rfl
  constructor
  · refine List.pairwise_append.mpr ⟨h.increasing, List.pairwise_singleton _ _, ?_⟩
    intro r hr new hnew
    obtain rfl := List.mem_singleton.mp hnew
    have hle := h.bounded r hr
    omega
  · intro r hr
    rcases List.mem_append.mp hr with hr | hr
    · have hle := h.bounded r hr
      simp only [Int.natCast_add]
      omega
    · obtain rfl := List.mem_singleton.mp hr
      simp [hnext]

/-! ## From spans to sessions -/

/-- The number for the span at position `k`, when the last number before the spans is `lastId`. -/
def numberAt (lastId k : Nat) : SessionId :=
  ⟨lastId + k + 1, by omega⟩

theorem numberAt_inj {lastId j k : Nat} : numberAt lastId j = numberAt lastId k ↔ j = k := by
  rw [numberAt, numberAt, SessionId.mk.injEq]
  omega

/-- The numbers for the first `k` spans. -/
def numbersTo (lastId k : Nat) : List SessionId :=
  (List.range k).map (numberAt lastId)

/-- The number that a link of a span becomes. -/
def linkNumber (lastId : Nat) : Link → SessionId
  | .entry target => numberAt lastId target
  | .session id => id

/-- The session that a span becomes: its fields stay, and its links are to numbers. -/
def sessionOf (lastId : Nat) (s : Span) : NewSession :=
  { description := s.entry.description
    project := s.entry.project
    tags := s.entry.tags
    start := s.start
    stop := s.stop
    state := s.state
    parent := s.parent.map (numberAt lastId)
    continues := s.continues.map (linkNumber lastId)
    estimate := s.entry.estimate
    remark := s.entry.remark }

/-- The row for the span at position `k`. -/
def rowAt (lastId k : Nat) (s : Span) : Row :=
  rowOf (numberAt lastId k) (sessionOf lastId s)

/-- A span at position `k` refers only to spans before it. -/
structure RefersBack (k : Nat) (s : Span) : Prop where
  parent : ∀ target, s.parent = some target → target < k
  continues : ∀ target, s.continues = some (.entry target) → target < k

theorem numbersTo_succ (lastId k : Nat) :
    numbersTo lastId (k + 1) = numbersTo lastId k ++ [numberAt lastId k] := by
  rw [numbersTo, List.range_succ, List.map_append]
  rfl

/-- A number is known for the spans before a position, and only for them. -/
theorem storedId_numbersTo {lastId k index target : Nat} {id : SessionId} :
    storedId (numbersTo lastId k) index target = .ok id ↔
      target < k ∧ numberAt lastId target = id := by
  unfold storedId numbersTo
  rw [List.getElem?_map]
  by_cases hlt : target < k
  · rw [List.getElem?_range hlt, Option.map_some]
    simp [hlt]
  · rw [List.getElem?_eq_none (by simpa using hlt)]
    simp [hlt]

/-- The number of the session that a span interrupts. -/
def parentId (ids : List SessionId) (index : Nat) (s : Span) :
    Except StoreError (Option SessionId) :=
  match s.parent with
  | none => .ok none
  | some target => storedId ids index target >>= fun id => .ok (some id)

/-- The number of the session that a span goes on with. -/
def linkId (ids : List SessionId) (index : Nat) (s : Span) :
    Except StoreError (Option SessionId) :=
  match s.continues with
  | none => .ok none
  | some (.session id) => .ok (some id)
  | some (.entry target) => storedId ids index target >>= fun id => .ok (some id)

/-- Links are looked up first, the parent before the other. -/
theorem newSession_eq (ids : List SessionId) (index : Nat) (s : Span) :
    newSession ids index s =
      parentId ids index s >>= fun parent => linkId ids index s >>= fun continues =>
        .ok
          { description := s.entry.description
            project := s.entry.project
            tags := s.entry.tags
            start := s.start
            stop := s.stop
            state := s.state
            parent
            continues
            estimate := s.entry.estimate
            remark := s.entry.remark } := by
  -- looking a number up and wrapping it is one step
  have hassoc : ∀ {α β : Type} (x : Except StoreError SessionId) (a : SessionId → α)
      (f : α → Except StoreError β),
      (x >>= fun id => Except.ok (a id)) >>= f = x >>= fun id => f (a id) := by
    intro α β x a f
    cases x <;> rfl
  unfold newSession parentId linkId
  cases s.parent with
  | none =>
    cases s.continues with
    | none => rfl
    | some link =>
      cases link with
      | session id => rfl
      | entry target => simp only [hassoc]; rfl
  | some parent =>
    cases s.continues with
    | none => simp only [hassoc]; rfl
    | some link =>
      cases link with
      | session id => simp only [hassoc]; rfl
      | entry target => simp only [hassoc]; rfl

theorem parentId_numbersTo {lastId k index : Nat} {s : Span} {parent : Option SessionId} :
    parentId (numbersTo lastId k) index s = .ok parent ↔
      (∀ target, s.parent = some target → target < k) ∧
        s.parent.map (numberAt lastId) = parent := by
  unfold parentId
  cases s.parent with
  | none => simp
  | some target =>
    rw [bind_eq_ok]
    simp only [storedId_numbersTo, Option.map_some, Option.some.injEq, Except.ok.injEq, forall_eq']
    constructor
    · rintro ⟨id, ⟨hlt, hid⟩, rfl⟩
      exact ⟨hlt, congrArg some hid⟩
    · rintro ⟨hlt, rfl⟩
      exact ⟨_, ⟨hlt, rfl⟩, rfl⟩

theorem linkId_numbersTo {lastId k index : Nat} {s : Span} {link : Option SessionId} :
    linkId (numbersTo lastId k) index s = .ok link ↔
      (∀ target, s.continues = some (.entry target) → target < k) ∧
        s.continues.map (linkNumber lastId) = link := by
  unfold linkId
  cases s.continues with
  | none => simp
  | some found =>
    cases found with
    | session id => simp [linkNumber]
    | entry target =>
      rw [bind_eq_ok]
      simp only [storedId_numbersTo, Option.map_some, Option.some.injEq, Except.ok.injEq,
        Link.entry.injEq, forall_eq', linkNumber]
      constructor
      · rintro ⟨id, ⟨hlt, hid⟩, rfl⟩
        exact ⟨hlt, congrArg some hid⟩
      · rintro ⟨hlt, rfl⟩
        exact ⟨_, ⟨hlt, rfl⟩, rfl⟩

/-- A span becomes a session exactly when it refers only to spans before it. -/
theorem newSession_numbersTo {lastId k index : Nat} {s : Span} {n : NewSession} :
    newSession (numbersTo lastId k) index s = .ok n ↔ RefersBack k s ∧ sessionOf lastId s = n := by
  rw [newSession_eq, bind_eq_ok]
  constructor
  · rintro ⟨parent, hparent, h⟩
    obtain ⟨link, hlink, h⟩ := bind_eq_ok.mp h
    obtain rfl := Except.ok.inj h
    obtain ⟨hbefore, rfl⟩ := parentId_numbersTo.mp hparent
    obtain ⟨hbefore', rfl⟩ := linkId_numbersTo.mp hlink
    exact ⟨⟨hbefore, hbefore'⟩, rfl⟩
  · rintro ⟨hback, rfl⟩
    refine ⟨_, parentId_numbersTo.mpr ⟨hback.parent, rfl⟩, bind_eq_ok.mpr ?_⟩
    exact ⟨_, linkId_numbersTo.mpr ⟨hback.continues, rfl⟩, rfl⟩

/-! ## All spans -/

/-- What every session that is added keeps, storing spans keeps. -/
theorem insertSpans_induction {P : Store → Prop}
    (hstep : ∀ {store after : Store} {n : NewSession} {id : SessionId}, P store →
      store.insert n = .ok (after, id) → P after)
    {spans : List Span} (h : P store) (hok : store.insertSpans ids spans = .ok (after, all)) :
    P after := by
  induction spans generalizing store ids with
  | nil =>
    obtain ⟨rfl, -⟩ := Prod.mk.inj (Except.ok.inj hok)
    exact h
  | cons s rest ih =>
    obtain ⟨n, -, hok⟩ := bind_eq_ok.mp hok
    obtain ⟨⟨next, id⟩, hinsert, hok⟩ := bind_eq_ok.mp hok
    exact ih (hstep h hinsert) hok

theorem Ordered.importSpans {spans : List Span} (h : store.Ordered)
    (hok : store.importSpans spans = .ok (after, all)) : after.Ordered :=
  insertSpans_induction (fun hstore hinsert => hstore.insert hinsert) h hok

/-! ## Replacing sessions -/

/-- What a replacement that succeeds did, and what it says of it. -/
theorem steps_of_replace {spans : List Span} {done : Replacement}
    (h : store.replace ids spans = .ok (after, done)) :
    ∃ resolved all, Timeline.resolve (store.eraseAll ids).1.archive spans = .ok resolved ∧
      (store.eraseAll ids).1.importSpans resolved = .ok (after, all) ∧
      done = { spans := resolved, ids := all, replaced := (store.eraseAll ids).2 } := by
  obtain ⟨⟨left, count⟩, hleft, h⟩ := bind_eq_ok.mp h
  have hremoved := removeAll_ok hleft
  obtain ⟨resolved, hresolved, h⟩ := bind_eq_ok.mp h
  obtain ⟨⟨stored, all⟩, hstored, h⟩ := bind_eq_ok.mp h
  obtain ⟨rfl, rfl⟩ := Prod.mk.inj (Except.ok.inj h)
  rw [hremoved]
  exact ⟨resolved, all, hresolved, hstored, rfl⟩

theorem replace_ok {spans : List Span} {done : Replacement}
    (h : store.replace ids spans = .ok (after, done)) :
    ∃ resolved all, Timeline.resolve (store.eraseAll ids).1.archive spans = .ok resolved ∧
      (store.eraseAll ids).1.importSpans resolved = .ok (after, all) := by
  obtain ⟨resolved, all, hresolved, hstored, -⟩ := steps_of_replace h
  exact ⟨resolved, all, hresolved, hstored⟩

/-- A replacement succeeds when each of its steps does. -/
theorem replace_of_steps {spans resolved : List Span} {left : Store} {count : Nat}
    (hremove : store.removeAll ids = .ok (left, count))
    (hresolve : Timeline.resolve left.archive spans = .ok resolved)
    (hstore : left.importSpans resolved = .ok (after, all)) :
    store.replace ids spans =
      .ok (after, { spans := resolved, ids := all, replaced := count }) := by
  refine bind_eq_ok.mpr ⟨(left, count), hremove, ?_⟩
  refine bind_eq_ok.mpr ⟨resolved, hresolve, ?_⟩
  exact bind_eq_ok.mpr ⟨(after, all), hstore, rfl⟩

end Daybook.Store
