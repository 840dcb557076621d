import Daybook.Proofs.Store.Batch

/-!
# Which spans are stored

Spans are stored one after the other, as long as each of them can be. A span is at fault when it
refers to a span that is not before it, or goes on with a session that is not stored. The session
has to be there once the row for the span itself is, so it may be one of an earlier span, or even
that of the span.

* `Store.insertSpans_of_admits`, `Store.insertSpans_of_fault` : what comes of one span.
* `Store.importSpans_of_admitsTo` : the spans up to a position are stored, and then the others.
* `Store.importSpans_eq_ok_iff`, `Store.importSpans_eq_error_iff` : what comes of all spans.
* `Store.importSpans_ok` : the rows that are new when spans were stored.
-/

namespace Daybook.Store

variable {store after : Store} {all : List SessionId} {spans : List Span} {s : Span} {k : Nat}

/-! ## What a span needs -/

/-- A session with the number is stored. -/
def IsStored (store : Store) (id : SessionId) : Prop :=
  ∃ r ∈ store.rows, r.id = id

/-- A span at position `k` can be stored: it refers only to spans before it, and a stored
session that it goes on with is there. -/
structure IsStorable (store : Store) (k : Nat) (s : Span) : Prop where
  back : RefersBack k s
  stored : ∀ id, s.continues = some (.session id) → store.IsStored id

/-- The store with the rows for spans after its rows. -/
def withSpans (store : Store) (spans : List Span) : Store :=
  { rows := store.rows ++ spans.mapIdx (rowAt store.lastId)
    lastId := store.lastId + spans.length }

/-- The span at position `k` can be stored, once its own row and those for the spans before it are
there. -/
def Admits (store : Store) (spans : List Span) (k : Nat) (s : Span) : Prop :=
  (store.withSpans (spans.take (k + 1))).IsStorable k s

/-- The spans before position `n` can be stored. -/
def AdmitsTo (store : Store) (spans : List Span) (n : Nat) : Prop :=
  ∀ k < n, ∀ s, spans[k]? = some s → store.Admits spans k s

/-- What keeps a span at position `k` from being stored, and what is said of it. The parent is
looked at before the link, and a link to a stored session last. -/
inductive Fault (store : Store) (spans : List Span) (k : Nat) (s : Span) : StoreError → Prop where
  | parent {target : Nat} (h : s.parent = some target) (hlate : k ≤ target) :
      Fault store spans k s (.unresolvedLink k target)
  | entry {target : Nat} (hparent : ∀ target, s.parent = some target → target < k)
      (h : s.continues = some (.entry target)) (hlate : k ≤ target) :
      Fault store spans k s (.unresolvedLink k target)
  | session {id : SessionId} (hparent : ∀ target, s.parent = some target → target < k)
      (h : s.continues = some (.session id))
      (hmissing : ¬(store.withSpans (spans.take (k + 1))).IsStored id) :
      Fault store spans k s .missingSession

/-- A span can be stored, or it is at fault. -/
theorem admits_or_fault (store : Store) (spans : List Span) (k : Nat) (s : Span) :
    store.Admits spans k s ∨ ∃ e, store.Fault spans k s e := by
  by_cases hparent : ∀ target, s.parent = some target → target < k
  · cases hlink : s.continues with
    | none => exact .inl ⟨⟨hparent, by simp [hlink]⟩, by simp [hlink]⟩
    | some link =>
      cases link with
      | entry target =>
        by_cases hlt : target < k
        · exact .inl ⟨⟨hparent, by simpa [hlink] using hlt⟩, by simp [hlink]⟩
        · exact .inr ⟨_, .entry hparent hlink (Nat.le_of_not_lt hlt)⟩
      | session id =>
        by_cases hstored : (store.withSpans (spans.take (k + 1))).IsStored id
        · exact .inl ⟨⟨hparent, by simp [hlink]⟩, by simpa [hlink] using hstored⟩
        · exact .inr ⟨_, .session hparent hlink hstored⟩
  · simp only [Classical.not_forall, Nat.not_lt] at hparent
    obtain ⟨target, htarget, hlate⟩ := hparent
    exact .inr ⟨_, .parent htarget hlate⟩

theorem AdmitsTo.succ {n : Nat} (h : store.AdmitsTo spans n)
    (hn : ∀ s, spans[n]? = some s → store.Admits spans n s) : store.AdmitsTo spans (n + 1) := by
  intro k hk s hs
  rcases Nat.lt_succ_iff_lt_or_eq.mp hk with hlt | rfl
  · exact h k hlt s hs
  · exact hn s hs

/-- The spans up to a position can be stored, or one of them is the first at fault. -/
theorem admitsTo_or_fault (store : Store) (spans : List Span) (n : Nat) :
    store.AdmitsTo spans n ∨
      ∃ k s, spans[k]? = some s ∧ store.AdmitsTo spans k ∧ ∃ e, store.Fault spans k s e := by
  induction n with
  | zero => exact .inl fun k hk => absurd hk (Nat.not_lt_zero k)
  | succ n ih =>
    rcases ih with hadmits | hfault
    · by_cases hall : ∀ s, spans[n]? = some s → store.Admits spans n s
      · exact .inl (hadmits.succ hall)
      · simp only [Classical.not_forall] at hall
        obtain ⟨s, hs, hnot⟩ := hall
        exact .inr ⟨n, s, hs, hadmits, (admits_or_fault store spans n s).resolve_left hnot⟩
    · exact .inr hfault

/-! ## Stores with spans -/

theorem withSpans_nil (store : Store) : store.withSpans [] = store := by
  simp [withSpans]

theorem withSpans_snoc (store : Store) (before : List Span) (s : Span) :
    store.withSpans (before ++ [s]) =
      { rows := (store.withSpans before).rows ++ [rowAt store.lastId before.length s]
        lastId := (store.withSpans before).lastId + 1 } := by
  simp [withSpans, Nat.add_assoc]

theorem nextId_withSpans (store : Store) (before : List Span) :
    (store.withSpans before).nextId = numberAt store.lastId before.length := by
  apply SessionId.ext
  show ((store.lastId + before.length : Nat) + 1 : Int) = store.lastId + before.length + 1
  omega

theorem mem_mapIdx_rowAt {spans : List Span} {lastId : Nat} {r : Row} :
    r ∈ spans.mapIdx (rowAt lastId) ↔ ∃ k s, spans[k]? = some s ∧ rowAt lastId k s = r := by
  simp only [List.mem_iff_getElem?, List.getElem?_mapIdx, Option.map_eq_some_iff]

theorem isStored_numberAt {before : List Span} {j : Nat} (h : j < before.length) :
    (store.withSpans before).IsStored (numberAt store.lastId j) :=
  ⟨rowAt store.lastId j before[j],
    List.mem_append_right _ (mem_mapIdx_rowAt.mpr ⟨j, before[j], List.getElem?_eq_getElem h, rfl⟩),
    rfl⟩

theorem IsStored.withSpans {id : SessionId} (h : store.IsStored id) (spans : List Span) :
    (store.withSpans spans).IsStored id := by
  obtain ⟨r, hr, hid⟩ := h
  exact ⟨r, List.mem_append_left _ hr, hid⟩

theorem isStored_iff_contains {id : SessionId} :
    store.IsStored id ↔ store.contains id.value = true := by
  rw [contains_iff]
  exact exists_congr fun r => and_congr_right fun _ => SessionId.ext_iff

/-- The next session may name a session exactly when that is stored once the next one is. -/
theorem mayName_withSpans (store : Store) (before : List Span) (s : Span) (id : SessionId) :
    (store.withSpans before).mayName (some id) = true ↔
      (store.withSpans (before ++ [s])).IsStored id := by
  rw [mayName, Option.all_some, Bool.or_eq_true, beq_iff_eq, ← isStored_iff_contains,
    nextId_withSpans, withSpans_snoc]
  constructor
  · rintro (rfl | ⟨r, hr, hid⟩)
    · exact ⟨_, List.mem_append_right _ (List.mem_singleton_self _), rfl⟩
    · exact ⟨r, List.mem_append_left _ hr, hid⟩
  · rintro ⟨r, hr, rfl⟩
    rcases List.mem_append.mp hr with hr | hr
    · exact .inr ⟨r, hr, rfl⟩
    · obtain rfl := List.mem_singleton.mp hr
      exact .inl rfl

/-- A span that refers back becomes a session that names what it may, exactly when the stored
session that it goes on with is there. -/
theorem mayNameAll_sessionOf {before : List Span} (hback : RefersBack before.length s) :
    (store.withSpans before).MayNameAll (sessionOf store.lastId s) ↔
      ∀ id, s.continues = some (.session id) → (store.withSpans (before ++ [s])).IsStored id := by
  -- the numbers of the spans before it may be named, so only a stored session can be missing
  have hearlier : ∀ target < before.length,
      (store.withSpans before).mayName (some (numberAt store.lastId target)) = true := by
    intro target hlt
    rw [mayName_withSpans store before s]
    exact isStored_numberAt (by rw [List.length_append]; exact Nat.lt_add_right _ hlt)
  have hparent : (store.withSpans before).mayName (sessionOf store.lastId s).parent = true := by
    cases h : s.parent with
    | none => simp [sessionOf, h, mayName]
    | some target => simpa [sessionOf, h] using hearlier target (hback.parent target h)
  rw [MayNameAll, and_iff_right hparent]
  cases h : s.continues with
  | none => simp [sessionOf, h, mayName]
  | some link =>
    cases link with
    | session id =>
      simpa [sessionOf, h, linkNumber] using mayName_withSpans store before s id
    | entry target =>
      simpa [sessionOf, h, linkNumber] using hearlier target (hback.continues target h)

/-! ## One span after the others -/

theorem length_numbersTo (lastId k : Nat) : (numbersTo lastId k).length = k := by
  simp [numbersTo]

theorem take_of_getElem? (hs : spans[k]? = some s) :
    (spans.take k).length = k ∧ spans.take (k + 1) = spans.take k ++ [s] := by
  obtain ⟨hlt, -⟩ := List.getElem?_eq_some_iff.mp hs
  exact ⟨List.length_take_of_le (Nat.le_of_lt hlt), by rw [List.take_add_one, hs]; rfl⟩

/-- What a span that refers back may name decides whether it is stored. -/
theorem insertSpans_of_refersBack {lastId : Nat} {rest : List Span} (hback : RefersBack k s) :
    store.insertSpans (numbersTo lastId k) (s :: rest) =
      store.insert (sessionOf lastId s) >>= fun (next, id) =>
        next.insertSpans (numbersTo lastId k ++ [id]) rest := by
  have hnew : newSession (numbersTo lastId k) k s = .ok (sessionOf lastId s) :=
    newSession_numbersTo.mpr ⟨hback, rfl⟩
  rw [insertSpans, length_numbersTo, hnew]
  rfl

/-- A span that can be stored is, and the others are stored after it. -/
theorem insertSpans_of_admits {rest : List Span} (hs : spans[k]? = some s)
    (h : store.Admits spans k s) :
    (store.withSpans (spans.take k)).insertSpans (numbersTo store.lastId k) (s :: rest) =
      (store.withSpans (spans.take (k + 1))).insertSpans
        (numbersTo store.lastId (k + 1)) rest := by
  obtain ⟨hlength, htake⟩ := take_of_getElem? hs
  have hback : RefersBack (spans.take k).length s := hlength.symm ▸ h.back
  have hinsert := insert_of_mayNameAll ((mayNameAll_sessionOf hback).mpr (htake ▸ h.stored))
  rw [nextId_withSpans, hlength] at hinsert
  rw [insertSpans_of_refersBack h.back, hinsert, numbersTo_succ, htake, withSpans_snoc, hlength]
  rfl

theorem storedId_of_le {lastId k index target : Nat} (h : k ≤ target) :
    storedId (numbersTo lastId k) index target = .error (.unresolvedLink index target) := by
  rw [storedId, List.getElem?_eq_none (by rwa [length_numbersTo])]

/-- A fault ends the storing with its error. -/
theorem insertSpans_of_fault {e : StoreError} {rest : List Span} (hs : spans[k]? = some s)
    (h : store.Fault spans k s e) :
    (store.withSpans (spans.take k)).insertSpans (numbersTo store.lastId k) (s :: rest) =
      .error e := by
  cases h with
  | @parent target hparent hlate =>
    have hnew : newSession (numbersTo store.lastId k) k s = .error (.unresolvedLink k target) := by
      rw [newSession_eq, parentId, hparent]
      simp only [storedId_of_le hlate]
      rfl
    rw [insertSpans, length_numbersTo, hnew]
    rfl
  | @entry target hbefore hlink hlate =>
    have hnew : newSession (numbersTo store.lastId k) k s = .error (.unresolvedLink k target) := by
      rw [newSession_eq, parentId_numbersTo.mpr ⟨hbefore, rfl⟩, linkId, hlink]
      simp only [storedId_of_le hlate]
      rfl
    rw [insertSpans, length_numbersTo, hnew]
    rfl
  | @session id hbefore hlink hmissing =>
    obtain ⟨hlength, htake⟩ := take_of_getElem? hs
    have hback : RefersBack k s := ⟨hbefore, by simp [hlink]⟩
    have hnames : ¬(store.withSpans (spans.take k)).MayNameAll (sessionOf store.lastId s) := by
      rw [mayNameAll_sessionOf (hlength.symm ▸ hback), ← htake]
      exact fun hall => hmissing (hall id hlink)
    rw [insertSpans_of_refersBack hback, insert_of_not_mayNameAll hnames]
    rfl

/-! ## All spans -/

/-- When the spans up to a position can be stored they are, and then the others. -/
theorem importSpans_of_admitsTo {n : Nat} (hn : n ≤ spans.length) (h : store.AdmitsTo spans n) :
    store.importSpans spans =
      (store.withSpans (spans.take n)).insertSpans (numbersTo store.lastId n) (spans.drop n) := by
  -- by induction on the position, with one more span stored at each step
  induction n with
  | zero => rw [List.take_zero, withSpans_nil, List.drop_zero]; rfl
  | succ n ih =>
    have hs : spans[n]? = some spans[n] := List.getElem?_eq_getElem hn
    rw [ih (Nat.le_of_succ_le hn) fun k hk => h k (Nat.lt_succ_of_lt hk),
      List.drop_eq_getElem_cons hn]
    exact insertSpans_of_admits hs (h n (Nat.lt_succ_self n) _ hs)

/-- When all spans can be stored, each is, under the next numbers. -/
theorem importSpans_of_admits (h : store.AdmitsTo spans spans.length) :
    store.importSpans spans =
      .ok (store.withSpans spans, numbersTo store.lastId spans.length) := by
  rw [importSpans_of_admitsTo (Nat.le_refl _) h, List.take_length, List.drop_length]
  rfl

/-- The first fault decides the error. -/
theorem importSpans_of_fault {e : StoreError} (hs : spans[k]? = some s)
    (hadmits : store.AdmitsTo spans k) (h : store.Fault spans k s e) :
    store.importSpans spans = .error e := by
  obtain ⟨hlt, rfl⟩ := List.getElem?_eq_some_iff.mp hs
  rw [importSpans_of_admitsTo (Nat.le_of_lt hlt) hadmits, List.drop_eq_getElem_cons hlt]
  exact insertSpans_of_fault hs h

/-- Spans are stored if and only if each of them can be. -/
theorem importSpans_eq_ok_iff {result : Store × List SessionId} :
    store.importSpans spans = .ok result ↔
      store.AdmitsTo spans spans.length ∧
        result = (store.withSpans spans, numbersTo store.lastId spans.length) := by
  constructor
  · intro hok
    rcases admitsTo_or_fault store spans spans.length with hall | ⟨k, s, hs, hadmits, e, hfault⟩
    · rw [importSpans_of_admits hall] at hok
      exact ⟨hall, (Except.ok.inj hok).symm⟩
    · rw [importSpans_of_fault hs hadmits hfault] at hok
      simp at hok
  · rintro ⟨hall, rfl⟩
    exact importSpans_of_admits hall

/-- An error is that of the first fault. -/
theorem importSpans_eq_error_iff {e : StoreError} :
    store.importSpans spans = .error e ↔
      ∃ k s, spans[k]? = some s ∧ store.AdmitsTo spans k ∧ store.Fault spans k s e := by
  constructor
  · intro herror
    rcases admitsTo_or_fault store spans spans.length with hall | ⟨k, s, hs, hadmits, e', hfault⟩
    · rw [importSpans_of_admits hall] at herror
      simp at herror
    · rw [importSpans_of_fault hs hadmits hfault] at herror
      exact ⟨k, s, hs, hadmits, Except.error.inj herror ▸ hfault⟩
  · rintro ⟨k, s, hs, hadmits, hfault⟩
    exact importSpans_of_fault hs hadmits hfault

/-- The rows that are new when spans were stored: one for each span, in order, under the next
numbers. Every span refers only to spans before it. -/
theorem importSpans_ok {spans : List Span} (h : store.importSpans spans = .ok (after, all)) :
    after.rows = store.rows ++ spans.mapIdx (rowAt store.lastId) ∧
      after.lastId = store.lastId + spans.length ∧
      ∀ k s, spans[k]? = some s → RefersBack k s := by
  obtain ⟨hall, hresult⟩ := importSpans_eq_ok_iff.mp h
  obtain ⟨rfl, -⟩ := Prod.mk.inj hresult
  refine ⟨rfl, rfl, fun k s hs => ?_⟩
  obtain ⟨hlt, -⟩ := List.getElem?_eq_some_iff.mp hs
  exact (hall k hlt s hs).back

/-- The numbers that spans are stored under are the next ones. -/
theorem importSpans_ids {spans : List Span} (h : store.importSpans spans = .ok (after, all)) :
    all = numbersTo store.lastId spans.length :=
  (Prod.mk.inj (importSpans_eq_ok_iff.mp h).2).2

/-- Spans that refer only to spans before them and to stored sessions can be stored. -/
theorem exists_importSpans {spans : List Span}
    (h : ∀ k s, spans[k]? = some s → store.IsStorable k s) :
    ∃ result, store.importSpans spans = .ok result := by
  refine ⟨_, importSpans_of_admits fun k _ s hs => ?_⟩
  have hstorable := h k s hs
  exact ⟨hstorable.back, fun id hid => (hstorable.stored id hid).withSpans _⟩

end Daybook.Store
