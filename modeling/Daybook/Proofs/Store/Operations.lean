import Daybook.Proofs.Distinct
import Daybook.Proofs.Store.Admission
import Daybook.Proofs.Store.Cascade

/-!
# Stores that operations reach

A store changes by operations, each of which succeeds as a whole or leaves the store as it was.
Whatever the operations are, the rows stay in the order of their numbers, interrupted sessions
stay stored, tags stay without repeats, and a number that was given out is never given out again.

* `Store.sound_after` : what is true of every store that is reached.
* `Store.linksBack_after` : links lead to stored sessions that are not after the linking one.
* `Store.id_le_of_take` : numbers that were ever stored are not beyond the last one.
-/

namespace Daybook.Store

/-! ## Operations -/

/-- A change that a store can be asked for. -/
inductive Operation where
  | insert (n : NewSession)
  | addTag (id : SessionId) (tag : String)
  | remove (ids : List SessionId)
  | importSpans (spans : List Span)
  | replace (ids : List SessionId) (spans : List Span)

/-- The store that a change gives, or the store before it if the change fails. -/
def settled {α : Type} (store : Store) : Except StoreError (Store × α) → Store
  | .ok (after, _) => after
  | .error _ => store

/-- The store that an operation leaves. -/
def Operation.apply (store : Store) : Operation → Store
  | .insert n => store.settled (store.insert n)
  | .addTag id tag => store.settled ((store.addTag id tag).map fun after => (after, ()))
  | .remove ids => store.settled (store.removeAll ids)
  | .importSpans spans => store.settled (store.importSpans spans)
  | .replace ids spans => store.settled (store.replace ids spans)

/-- The store after operations that start with an empty one. -/
def after (operations : List Operation) : Store :=
  operations.foldl Operation.apply empty

theorem after_snoc (operations : List Operation) (operation : Operation) :
    after (operations ++ [operation]) = operation.apply (after operations) :=
  List.foldl_append

/-- The operation succeeds on a store and gives another one. -/
inductive Operation.Gives (s : Store) : Operation → Store → Prop where
  | insert {n : NewSession} {next : Store} {id : SessionId} (h : s.insert n = .ok (next, id)) :
      Gives s (.insert n) next
  | addTag {id : SessionId} {tag : String} {next : Store} (h : s.addTag id tag = .ok next) :
      Gives s (.addTag id tag) next
  | remove {ids : List SessionId} : Gives s (.remove ids) (s.eraseAll ids).1
  | importSpans {spans : List Span} {next : Store} {ids : List SessionId}
      (h : s.importSpans spans = .ok (next, ids)) : Gives s (.importSpans spans) next
  | replace {ids : List SessionId} {spans : List Span} {next : Store} {done : Replacement}
      (h : s.replace ids spans = .ok (next, done)) : Gives s (.replace ids spans) next

/-- An operation succeeds, or it leaves the store as it was. -/
theorem Operation.gives_or_same (s : Store) (operation : Operation) :
    operation.Gives s (operation.apply s) ∨ operation.apply s = s := by
  cases operation with
  | insert n =>
    cases h : s.insert n with
    | error e => exact .inr (by rw [apply, h]; rfl)
    | ok pair => exact .inl (by rw [apply, h]; exact .insert h)
  | addTag id tag =>
    cases h : s.addTag id tag with
    | error e => exact .inr (by rw [apply, h]; rfl)
    | ok next => exact .inl (by rw [apply, h]; exact .addTag h)
  | remove ids =>
    cases h : s.removeAll ids with
    | error e => exact .inr (by rw [apply, h]; rfl)
    | ok pair =>
      obtain rfl := removeAll_ok h
      exact .inl (by rw [apply, h]; exact .remove)
  | importSpans spans =>
    cases h : s.importSpans spans with
    | error e => exact .inr (by rw [apply, h]; rfl)
    | ok pair => exact .inl (by rw [apply, h]; exact .importSpans h)
  | replace ids spans =>
    cases h : s.replace ids spans with
    | error e => exact .inr (by rw [apply, h]; rfl)
    | ok pair => exact .inl (by rw [apply, h]; exact .replace h)

/-! ## What operations keep -/

/-- The rows are in order, interrupted sessions are stored, and no tag is repeated. -/
structure Sound (s : Store) : Prop where
  nested : s.Nested
  tags : ∀ r ∈ s.rows, r.tags.Nodup

variable {s next : Store}

theorem Sound.empty : empty.Sound where
  nested := Nested.empty
  tags := by simp [Store.empty]

/-- A number that the next session may name is not after it, and it is stored once the session
is. -/
theorem leadsBack_of_mayName (h : s.Ordered) {link : Option SessionId}
    (hnames : s.mayName link = true) {id : SessionId} (hlink : link = some id) (n : NewSession) :
    id.value ≤ s.nextId.value ∧
      ∃ r ∈ s.rows ++ [rowOf s.nextId n], r.id.value = id.value := by
  rw [mayName, hlink, Option.all_some, Bool.or_eq_true, beq_iff_eq] at hnames
  rcases hnames with rfl | hcontains
  · exact ⟨Int.le_refl _, _, List.mem_append_right _ (List.mem_singleton_self _), rfl⟩
  · obtain ⟨r, hr, hid⟩ := contains_iff.mp hcontains
    have hle := h.bounded r hr
    refine ⟨?_, r, List.mem_append_left _ hr, hid⟩
    show id.value ≤ (s.lastId + 1 : Int)
    omega

theorem Sound.insert {n : NewSession} {id : SessionId} (h : s.Sound)
    (hok : s.insert n = .ok (next, id)) : next.Sound := by
  have hordered := h.nested.ordered.insert hok
  have hnames := (mayNameAll_of_insert hok).1
  obtain ⟨rfl, -⟩ := insert_ok hok
  refine ⟨⟨hordered, ?_⟩, ?_⟩
  · intro r hr v hv
    rcases List.mem_append.mp hr with hr | hr
    · obtain ⟨hle, above, habove, hid⟩ := h.nested.parent r hr v hv
      exact ⟨hle, above, List.mem_append_left _ habove, hid⟩
    · -- the new session interrupted itself, or a session that was stored
      obtain rfl := List.mem_singleton.mp hr
      obtain ⟨parent, hparent, rfl⟩ := Option.map_eq_some_iff.mp hv
      exact leadsBack_of_mayName h.nested.ordered hnames hparent n
  · intro r hr
    rcases List.mem_append.mp hr with hr | hr
    · exact h.tags r hr
    · obtain rfl := List.mem_singleton.mp hr
      exact nodup_eraseDups n.tags

/-- The row with a tag after its own, unless it has the tag or is not the one that is meant. -/
def tagged (id : SessionId) (tag : String) (r : Row) : Row :=
  if r.id = id ∧ tag ∉ r.tags then { r with tags := r.tags ++ [tag] } else r

theorem addTag_ok {id : SessionId} {tag : String} (h : s.addTag id tag = .ok next) :
    next = { s with rows := s.rows.map (tagged id tag) } := by
  unfold addTag at h
  split at h
  · exact (Except.ok.inj h).symm
  · simp at h

theorem id_tagged (id : SessionId) (tag : String) (r : Row) : (tagged id tag r).id = r.id := by
  unfold tagged
  split <;> rfl

theorem parent_tagged (id : SessionId) (tag : String) (r : Row) :
    (tagged id tag r).parent = r.parent := by
  unfold tagged
  split <;> rfl

theorem nodup_tags_tagged (id : SessionId) (tag : String) {r : Row} (h : r.tags.Nodup) :
    (tagged id tag r).tags.Nodup := by
  unfold tagged
  split
  · next hnew => exact nodup_snoc h hnew.2
  · exact h

theorem Sound.addTag {id : SessionId} {tag : String} (h : s.Sound)
    (hok : s.addTag id tag = .ok next) : next.Sound := by
  obtain rfl := addTag_ok hok
  refine ⟨⟨⟨?_, ?_⟩, ?_⟩, ?_⟩
  · refine List.pairwise_map.mpr (h.nested.ordered.increasing.imp ?_)
    intro a b hlt
    rwa [id_tagged, id_tagged]
  · intro r hr
    obtain ⟨old, hold, rfl⟩ := List.mem_map.mp hr
    rw [id_tagged]
    exact h.nested.ordered.bounded old hold
  · intro r hr v hv
    obtain ⟨old, hold, rfl⟩ := List.mem_map.mp hr
    rw [parent_tagged] at hv
    obtain ⟨hle, above, habove, hid⟩ := h.nested.parent old hold v hv
    rw [id_tagged]
    exact ⟨hle, _, List.mem_map_of_mem habove, by rw [id_tagged, hid]⟩
  · intro r hr
    obtain ⟨old, hold, rfl⟩ := List.mem_map.mp hr
    exact nodup_tags_tagged id tag (h.tags old hold)

theorem Sound.eraseAll (h : s.Sound) (ids : List SessionId) : (s.eraseAll ids).1.Sound where
  nested := h.nested.eraseAll ids
  tags := by
    intro r hr
    obtain ⟨old, hold, hcore⟩ := exists_of_mem_of_sublist (core_eraseAll_sublist s ids) r hr
    have htags : old.core.tags = r.core.tags := congrArg Row.tags hcore
    exact (show old.tags = r.tags from htags) ▸ h.tags old hold

theorem Sound.importSpans {spans : List Span} {all : List SessionId} (h : s.Sound)
    (hok : s.importSpans spans = .ok (next, all)) : next.Sound :=
  insertSpans_induction (fun hstore hinsert => hstore.insert hinsert) h hok

theorem Sound.replace {ids : List SessionId} {spans : List Span} {done : Replacement}
    (h : s.Sound) (hok : s.replace ids spans = .ok (next, done)) : next.Sound := by
  obtain ⟨resolved, all, -, hstore⟩ := replace_ok hok
  exact (h.eraseAll ids).importSpans hstore

theorem Sound.apply (h : s.Sound) (operation : Operation) : (operation.apply s).Sound := by
  rcases operation.gives_or_same s with hgives | hsame
  · generalize operation.apply s = next at hgives
    cases hgives with
    | insert hok => exact h.insert hok
    | addTag hok => exact h.addTag hok
    | remove => exact h.eraseAll _
    | importSpans hok => exact h.importSpans hok
    | replace hok => exact h.replace hok
  · rw [hsame]
    exact h

/-- What is true of the empty store and kept by every operation on a store in order is true of
every store that operations reach. -/
theorem after_induction {P : Store → Prop} (hempty : P Store.empty)
    (hstep : ∀ s operation, s.Sound → P s → P (Operation.apply s operation))
    (operations : List Operation) : P (after operations) := by
  -- by induction on the operations that are left, from any store in order
  have hall : ∀ (rest : List Operation) (s : Store), s.Sound → P s →
      P (rest.foldl Operation.apply s) := by
    intro rest
    induction rest with
    | nil =>
      intro s _ h
      exact h
    | cons operation rest ih =>
      intro s hsound h
      exact ih _ (hsound.apply operation) (hstep s operation hsound h)
  exact hall operations Store.empty Sound.empty hempty

/-- Every store that operations reach is in order. -/
theorem sound_after (operations : List Operation) : (after operations).Sound :=
  after_induction Sound.empty (fun _ operation _ h => h.apply operation) operations

/-- What is true of every row that is written, and kept when a tag is added and when a link is
cleared, is true of every row of a store that operations reach. -/
theorem forall_rows_after {P : Row → Prop} (hnew : ∀ id n, P (rowOf id n))
    (htagged : ∀ id tag r, P r → P (tagged id tag r)) (hunlink : ∀ gone r, P r → P (unlink gone r))
    (operations : List Operation) : ∀ r ∈ (after operations).rows, P r := by
  have herase : ∀ (s : Store) (ids : List SessionId), (∀ r ∈ s.rows, P r) →
      ∀ r ∈ (s.eraseAll ids).1.rows, P r := fun s ids h =>
    eraseAll_induction (P := fun t => ∀ r ∈ t.rows, P r)
      (fun _ id ht => forall_mem_erase hunlink ht id) ids h
  have hinsert : ∀ {s next : Store} {n : NewSession} {id : SessionId}, (∀ r ∈ s.rows, P r) →
      s.insert n = .ok (next, id) → ∀ r ∈ next.rows, P r := by
    intro s next n id h hok r hr
    rw [(insert_ok hok).1] at hr
    rcases List.mem_append.mp hr with hr | hr
    · exact h r hr
    · exact List.mem_singleton.mp hr ▸ hnew _ n
  refine after_induction (P := fun s => ∀ r ∈ s.rows, P r) (by simp [Store.empty]) ?_ operations
  intro s operation _ h
  rcases operation.gives_or_same s with hgives | hsame
  · generalize operation.apply s = next at hgives
    cases hgives with
    | insert hok => exact hinsert h hok
    | addTag hok =>
      rw [addTag_ok hok]
      exact List.forall_mem_map.mpr fun r hr => htagged _ _ r (h r hr)
    | remove => exact herase s _ h
    | importSpans hok => exact insertSpans_induction hinsert h hok
    | @replace ids _ _ _ hok =>
      obtain ⟨resolved, all, -, hstore⟩ := replace_ok hok
      exact insertSpans_induction hinsert (herase s ids h) hstore
  · rwa [hsame]

/-! ## Links -/

/-- Every session that a row goes on with is stored, and it is not after the row. -/
def LinksBack (s : Store) : Prop :=
  ∀ r ∈ s.rows, ∀ v, r.continues = some v →
    v ≤ r.id.value ∧ ∃ t ∈ s.rows, t.id.value = v

theorem LinksBack.empty : empty.LinksBack := by
  simp [LinksBack, Store.empty]

theorem LinksBack.insert {n : NewSession} {id : SessionId} (h : s.LinksBack) (ho : s.Ordered)
    (hok : s.insert n = .ok (next, id)) : next.LinksBack := by
  have hnames := (mayNameAll_of_insert hok).2
  obtain ⟨rfl, -⟩ := insert_ok hok
  intro r hr v hv
  rcases List.mem_append.mp hr with hr | hr
  · obtain ⟨hle, t, ht, hid⟩ := h r hr v hv
    exact ⟨hle, t, List.mem_append_left _ ht, hid⟩
  · obtain rfl := List.mem_singleton.mp hr
    obtain ⟨link, hlink, rfl⟩ := Option.map_eq_some_iff.mp hv
    exact leadsBack_of_mayName ho hnames hlink n

theorem continues_tagged (id : SessionId) (tag : String) (r : Row) :
    (tagged id tag r).continues = r.continues := by
  unfold tagged
  split <;> rfl

theorem LinksBack.addTag {id : SessionId} {tag : String} (h : s.LinksBack)
    (hok : s.addTag id tag = .ok next) : next.LinksBack := by
  obtain rfl := addTag_ok hok
  intro r hr v hv
  obtain ⟨old, hold, rfl⟩ := List.mem_map.mp hr
  rw [continues_tagged] at hv
  obtain ⟨hle, t, ht, hid⟩ := h old hold v hv
  rw [id_tagged]
  exact ⟨hle, _, List.mem_map_of_mem ht, by rw [id_tagged, hid]⟩

theorem LinksBack.eraseAll (h : s.LinksBack) (hn : s.Nested) (ids : List SessionId) :
    (s.eraseAll ids).1.LinksBack := by
  intro r' hr' v hv
  obtain ⟨r, hr, hleft⟩ := (mem_eraseAll_iff hn).mp hr'
  by_cases hloses : s.Loses ids r
  · rw [hleft.cleared hloses] at hv
    simp at hv
  · rw [hleft.kept hloses] at hv
    obtain ⟨hle, t, ht, rfl⟩ := h r hr v hv
    -- a session that a kept link leads to stays
    obtain ⟨t', ht'⟩ := exists_leftOf fun htaken => hloses ⟨t, ht, htaken, hv⟩
    rw [hleft.id_eq]
    exact ⟨hle, t', (mem_eraseAll_iff hn).mpr ⟨t, ht, ht'⟩, by rw [ht'.id_eq]⟩

theorem LinksBack.importSpans {spans : List Span} {all : List SessionId} (h : s.LinksBack)
    (ho : s.Ordered) (hok : s.importSpans spans = .ok (next, all)) : next.LinksBack := by
  have hboth : next.Ordered ∧ next.LinksBack :=
    insertSpans_induction (P := fun store => store.Ordered ∧ store.LinksBack)
      (fun hstore hinsert => ⟨hstore.1.insert hinsert, hstore.2.insert hstore.1 hinsert⟩)
      ⟨ho, h⟩ hok
  exact hboth.2

theorem LinksBack.apply (h : s.LinksBack) (hs : s.Sound) (operation : Operation) :
    (operation.apply s).LinksBack := by
  have ho := hs.nested.ordered
  rcases operation.gives_or_same s with hgives | hsame
  · generalize operation.apply s = next at hgives
    cases hgives with
    | insert hok => exact h.insert ho hok
    | addTag hok => exact h.addTag hok
    | remove => exact h.eraseAll hs.nested _
    | importSpans hok => exact h.importSpans ho hok
    | @replace ids _ _ _ hok =>
      obtain ⟨resolved, all, -, hstore⟩ := replace_ok hok
      exact (h.eraseAll hs.nested ids).importSpans (ho.eraseAll ids) hstore
  · rw [hsame]
    exact h

/-- In every store that operations reach, links lead to stored sessions that are not after the
linking one. -/
theorem linksBack_after (operations : List Operation) : (after operations).LinksBack :=
  after_induction LinksBack.empty (fun _ operation hs h => h.apply hs operation) operations

/-! ## Numbers that were given out -/

theorem lastId_le_replace {ids : List SessionId} {spans : List Span} {done : Replacement}
    (hok : s.replace ids spans = .ok (next, done)) : s.lastId ≤ next.lastId := by
  obtain ⟨resolved, all, -, hstore⟩ := replace_ok hok
  rw [(importSpans_ok hstore).2.1, lastId_eraseAll]
  exact Nat.le_add_right _ _

theorem lastId_le_apply (s : Store) (operation : Operation) :
    s.lastId ≤ (operation.apply s).lastId := by
  rcases operation.gives_or_same s with hgives | hsame
  · generalize operation.apply s = next at hgives
    cases hgives with
    | insert hok =>
      rw [(insert_ok hok).1]
      exact Nat.le_succ _
    | addTag hok => exact Nat.le_of_eq (by rw [addTag_ok hok])
    | remove => exact Nat.le_of_eq (lastId_eraseAll s _).symm
    | importSpans hok =>
      rw [(importSpans_ok hok).2.1]
      exact Nat.le_add_right _ _
    | replace hok => exact lastId_le_replace hok
  · exact Nat.le_of_eq (by rw [hsame])

theorem lastId_le_foldl (s : Store) (operations : List Operation) :
    s.lastId ≤ (operations.foldl Operation.apply s).lastId := by
  induction operations generalizing s with
  | nil => exact Nat.le_refl _
  | cons operation rest ih => exact Nat.le_trans (lastId_le_apply s operation) (ih _)

/-- No session that was ever stored on the way has a number beyond the last one. -/
theorem id_le_of_take (operations : List Operation) (k : Nat) :
    ∀ r ∈ (after (operations.take k)).rows, r.id.value ≤ (after operations).lastId := by
  intro r hr
  have hle := (sound_after (operations.take k)).nested.ordered.bounded r hr
  have hlater := lastId_le_foldl (after (operations.take k)) (operations.drop k)
  -- the store in between is where the later operations begin
  have hsplit : (operations.drop k).foldl Operation.apply (after (operations.take k)) =
      after operations := by
    rw [after, ← List.foldl_append, List.take_append_drop, after]
  rw [hsplit] at hlater
  omega

end Daybook.Store
