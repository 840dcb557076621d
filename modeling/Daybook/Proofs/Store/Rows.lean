import Daybook.Proofs.Result
import Daybook.Store.Batch
import Mathlib.Data.List.Pairwise

/-!
# The rows of a store

What adding and removing does to the rows. New rows come last, under numbers that were never
given out; removing leaves a part of the rows, in order, and changes at most what they go on
with.

* `Store.Ordered` : the numbers increase along the rows and none is beyond the last one.
* `Store.Chained` : every link of a row is to the start of a chain.
-/

namespace Daybook

/-! ## Rows without their links -/

/-- The row without what it goes on with. -/
def Row.core (r : Row) : Row :=
  { r with continues := none }

theorem Row.id_eq_of_core {a b : Row} (h : a.core = b.core) : a.id = b.id := by
  have hid : a.core.id = b.core.id := congrArg Row.id h
  exact hid

namespace Store

theorem core_unlink (gone : List Int) (r : Row) : (unlink gone r).core = r.core := by
  unfold unlink
  split <;> rfl

theorem id_unlink (gone : List Int) (r : Row) : (unlink gone r).id = r.id :=
  Row.id_eq_of_core (core_unlink gone r)

/-! ## Rows by number and by start -/

/-- Rows whose numbers increase are known by their numbers. -/
theorem eq_of_increasing {rows : List Row}
    (hrows : rows.Pairwise fun a b => a.id.value < b.id.value) {a b : Row} (ha : a ∈ rows)
    (hb : b ∈ rows) (hid : a.id.value = b.id.value) : a = b := by
  have hne : rows.Pairwise fun a b => a.id.value ≠ b.id.value := hrows.imp Int.ne_of_lt
  have hsymm : Std.Symm fun a b : Row => a.id.value ≠ b.id.value := ⟨fun _ _ h => h.symm⟩
  by_contra hdiff
  exact hne.forall ha hb hdiff hid

theorem mem_byStart_iff {rows : List Row} {r : Row} : r ∈ byStart rows ↔ r ∈ rows :=
  List.mem_mergeSort

theorem mem_of_getLast?_byStart {rows : List Row} {r : Row}
    (h : (byStart rows).getLast? = some r) : r ∈ rows :=
  mem_byStart_iff.mp (List.mem_of_getLast? h)

/-! ## Rows read as sessions -/

theorem linkOf_ok {link : Option Int} {id : Option SessionId} (h : linkOf link = .ok id) :
    id.map SessionId.value = link := by
  cases link with
  | none =>
    obtain rfl := Except.ok.inj h
    rfl
  | some value =>
    obtain ⟨found, hfound, h⟩ := bind_eq_ok.mp h
    obtain rfl := Except.ok.inj h
    unfold SessionId.ofInt at hfound
    split at hfound
    · obtain rfl := Except.ok.inj hfound
      rfl
    · simp [checked] at hfound

/-- A session has the fields of its row; only what the row has as texts and numbers is read. -/
theorem exists_eq_of_session_ok {r : Row} {session : Session} (h : r.session = .ok session) :
    ∃ start stop state parent continues, linkOf r.continues = .ok continues ∧
      session =
        { id := r.id
          description := r.description
          project := r.project
          tags := r.tags
          start
          stop
          state
          parent
          continues
          estimate := r.estimate
          remark := r.remark } := by
  unfold Row.session at h
  obtain ⟨start, -, h⟩ := bind_eq_ok.mp h
  -- with or without an end, the fields after it are read in the same way
  have hend : ∃ stop, (do
      let state ← checked (State.ofWord r.state)
      let parent ← linkOf r.parent
      let continues ← linkOf r.continues
      Except.ok
        ({ id := r.id
           description := r.description
           project := r.project
           tags := r.tags
           start
           stop
           state
           parent
           continues
           estimate := r.estimate
           remark := r.remark } : Session)) = .ok session := by
    cases hstop : r.stop with
    | none =>
      rw [hstop] at h
      exact ⟨none, h⟩
    | some text =>
      rw [hstop] at h
      obtain ⟨t, -, h⟩ := bind_eq_ok.mp h
      exact ⟨some t, h⟩
  obtain ⟨stop, hend⟩ := hend
  obtain ⟨state, -, hend⟩ := bind_eq_ok.mp hend
  obtain ⟨parent, -, hend⟩ := bind_eq_ok.mp hend
  obtain ⟨continues, hcontinues, hend⟩ := bind_eq_ok.mp hend
  exact ⟨start, stop, state, parent, continues, hcontinues, (Except.ok.inj hend).symm⟩

/-- A session has the number, the link and the tags of its row. -/
theorem session_ok {r : Row} {session : Session} (h : r.session = .ok session) :
    session.id = r.id ∧ session.continues.map SessionId.value = r.continues ∧
      session.tags = r.tags := by
  obtain ⟨start, stop, state, parent, continues, hcontinues, rfl⟩ := exists_eq_of_session_ok h
  exact ⟨rfl, linkOf_ok hcontinues, rfl⟩

/-- A filter admits a session when it admits the row. -/
theorem admits_of_session_ok {r : Row} {session : Session} (h : r.session = .ok session)
    (f : Filter) : f.admits session.description session.project session.tags =
      f.admits r.description r.project r.tags := by
  obtain ⟨start, stop, state, parent, continues, -, rfl⟩ := exists_eq_of_session_ok h
  rfl

/-! ## Removing -/

variable {s after : Store}

theorem contains_iff {v : Int} : s.contains v = true ↔ ∃ r ∈ s.rows, r.id.value = v := by
  rw [contains, row?, List.find?_isSome]
  simp

theorem contains_eq_false_iff {v : Int} : s.contains v = false ↔ ∀ r ∈ s.rows, r.id.value ≠ v := by
  rw [contains, row?, Option.isSome_eq_false_iff, Option.isNone_iff_eq_none, List.find?_eq_none]
  constructor
  · intro h r hr heq
    exact h r hr (by simpa using heq)
  · intro h r hr heq
    exact h r hr (by simpa using heq)

/-- The rows after a removal, when there is something to remove. -/
theorem rows_erase {id : SessionId} (h : s.contains id.value = true) :
    (s.erase id).rows =
      (s.rows.filter fun r => !s.goesWith id.value r).map
        (unlink ((s.rows.filter (s.goesWith id.value)).map fun r => r.id.value)) := by
  rw [erase, if_pos h]

theorem erase_of_not_contains {id : SessionId} (h : s.contains id.value = false) :
    s.erase id = s := by
  rw [erase, if_neg (by simp [h])]

@[simp]
theorem lastId_erase (s : Store) (id : SessionId) : (s.erase id).lastId = s.lastId := by
  unfold erase
  split <;> rfl

/-- What is true of every row is true of every row that is left, if clearing links keeps it. -/
theorem forall_mem_erase {P : Row → Prop} (hunlink : ∀ gone r, P r → P (unlink gone r))
    (h : ∀ r ∈ s.rows, P r) (id : SessionId) : ∀ r ∈ (s.erase id).rows, P r := by
  intro r hr
  cases hcontains : s.contains id.value with
  | false =>
    rw [erase_of_not_contains hcontains] at hr
    exact h r hr
  | true =>
    rw [rows_erase hcontains] at hr
    obtain ⟨old, hold, rfl⟩ := List.mem_map.mp hr
    exact hunlink _ old (h old (List.mem_filter.mp hold).1)

/-- Removing a session leaves a part of the rows, but for their links. -/
theorem core_erase_sublist (s : Store) (id : SessionId) :
    ((s.erase id).rows.map Row.core).Sublist (s.rows.map Row.core) := by
  cases h : s.contains id.value with
  | false => simp [erase_of_not_contains h]
  | true =>
    have hcore : Row.core ∘
        unlink ((s.rows.filter (s.goesWith id.value)).map fun r => r.id.value) = Row.core :=
      funext fun r => core_unlink _ r
    rw [rows_erase h, List.map_map, hcore]
    exact List.filter_sublist.map Row.core

/-- The session that is removed is gone. -/
theorem id_ne_of_mem_erase {id : SessionId} : ∀ r ∈ (s.erase id).rows, r.id.value ≠ id.value := by
  intro r hr heq
  cases h : s.contains id.value with
  | false =>
    rw [erase_of_not_contains h] at hr
    exact contains_eq_false_iff.mp h r hr heq
  | true =>
    rw [rows_erase h] at hr
    obtain ⟨old, hold, rfl⟩ := List.mem_map.mp hr
    rw [id_unlink] at heq
    -- a row goes with itself
    have hgoes : s.goesWith id.value old = true := by simp [goesWith, heq]
    have hstays := (List.mem_filter.mp hold).2
    rw [hgoes] at hstays
    exact Bool.noConfusion hstays

/-- What every removal keeps, removing any number of sessions keeps. -/
theorem eraseAll_induction {P : Store → Prop} (hstep : ∀ s id, P s → P (s.erase id))
    (ids : List SessionId) (h : P s) : P (s.eraseAll ids).1 := by
  induction ids generalizing s with
  | nil => exact h
  | cons id rest ih => exact ih (hstep s id h)

theorem core_eraseAll_sublist (s : Store) (ids : List SessionId) :
    ((s.eraseAll ids).1.rows.map Row.core).Sublist (s.rows.map Row.core) := by
  refine eraseAll_induction (P := fun t => (t.rows.map Row.core).Sublist (s.rows.map Row.core))
    ?_ ids (List.Sublist.refl _)
  intro t id ht
  exact (core_erase_sublist t id).trans ht

theorem lastId_eraseAll (s : Store) (ids : List SessionId) :
    (s.eraseAll ids).1.lastId = s.lastId := by
  refine eraseAll_induction (P := fun t => t.lastId = s.lastId) ?_ ids rfl
  intro t id ht
  rw [lastId_erase, ht]

/-- A row that is left was there before, but for its link. -/
theorem exists_of_mem_of_sublist {rows rows' : List Row}
    (h : (rows'.map Row.core).Sublist (rows.map Row.core)) :
    ∀ r' ∈ rows', ∃ r ∈ rows, r.core = r'.core := by
  intro r' hr'
  have hmem := h.subset (List.mem_map_of_mem hr')
  obtain ⟨r, hr, heq⟩ := List.mem_map.mp hmem
  exact ⟨r, hr, heq⟩

/-- The sessions that are removed are gone. -/
theorem id_notMem_of_mem_eraseAll {ids : List SessionId} :
    ∀ r ∈ (s.eraseAll ids).1.rows, r.id ∉ ids := by
  induction ids generalizing s with
  | nil => simp
  | cons id rest ih =>
    intro r hr hmem
    -- it went when its turn came, and no later removal brings it back
    rcases List.mem_cons.mp hmem with rfl | hmem
    · obtain ⟨old, hold, hcore⟩ :=
        exists_of_mem_of_sublist (core_eraseAll_sublist (s.erase r.id) rest) r hr
      have hid : old.id.value = r.id.value := congrArg SessionId.value (Row.id_eq_of_core hcore)
      exact id_ne_of_mem_erase old hold hid
    · exact ih r hr hmem

/-- A removal that does not fail leaves what is left without the sessions. -/
theorem removeAll_ok {ids : List SessionId} {result : Store × Nat}
    (h : s.removeAll ids = .ok result) : s.eraseAll ids = result := by
  unfold removeAll at h
  split at h
  · simp at h
  · exact Except.ok.inj h

/-- Nothing is removed when a removal reaches too deep. -/
theorem removeAll_of_deep {ids : List SessionId} (h : s.goesTooDeep ids = true) :
    s.removeAll ids = .error .tooDeep := if_pos h

theorem removeAll_of_shallow {ids : List SessionId} (h : s.goesTooDeep ids = false) :
    s.removeAll ids = .ok (s.eraseAll ids) := if_neg (by simp [h])

/-! ## Numbers -/

/-- The numbers increase along the rows, and the last number given out is not below any. -/
structure Ordered (s : Store) : Prop where
  increasing : s.rows.Pairwise fun a b => a.id.value < b.id.value
  bounded : ∀ r ∈ s.rows, r.id.value ≤ s.lastId

theorem Ordered.empty : empty.Ordered where
  increasing := List.Pairwise.nil
  bounded := by simp [Store.empty]

theorem Ordered.of_sublist (h : s.Ordered)
    (hsub : (after.rows.map Row.core).Sublist (s.rows.map Row.core))
    (hlast : after.lastId = s.lastId) : after.Ordered where
  increasing := by
    have hcore : (s.rows.map Row.core).Pairwise fun a b => a.id.value < b.id.value :=
      List.pairwise_map.mpr h.increasing
    have hafter : (after.rows.map Row.core).Pairwise fun a b => a.id.value < b.id.value :=
      hcore.sublist hsub
    rw [List.pairwise_map] at hafter
    exact hafter
  bounded := by
    intro r hr
    obtain ⟨old, hold, hcore⟩ := exists_of_mem_of_sublist hsub r hr
    rw [hlast, ← Row.id_eq_of_core hcore]
    exact h.bounded old hold

theorem Ordered.eraseAll (h : s.Ordered) (ids : List SessionId) : (s.eraseAll ids).1.Ordered :=
  h.of_sublist (core_eraseAll_sublist s ids) (lastId_eraseAll s ids)

/-- A row is found under its own number. -/
theorem Ordered.row?_eq_some (h : s.Ordered) {r : Row} (hr : r ∈ s.rows) :
    s.row? r.id.value = some r := by
  unfold row?
  have hincreasing := h.increasing
  clear h
  generalize s.rows = rows at hr hincreasing
  induction rows with
  | nil => simp at hr
  | cons first rest ih =>
    obtain ⟨hfirst, hrest⟩ := List.pairwise_cons.mp hincreasing
    rcases List.mem_cons.mp hr with rfl | hr
    · simp
    · have hne : first.id.value ≠ r.id.value := Int.ne_of_lt (hfirst r hr)
      rw [List.find?_cons_of_neg (by simpa using hne)]
      exact ih hr hrest

/-! ## Links -/

/-- Every link of a row is to a row before it that is paused and has no link. -/
def Chained (s : Store) : Prop :=
  ∀ r ∈ s.rows, ∀ v, r.continues = some v →
    ∃ t ∈ s.rows, t.id.value = v ∧ v < r.id.value ∧ t.state = State.paused.word ∧
      t.continues = none

theorem Chained.empty : empty.Chained := by
  intro r hr
  simp [Store.empty] at hr

theorem continues_unlink {gone : List Int} {r : Row} {v : Int}
    (h : (unlink gone r).continues = some v) : r.continues = some v ∧ v ∉ gone := by
  unfold unlink at h
  split at h
  · simp at h
  · next hany =>
    refine ⟨h, fun hmem => hany ?_⟩
    rw [h, Option.any_some]
    exact List.contains_iff_mem.mpr hmem

/-- A link that is left is to a session that is left. -/
theorem Chained.erase (h : s.Chained) (id : SessionId) : (s.erase id).Chained := by
  cases hcontains : s.contains id.value with
  | false =>
    rw [erase_of_not_contains hcontains]
    exact h
  | true =>
    intro r' hr' v hv
    rw [rows_erase hcontains] at hr' ⊢
    obtain ⟨r, hr, rfl⟩ := List.mem_map.mp hr'
    obtain ⟨hlink, hnot⟩ := continues_unlink hv
    obtain ⟨t, ht, hid, hlt, hstate, hnone⟩ := h r (List.mem_filter.mp hr).1 v hlink
    -- a link to a session that goes was cleared
    have hstays : s.goesWith id.value t = false := by
      cases hgoes : s.goesWith id.value t with
      | false => rfl
      | true =>
        have hmem := List.mem_map_of_mem (f := fun r => r.id.value)
          (List.mem_filter.mpr ⟨ht, hgoes⟩)
        rw [hid] at hmem
        exact absurd hmem hnot
    have hkept : t ∈ s.rows.filter fun r => !s.goesWith id.value r :=
      List.mem_filter.mpr ⟨ht, by simp [hstays]⟩
    have hsame : unlink ((s.rows.filter (s.goesWith id.value)).map fun r => r.id.value) t = t := by
      rw [unlink, hnone]
      rfl
    refine ⟨t, ?_, hid, ?_, hstate, hnone⟩
    · have hmem := List.mem_map_of_mem (f := unlink ((s.rows.filter (s.goesWith id.value)).map
        fun r => r.id.value)) hkept
      rwa [hsame] at hmem
    · rwa [id_unlink]

theorem Chained.eraseAll (h : s.Chained) (ids : List SessionId) : (s.eraseAll ids).1.Chained :=
  eraseAll_induction (fun _ id ht => ht.erase id) ids h

end Store

end Daybook
