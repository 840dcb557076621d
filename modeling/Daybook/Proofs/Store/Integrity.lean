import Daybook.Proofs.Store.Operations
import Mathlib.Data.List.Nodup

/-!
# The integrity of the store

Whatever is asked of a store and whatever comes of it, its sessions are told apart by their
numbers, every reference from one session to another leads somewhere, tags belong to stored
sessions and are kept once, and no number is given out a second time.

* `Operation.grows_apply` : the sessions that are stored after an operation, by number.
* `importSpans_all_or_none` : spans are stored together, or the first fault stops all of them.
* `intact_after` : what is true after any operations.
-/

namespace Daybook.Store

variable {s : Store}

/-! ## What a store keeps -/

/-- The numbers of the stored sessions, in order. -/
def ids (s : Store) : List SessionId :=
  s.rows.map Row.id

/-- The tags of all sessions, each with the number of its session. -/
def tagRows (s : Store) : List (SessionId × String) :=
  s.rows.flatMap fun r => r.tags.map fun tag => (r.id, tag)

/-- A session that a row names by `link` is stored, and it is not after the row. -/
def LeadsBack (s : Store) (r : Row) (link : Option Int) : Prop :=
  ∀ v, link = some v → v ≤ r.id.value ∧ ∃ id ∈ s.ids, id.value = v

/-- All that is stored fits together. -/
structure Intact (s : Store) : Prop where
  positive : ∀ id ∈ s.ids, 0 < id.value
  distinct : s.ids.Nodup
  parent : ∀ r ∈ s.rows, s.LeadsBack r r.parent
  continues : ∀ r ∈ s.rows, s.LeadsBack r r.continues
  tagged : ∀ row ∈ s.tagRows, row.1 ∈ s.ids
  tags : s.tagRows.Nodup

theorem exists_id_of_row {v : Int} (h : ∃ r ∈ s.rows, r.id.value = v) :
    ∃ id ∈ s.ids, id.value = v := by
  obtain ⟨r, hr, hid⟩ := h
  exact ⟨r.id, List.mem_map_of_mem hr, hid⟩

theorem Ordered.nodup_ids (h : s.Ordered) : s.ids.Nodup := by
  refine List.pairwise_map.mpr (h.increasing.imp ?_)
  rintro a b hlt heq
  rw [heq] at hlt
  exact absurd hlt (Int.lt_irrefl _)

/-- Tags are kept once, since no two sessions share a number and no session has a tag twice. -/
theorem Sound.nodup_tagRows (h : s.Sound) : s.tagRows.Nodup := by
  refine List.nodup_flatMap.mpr ⟨?_, ?_⟩
  · intro r hr
    exact (h.tags r hr).map fun _ _ heq => (Prod.mk.inj heq).2
  · refine h.nested.ordered.increasing.imp ?_
    rintro a b hlt ⟨id, tag⟩ ha hb
    obtain ⟨_, _, heq⟩ := List.mem_map.mp ha
    obtain ⟨_, _, heq'⟩ := List.mem_map.mp hb
    have hsame : a.id = b.id := (Prod.mk.inj heq).1.trans (Prod.mk.inj heq').1.symm
    rw [hsame] at hlt
    exact absurd hlt (Int.lt_irrefl _)

theorem Sound.intact (h : s.Sound) (hlinks : s.LinksBack) : s.Intact where
  positive id _ := id.pos
  distinct := h.nested.ordered.nodup_ids
  parent r hr v hv := by
    obtain ⟨hle, hstored⟩ := h.nested.parent r hr v hv
    exact ⟨hle, exists_id_of_row hstored⟩
  continues r hr v hv := by
    obtain ⟨hle, hstored⟩ := hlinks r hr v hv
    exact ⟨hle, exists_id_of_row hstored⟩
  tagged row hrow := by
    obtain ⟨r, hr, hmem⟩ := List.mem_flatMap.mp hrow
    obtain ⟨tag, -, rfl⟩ := List.mem_map.mp hmem
    exact List.mem_map_of_mem hr
  tags := h.nodup_tagRows

/-! ## New numbers -/

/-- The numbers that a change gives out, none if it fails. -/
def numbersOf {α : Type} (numbers : α → List SessionId) :
    Except StoreError (Store × α) → List SessionId
  | .ok (_, a) => numbers a
  | .error _ => []

/-- The numbers that an operation gives out. -/
def Operation.given (store : Store) : Operation → List SessionId
  | .insert n => numbersOf (fun id => [id]) (store.insert n)
  | .addTag _ _ => []
  | .remove _ => []
  | .importSpans spans => numbersOf id (store.importSpans spans)
  | .replace ids spans => numbersOf Replacement.ids (store.replace ids spans)

theorem ids_tagged (id : SessionId) (tag : String) :
    ({ s with rows := s.rows.map (tagged id tag) } : Store).ids = s.ids := by
  simp only [ids, List.map_map]
  exact List.map_congr_left fun r _ => id_tagged id tag r

theorem ids_eraseAll_sublist (s : Store) (gone : List SessionId) :
    (s.eraseAll gone).1.ids.Sublist s.ids := by
  have hcore := (core_eraseAll_sublist s gone).map Row.id
  rw [List.map_map, List.map_map] at hcore
  exact hcore

theorem ids_importSpans {spans : List Span} {next : Store} {all : List SessionId}
    (h : s.importSpans spans = .ok (next, all)) :
    next.ids = s.ids ++ numbersTo s.lastId spans.length := by
  have hnew : (spans.mapIdx (rowAt s.lastId)).map Row.id = numbersTo s.lastId spans.length := by
    apply List.ext_getElem
    · simp [numbersTo]
    · intro k _ _
      simp only [List.getElem_map, List.getElem_mapIdx, numbersTo, List.getElem_range]
      rfl
  rw [ids, (importSpans_ok h).1, List.map_append, hnew]
  rfl

/-- From one store to another some of the sessions are left, and behind them are new ones under
the next numbers. -/
def Grows (s next : Store) (new : List SessionId) : Prop :=
  ∃ kept count, kept.Sublist s.ids ∧ new = numbersTo s.lastId count ∧ next.ids = kept ++ new

theorem Grows.refl (s : Store) : s.Grows s [] :=
  ⟨s.ids, 0, List.Sublist.refl _, rfl, (List.append_nil _).symm⟩

/-- A change that fails gives no number out and leaves all sessions. -/
theorem Grows.settled {α : Type} {numbers : α → List SessionId}
    {result : Except StoreError (Store × α)}
    (hok : ∀ next a, result = .ok (next, a) → s.Grows next (numbers a)) :
    s.Grows (s.settled result) (numbersOf numbers result) := by
  cases result with
  | error e => exact .refl s
  | ok pair => exact hok pair.1 pair.2 rfl

/-- Some sessions go, and then spans are stored. -/
theorem Grows.importSpans (gone : List SessionId) {all : List SessionId} {spans : List Span}
    {next : Store} (h : (s.eraseAll gone).1.importSpans spans = .ok (next, all)) :
    s.Grows next all := by
  have hall := importSpans_ids h
  have hids := ids_importSpans h
  rw [lastId_eraseAll] at hall hids
  exact ⟨_, _, ids_eraseAll_sublist s gone, hall, hids.trans (by rw [hall])⟩

/-- After an operation some of the sessions are left, and behind them are the new ones, under the
numbers that were given out. -/
theorem Operation.grows_apply (s : Store) (operation : Operation) :
    s.Grows (operation.apply s) (operation.given s) := by
  cases operation with
  | insert n =>
    refine Grows.settled fun next id hok => ?_
    obtain ⟨rfl, rfl⟩ := insert_ok hok
    exact ⟨s.ids, 1, List.Sublist.refl _, rfl, List.map_append⟩
  | addTag id tag =>
    cases h : s.addTag id tag with
    | error e =>
      rw [apply, h]
      exact .refl s
    | ok next =>
      obtain rfl := addTag_ok h
      rw [apply, h]
      exact ⟨s.ids, 0, List.Sublist.refl _, rfl,
        (ids_tagged id tag).trans (List.append_nil _).symm⟩
  | remove gone =>
    cases h : s.removeAll gone with
    | error e =>
      rw [apply, h]
      exact .refl s
    | ok pair =>
      obtain rfl := removeAll_ok h
      rw [apply, h]
      exact ⟨_, 0, ids_eraseAll_sublist s gone, rfl, (List.append_nil _).symm⟩
  | importSpans spans =>
    exact Grows.settled fun next all hok => Grows.importSpans [] hok
  | replace gone spans =>
    refine Grows.settled fun next done hok => ?_
    obtain ⟨resolved, all, -, hstored, rfl⟩ := steps_of_replace hok
    exact Grows.importSpans gone hstored

theorem mem_numbersTo {lastId count : Nat} {id : SessionId} :
    id ∈ numbersTo lastId count ↔ ∃ k < count, numberAt lastId k = id := by
  simp [numbersTo]

theorem pairwise_numbersTo (lastId count : Nat) :
    (numbersTo lastId count).Pairwise fun a b => a.value < b.value := by
  refine List.pairwise_map.mpr (List.pairwise_lt_range.imp ?_)
  intro j k hlt
  simp only [numberAt]
  omega

/-! ## Spans stored together -/

/-- Spans are stored exactly when each can be once its own row is there. Then there is one new
number for each, and the numbers increase. Otherwise the error is that of the first span that
cannot be stored, and the store is left as it was. -/
theorem importSpans_all_or_none (s : Store) (spans : List Span) :
    ((∃ next ids, s.importSpans spans = .ok (next, ids)) ↔
        ∀ k span, spans[k]? = some span → s.Admits spans k span) ∧
      (∀ next ids, s.importSpans spans = .ok (next, ids) →
        next = s.withSpans spans ∧ next.ids = s.ids ++ ids ∧ ids.length = spans.length ∧
          ids.Pairwise fun a b => a.value < b.value) ∧
      (∀ e, s.importSpans spans = .error e ↔
        ∃ k span, spans[k]? = some span ∧ s.AdmitsTo spans k ∧ s.Fault spans k span e) ∧
      ∀ e, s.importSpans spans = .error e → (Operation.importSpans spans).apply s = s := by
  refine ⟨⟨?_, ?_⟩, ?_, fun e => importSpans_eq_error_iff, ?_⟩
  · rintro ⟨next, ids, hok⟩ k span hspan
    obtain ⟨hlt, -⟩ := List.getElem?_eq_some_iff.mp hspan
    exact (importSpans_eq_ok_iff.mp hok).1 k hlt span hspan
  · intro hall
    exact ⟨_, _, importSpans_of_admits fun k _ span hspan => hall k span hspan⟩
  · intro next ids hok
    obtain ⟨rfl, rfl⟩ := Prod.mk.inj (importSpans_eq_ok_iff.mp hok).2
    exact ⟨rfl, ids_importSpans hok, length_numbersTo _ _, pairwise_numbersTo _ _⟩
  · intro e herror
    rw [Operation.apply, herror]
    rfl

/-! ## Integrity -/

/-- After any operations, successful or not, all that is stored fits together. The numbers that one
more operation gives out increase, each is that of a session stored by it, and each is beyond
every number that was ever stored before; no other session is new. -/
theorem intact_after (operations : List Operation) (operation : Operation) :
    let before := after operations
    let now := after (operations ++ [operation])
    before.Intact ∧
      (operation.given before).Pairwise (fun a b => a.value < b.value) ∧
      (∀ id ∈ operation.given before, id ∈ now.ids ∧
        ∀ k, ∀ old ∈ (after (operations.take k)).ids, old.value < id.value) ∧
      ∀ id ∈ now.ids, id ∈ before.ids ∨ id ∈ operation.given before := by
  intro before now
  have hsound := sound_after operations
  obtain ⟨kept, count, hkept, hgiven, hids⟩ := operation.grows_apply before
  rw [← after_snoc] at hids
  refine ⟨hsound.intact (linksBack_after operations), ?_, ?_, ?_⟩
  · rw [hgiven]
    exact pairwise_numbersTo _ _
  · intro id hid
    refine ⟨hids ▸ List.mem_append_right _ hid, ?_⟩
    intro k old hold
    obtain ⟨r, hr, rfl⟩ := List.mem_map.mp hold
    have hle : r.id.value ≤ before.lastId := id_le_of_take operations k r hr
    rw [hgiven] at hid
    obtain ⟨j, -, rfl⟩ := mem_numbersTo.mp hid
    simp only [numberAt]
    omega
  · intro id hid
    rcases List.mem_append.mp (hids ▸ hid) with hold | hnew
    · exact .inl (hkept.subset hold)
    · exact .inr hnew

end Daybook.Store
