import Daybook.Proofs.Store.Removal
import Mathlib.Data.List.Perm.Subperm

/-!
# How many sessions a removal counts

Sessions are removed one after the other, and each is counted if it is still stored when its turn
comes. An interruption that is named after the work that it interrupted went with that work, and
is not counted. So the count can be less than the number of stored sessions that were named, and
it depends on the order in which they are named; with later sessions before earlier ones, all are
counted.

* `removeAll_count` : which sessions are counted.
* `removeAll_count_of_decreasing` : an order in which none is missed.
* `count_eraseAll_pair` : two orders that count differently.
-/

namespace Daybook.Store

variable {s next : Store} {ids : List SessionId} {id id' : SessionId} {r : Row}

/-! ## Sessions that are counted -/

/-- The session is stored, and it has not gone with an earlier session of the list when its turn
comes. -/
def InTurn (s : Store) (ids : List SessionId) (id : SessionId) : Prop :=
  ∃ earlier later, ids = earlier ++ id :: later ∧
    ∃ r ∈ s.rows, r.id = id ∧ ¬ s.Taken earlier r

/-- The stored sessions that the list names, each once. -/
def named (s : Store) (ids : List SessionId) : List SessionId :=
  (ids.filter fun id => s.contains id.value).eraseDups

theorem mem_named_iff : id ∈ s.named ids ↔ id ∈ ids ∧ ∃ r ∈ s.rows, r.id = id := by
  rw [named, List.mem_eraseDups, List.mem_filter, contains_iff]
  simp only [SessionId.ext_iff]

theorem InTurn.mem_named (h : s.InTurn ids id) : id ∈ s.named ids := by
  obtain ⟨earlier, later, rfl, r, hr, hid, -⟩ := h
  exact mem_named_iff.mpr ⟨List.mem_append_right _ List.mem_cons_self, r, hr, hid⟩

theorem not_taken_nil : ¬ s.Taken [] r := (leftOf_nil_iff.mpr rfl).stays

/-- The first session is counted if it is stored, and the others are counted in what it leaves. -/
theorem inTurn_cons_iff (h : s.Nested) :
    s.InTurn (id :: ids) id' ↔
      (id' = id ∧ s.contains id.value = true) ∨ (s.erase id).InTurn ids id' := by
  constructor
  · rintro ⟨earlier, later, heq, r, hr, rfl, hstays⟩
    cases earlier with
    | nil =>
      obtain ⟨rfl, -⟩ := List.cons.inj heq
      exact .inl ⟨rfl, contains_iff.mpr ⟨r, hr, rfl⟩⟩
    | cons first earlier =>
      obtain ⟨rfl, rfl⟩ := List.cons.inj heq
      have hleft := leftOf_unlink h fun htaken => hstays (taken_cons_iff.mpr (.inl htaken))
      exact .inr ⟨earlier, later, rfl, _, (mem_erase_iff h).mpr ⟨r, hr, hleft⟩, hleft.id_eq,
        fun htaken => hstays ((taken_erase_iff earlier h hleft).mp htaken)⟩
  · rintro (⟨rfl, hid⟩ | ⟨earlier, later, rfl, r', hr', rfl, hstays⟩)
    · obtain ⟨r, hr, hid⟩ := contains_iff.mp hid
      exact ⟨[], ids, rfl, r, hr, SessionId.ext hid, not_taken_nil⟩
    · obtain ⟨r, hr, hleft⟩ := (mem_erase_iff h).mp hr'
      exact ⟨id :: earlier, later, rfl, r, hr, hleft.id_eq.symm,
        fun htaken => hstays ((taken_erase_iff earlier h hleft).mpr htaken)⟩

/-- A session is not counted again after its removal. -/
theorem not_inTurn_erase : ¬ (s.erase id).InTurn ids id := by
  rintro ⟨-, -, -, r, hr, hid, -⟩
  exact id_ne_of_mem_erase r hr (congrArg SessionId.value hid)

/-- The count is the number of sessions that are stored when their turn comes. -/
theorem exists_counted (h : s.Nested) (ids : List SessionId) :
    ∃ counted : List SessionId, counted.Nodup ∧ counted.length = (s.eraseAll ids).2 ∧
      ∀ id, id ∈ counted ↔ s.InTurn ids id := by
  -- by induction on the removals, each of which leaves a store for the others
  induction ids generalizing s with
  | nil => exact ⟨[], List.nodup_nil, rfl, by simp [InTurn]⟩
  | cons id rest ih =>
    obtain ⟨counted, hdistinct, hlength, hmem⟩ := ih (h.erase id)
    have hcount : (s.eraseAll (id :: rest)).2 =
        counted.length + if s.contains id.value then 1 else 0 := by
      rw [hlength]
      rfl
    cases hid : s.contains id.value with
    | false =>
      refine ⟨counted, hdistinct, by rw [hcount, hid]; rfl, fun id' => ?_⟩
      rw [hmem, inTurn_cons_iff h, hid]
      simp
    | true =>
      have hnew : id ∉ counted := fun hmem' => not_inTurn_erase ((hmem id).mp hmem')
      refine ⟨id :: counted, List.nodup_cons.mpr ⟨hnew, hdistinct⟩, by rw [hcount, hid]; rfl,
        fun id' => ?_⟩
      rw [List.mem_cons, hmem, inTurn_cons_iff h, hid]
      simp

/-! ## Sessions that are missed -/

/-- A stored session is missed when it interrupted one that is named before it, directly or through
others. -/
def Misses (s : Store) (ids : List SessionId) : Prop :=
  ∃ earlier later, ∃ r ∈ s.rows, ids = earlier ++ r.id :: later ∧ r.id ∉ earlier ∧
    ∃ id ∈ earlier, s.Below id.value r

/-- All stored sessions that are named are counted unless one is missed. -/
theorem forall_inTurn_iff (h : s.Ordered) :
    (∀ id ∈ s.named ids, s.InTurn ids id) ↔ ¬ s.Misses ids := by
  constructor
  · rintro hall ⟨earlier, later, r, hr, rfl, hnew, id, hid, hbelow⟩
    have hmem : r.id ∈ s.named (earlier ++ r.id :: later) :=
      mem_named_iff.mpr ⟨List.mem_append_right _ List.mem_cons_self, r, hr, rfl⟩
    obtain ⟨earlier', later', heq, r', hr', hid', hstays⟩ := hall r.id hmem
    obtain rfl : r' = r := h.eq_of_id hr' hr (congrArg SessionId.value hid')
    obtain rfl : earlier = earlier' := eq_of_first heq hnew fun hmem => hstays (.inl hmem)
    exact hstays (.inr ⟨id, hid, hbelow⟩)
  · intro hnone id hid
    obtain ⟨hmem, r, hr, rfl⟩ := mem_named_iff.mp hid
    obtain ⟨earlier, later, rfl, hnew⟩ := List.eq_append_cons_of_mem hmem
    refine ⟨earlier, later, rfl, r, hr, rfl, ?_⟩
    rintro (hearlier | ⟨id, hid, hbelow⟩)
    · exact hnew hearlier
    · exact hnone ⟨earlier, later, r, hr, rfl, hnew, id, hid, hbelow⟩

/-- When sessions of a store that operations reach are removed, those are counted that are stored
when their turn comes. That is not more than were stored at first, and it is less exactly when
one is named after a session that it interrupted. -/
theorem removeAll_count (operations : List Operation) (ids : List SessionId) {count : Nat}
    (hok : (after operations).removeAll ids = .ok (next, count)) :
    (∃ counted : List SessionId, counted.Nodup ∧ counted.length = count ∧
        ∀ id, id ∈ counted ↔ (after operations).InTurn ids id) ∧
      count ≤ ((after operations).named ids).length ∧
      (count = ((after operations).named ids).length ↔ ¬ (after operations).Misses ids) := by
  have hn : (after operations).Nested := (sound_after operations).nested
  obtain ⟨counted, hdistinct, hlength, hmem⟩ := exists_counted hn ids
  obtain rfl : counted.length = count := by rw [hlength, removeAll_ok hok]
  have hnamed : ((after operations).named ids).Nodup := nodup_eraseDups _
  have hsub : counted ⊆ (after operations).named ids := fun id hid =>
    ((hmem id).mp hid).mem_named
  have hsubperm := List.subperm_of_subset hdistinct hsub
  refine ⟨⟨counted, hdistinct, rfl, hmem⟩, hsubperm.length_le, ?_⟩
  rw [← forall_inTurn_iff hn.ordered]
  constructor
  · intro heq id hid
    exact (hmem id).mp ((hsubperm.perm_of_length_le (Nat.le_of_eq heq.symm)).mem_iff.mpr hid)
  · intro hall
    refine ((List.perm_ext_iff_of_nodup hdistinct hnamed).mpr fun id => ?_).length_eq
    exact ⟨fun hid => hsub hid, fun hid => (hmem id).mpr (hall id hid)⟩

/-! ## The order of removals -/

/-- Where later sessions are named before earlier ones, none is missed, since an interruption is
later than what it interrupted. -/
theorem not_misses_of_decreasing (h : s.Nested) (hdecreasing : ids.Pairwise fun a b => b ≤ a) :
    ¬ s.Misses ids := by
  rintro ⟨earlier, later, r, hr, rfl, hnew, id, hid, n, hlevel⟩
  have hafter : r.id ≤ id :=
    (List.pairwise_append.mp hdecreasing).2.2 id hid r.id List.mem_cons_self
  have hsame : id.value = r.id.value := Int.le_antisymm (hlevel.le_id h hr) hafter
  exact hnew (SessionId.ext hsame ▸ hid)

theorem removeAll_count_of_decreasing (operations : List Operation)
    (hdecreasing : ids.Pairwise fun a b => b ≤ a) {count : Nat}
    (hok : (after operations).removeAll ids = .ok (next, count)) :
    count = ((after operations).named ids).length := by
  obtain ⟨-, -, hall⟩ := removeAll_count operations ids hok
  exact hall.mpr (not_misses_of_decreasing (sound_after operations).nested hdecreasing)

theorem contains_erase_iff (h : s.Nested) {v : Int} :
    (s.erase id).contains v = true ↔ ∃ r ∈ s.rows, r.id.value = v ∧ ¬ s.Taken [id] r := by
  rw [contains_iff]
  constructor
  · rintro ⟨r', hr', rfl⟩
    obtain ⟨r, hr, hleft⟩ := (mem_erase_iff h).mp hr'
    exact ⟨r, hr, congrArg SessionId.value hleft.id_eq.symm, hleft.stays⟩
  · rintro ⟨r, hr, rfl, hstays⟩
    have hleft := leftOf_unlink h hstays
    exact ⟨_, (mem_erase_iff h).mpr ⟨r, hr, hleft⟩, congrArg SessionId.value hleft.id_eq⟩

/-- A session and an interruption of it are both counted if the interruption is named first, and
only one of them if it is named last. -/
theorem count_eraseAll_pair (h : s.Nested) {above below : Row} (habove : above ∈ s.rows)
    (hbelow : below ∈ s.rows) (hne : above.id ≠ below.id) (hlevel : s.Below above.id.value below) :
    (s.eraseAll [above.id, below.id]).2 = 1 ∧ (s.eraseAll [below.id, above.id]).2 = 2 := by
  have hstored : ∀ {r}, r ∈ s.rows → s.contains r.id.value = true := fun hr =>
    contains_iff.mpr ⟨_, hr, rfl⟩
  have hgone : (s.erase above.id).contains below.id.value = false := by
    rw [Bool.eq_false_iff, ne_eq, contains_erase_iff h]
    rintro ⟨r, hr, hid, hstays⟩
    obtain rfl := h.ordered.eq_of_id hr hbelow hid
    exact hstays (.inr ⟨above.id, List.mem_singleton_self _, hlevel⟩)
  have hstays : (s.erase below.id).contains above.id.value = true := by
    refine (contains_erase_iff h).mpr ⟨above, habove, rfl, ?_⟩
    rintro (hmem | ⟨_, hmem, m, hup⟩)
    · exact hne (List.mem_singleton.mp hmem)
    · -- each of the two would be below the other
      obtain rfl := List.mem_singleton.mp hmem
      obtain ⟨n, hdown⟩ := hlevel
      exact hne (SessionId.ext (Int.le_antisymm (hdown.le_id h hbelow) (hup.le_id h habove)))
  simp [eraseAll, hstored habove, hstored hbelow, hgone, hstays]

end Daybook.Store
