import Daybook.Proofs.Store.Chain
import Mathlib.Data.List.Perm.Subperm

/-!
# Where a chain ends

The chain of a session is followed from link to link. Nothing is assumed of the links: one may
lead to a session that is not stored, to the session that has it, or into a cycle. Since a chain
is followed only to sessions that were not visited, it ends within as many sessions as are stored.

* `Store.exists_endsAt` : every chain ends.
* `Store.chainRoot_of_endsAt` : the end of a chain is what the store answers with.
* `Store.chainRoot_ends` : the answer for every number.
-/

namespace Daybook.Store

variable {s : Store} {id : SessionId} {visited : List SessionId} {first t last : Session}
  {fuel : Nat}

/-! ## Stored sessions -/

/-- Every row can be read as a session. -/
def Legible (s : Store) : Prop :=
  ∀ r ∈ s.rows, ∃ session, r.session = .ok session

theorem legible_iff : s.Legible ↔ ∀ r ∈ s.rows, r.session.toOption.isSome = true := by
  refine forall_congr' fun r => forall_congr' fun _ => ?_
  cases r.session <;> simp [Except.toOption]

instance (s : Store) : Decidable s.Legible := decidable_of_iff _ legible_iff.symm

theorem exists_session? (h : s.Legible) (id : SessionId) :
    ∃ found, s.session? id = .ok found := by
  unfold session?
  split
  · exact ⟨none, rfl⟩
  · next r hr =>
    obtain ⟨session, hsession⟩ := h r (List.mem_of_find?_eq_some hr)
    exact ⟨some session, bind_eq_ok.mpr ⟨session, hsession, rfl⟩⟩

/-- The session that is found under a number is the one with the number. -/
theorem id_of_session? (h : s.session? id = .ok (some t)) : t.id = id := by
  unfold session? at h
  split at h
  · simp at h
  · next r hr =>
    obtain ⟨session, hsession, h⟩ := bind_eq_ok.mp h
    obtain rfl := Option.some.inj (Except.ok.inj h)
    rw [(session_ok hsession).1]
    exact SessionId.ext (by simpa using List.find?_some hr)

/-- No session is found exactly where none is stored. -/
theorem session?_eq_none_iff : s.session? id = .ok none ↔ s.contains id.value = false := by
  rw [contains, Option.isSome_eq_false_iff, Option.isNone_iff_eq_none, session?]
  cases s.row? id.value with
  | none => simp
  | some r =>
    simp only [reduceCtorEq, iff_false]
    intro h
    obtain ⟨session, -, h⟩ := bind_eq_ok.mp h
    simp at h

/-! ## The way along the links -/

/-- Following links from the session with a number leads to the session `t`. The numbers of the
sessions on the way are `visited`, the last of them first. -/
inductive Way (s : Store) (id : SessionId) : List SessionId → Session → Prop where
  | here {t : Session} (h : s.session? id = .ok (some t)) : Way s id [id] t
  | link {visited : List SessionId} {t u : Session} {next : SessionId}
      (hway : Way s id visited t) (hlink : t.continues = some next)
      (h : s.session? next = .ok (some u)) : Way s id (next :: visited) u

/-- The chain has come to its end at a session: its link, if it has one, leads back to a session
on the way, or to none that is stored. -/
def IsOver (s : Store) (visited : List SessionId) (t : Session) : Prop :=
  ∀ next, t.continues = some next → next ∈ visited ∨ s.contains next.value = false

/-- The chain of the session with a number ends at the session `last`, and no session on the way
there is visited twice. -/
structure EndsAt (s : Store) (id : SessionId) (visited : List SessionId) (last : Session) :
    Prop where
  way : s.Way id visited last
  distinct : visited.Nodup
  ended : s.IsOver visited last

theorem Way.isStored (h : s.Way id visited t) : ∀ v ∈ visited, s.IsStored v := by
  -- a session that was found under a number is stored under it
  have hfound : ∀ {v u}, s.session? v = .ok (some u) → s.IsStored v := fun {v u} hu =>
    id_of_session? hu ▸ isStored_of_session? hu
  induction h with
  | here h =>
    intro v hv
    obtain rfl := List.mem_singleton.mp hv
    exact hfound h
  | link _ _ h ih =>
    intro v hv
    rcases List.mem_cons.mp hv with rfl | hv
    · exact hfound h
    · exact ih v hv

/-- A way on which no session is visited twice is not longer than the store. -/
theorem Way.length_le (h : s.Way id visited t) (hdistinct : visited.Nodup) :
    visited.length ≤ s.rows.length := by
  have hsub : visited ⊆ s.rows.map Row.id := by
    intro v hv
    obtain ⟨r, hr, rfl⟩ := h.isStored v hv
    exact List.mem_map_of_mem hr
  have hle := (List.subperm_of_subset hdistinct hsub).length_le
  rwa [List.length_map] at hle

/-- A chain that is not over leads to a stored session that was not visited. -/
theorem exists_link_of_not_isOver (h : s.Legible) (hway : s.Way id visited t)
    (hopen : ¬ s.IsOver visited t) :
    ∃ next u, next ∉ visited ∧ s.Way id (next :: visited) u := by
  simp only [IsOver, not_forall, not_or] at hopen
  obtain ⟨next, hlink, hnew, hstored⟩ := hopen
  obtain ⟨found, hfound⟩ := exists_session? h next
  cases found with
  | none => exact absurd (session?_eq_none_iff.mp hfound) hstored
  | some u => exact ⟨next, u, hnew, .link hway hlink hfound⟩

/-- Every chain ends. -/
theorem exists_endsAt (h : s.Legible) (hway : s.Way id visited t) (hdistinct : visited.Nodup) :
    ∃ visited last, s.EndsAt id visited last := by
  -- by induction on how many stored sessions were not visited
  induction hspare : s.rows.length - visited.length using Nat.strongRecOn
    generalizing visited t with
  | ind spare ih =>
    by_cases hover : s.IsOver visited t
    · exact ⟨visited, t, hway, hdistinct, hover⟩
    · obtain ⟨next, u, hnew, hlonger⟩ := exists_link_of_not_isOver h hway hover
      have hdistinct' : (next :: visited).Nodup := List.nodup_cons.mpr ⟨hnew, hdistinct⟩
      have hle := hlonger.length_le hdistinct'
      rw [List.length_cons] at hle
      refine ih _ ?_ hlonger hdistinct' rfl
      rw [List.length_cons]
      omega

/-! ## Following the links -/

theorem chainFrom_of_isOver (h : s.IsOver visited t) : s.chainFrom fuel visited t = .ok t := by
  cases fuel with
  | zero => rfl
  | succ fuel =>
    rw [chainFrom]
    cases hlink : t.continues with
    | none => rfl
    | some next =>
      by_cases hseen : next ∈ visited
      · simp only [if_pos hseen]
      · have hmissing := session?_eq_none_iff.mpr ((h next hlink).resolve_left hseen)
        simp only [if_neg hseen]
        exact bind_eq_ok.mpr ⟨none, hmissing, rfl⟩

/-- A chain is followed along its way, one link at a time. -/
theorem chainFrom_of_way (hfirst : s.session? id = .ok (some first)) (h : s.Way id visited t)
    (hdistinct : visited.Nodup) :
    s.chainFrom (fuel + visited.length) [id] first = s.chainFrom (fuel + 1) visited t := by
  induction h generalizing fuel with
  | here h =>
    obtain rfl : first = _ := Option.some.inj (Except.ok.inj (hfirst.symm.trans h))
    rfl
  | @link visited t u next _ hlink h ih =>
    obtain ⟨hnew, hdistinct'⟩ := List.nodup_cons.mp hdistinct
    calc s.chainFrom (fuel + (next :: visited).length) [id] first
        = s.chainFrom (fuel + 1 + visited.length) [id] first := by
          rw [List.length_cons, Nat.add_right_comm, Nat.add_assoc]
      _ = s.chainFrom (fuel + 1 + 1) visited t := ih hdistinct'
      _ = s.chainFrom (fuel + 1) (next :: visited) u := by
          rw [chainFrom]
          simp only [hlink, if_neg hnew, h]
          rfl

/-- The end of a chain is found as soon as the chain is followed far enough. -/
theorem chainFrom_of_endsAt (hfirst : s.session? id = .ok (some first))
    (h : s.EndsAt id visited last) (hfuel : s.rows.length ≤ fuel) :
    s.chainFrom fuel [id] first = .ok last := by
  have hle := Nat.le_trans (h.way.length_le h.distinct) hfuel
  rw [← Nat.sub_add_cancel hle, chainFrom_of_way hfirst h.way h.distinct]
  exact chainFrom_of_isOver h.ended

theorem chainRoot_of_not_contains (h : s.contains id.value = false) :
    s.chainRoot id = .ok none :=
  bind_eq_ok.mpr ⟨none, session?_eq_none_iff.mpr h, rfl⟩

/-- A way begins at a stored session. -/
theorem Way.exists_first (h : s.Way id visited t) :
    ∃ first, s.session? id = .ok (some first) := by
  induction h with
  | here h => exact ⟨_, h⟩
  | link _ _ _ ih => exact ih

/-- The store answers with the end of the chain. -/
theorem chainRoot_of_endsAt (h : s.EndsAt id visited last) :
    s.chainRoot id = .ok (some last) := by
  obtain ⟨first, hfirst⟩ := h.way.exists_first
  refine bind_eq_ok.mpr ⟨some first, hfirst, bind_eq_ok.mpr ⟨last, ?_, rfl⟩⟩
  rw [id_of_session? hfirst]
  exact chainFrom_of_endsAt hfirst h (Nat.le_refl _)

/-- The chain of a stored session has an end. -/
theorem exists_endsAt_of_contains (h : s.Legible) (hid : s.contains id.value = true) :
    ∃ visited last, s.EndsAt id visited last := by
  obtain ⟨found, hfound⟩ := exists_session? h id
  cases found with
  | none =>
    rw [session?_eq_none_iff.mp hfound] at hid
    exact Bool.noConfusion hid
  | some first => exact exists_endsAt h (.here hfound) (List.pairwise_singleton _ id)

theorem exists_chainRoot (h : s.Legible) (id : SessionId) : ∃ root, s.chainRoot id = .ok root := by
  cases hid : s.contains id.value with
  | false => exact ⟨none, chainRoot_of_not_contains hid⟩
  | true =>
    obtain ⟨visited, last, hend⟩ := exists_endsAt_of_contains h hid
    exact ⟨some last, chainRoot_of_endsAt hend⟩

/-- Whatever the links of a store are, there is an answer for every number. It is empty exactly
where no session is stored under the number, and otherwise it is the end of the chain. To follow
the chain further than the store has sessions changes nothing. -/
theorem chainRoot_ends (s : Store) (h : s.Legible) (id : SessionId) :
    ∃ root, s.chainRoot id = .ok root ∧
      (root = none ↔ s.contains id.value = false) ∧
      (∀ last, root = some last ↔ ∃ visited, s.EndsAt id visited last) ∧
      ∀ first fuel, s.session? id = .ok (some first) → s.rows.length ≤ fuel →
        ∃ last, root = some last ∧ s.chainFrom fuel [id] first = .ok last := by
  cases hid : s.contains id.value with
  | false =>
    have hmissing := session?_eq_none_iff.mpr hid
    refine ⟨none, chainRoot_of_not_contains hid, by simp, ?_, ?_⟩
    · intro last
      simp only [reduceCtorEq, false_iff]
      rintro ⟨visited, hend⟩
      obtain ⟨first, hfirst⟩ := hend.way.exists_first
      simp [hmissing] at hfirst
    · intro first fuel hfirst
      simp [hmissing] at hfirst
  | true =>
    obtain ⟨visited, last, hend⟩ := exists_endsAt_of_contains h hid
    have hroot := chainRoot_of_endsAt hend
    refine ⟨some last, hroot, by simp, ?_, ?_⟩
    · intro last'
      constructor
      · intro heq
        exact ⟨visited, Option.some.inj heq ▸ hend⟩
      · rintro ⟨visited', hend'⟩
        exact Except.ok.inj (hroot.symm.trans (chainRoot_of_endsAt hend'))
    · intro first fuel hfirst hfuel
      exact ⟨last, rfl, chainFrom_of_endsAt hfirst hend hfuel⟩

/-- A session with a link to the number `target`. -/
def sampleRow (id : SessionId) (target : Int) : Row :=
  { id, description := "Report", start := "2024-03-01T09:00:00", state := "paused",
    continues := some target }

/-- A chain that runs into a cycle, a session that goes on with itself, and one that goes on with
a session that is not stored. -/
def tangled : Store :=
  { rows :=
      [sampleRow ⟨1, by decide⟩ 2, sampleRow ⟨2, by decide⟩ 3, sampleRow ⟨3, by decide⟩ 2,
        sampleRow ⟨4, by decide⟩ 4, sampleRow ⟨5, by decide⟩ 9]
    lastId := 5 }

theorem legible_tangled : tangled.Legible := by decide +kernel

/-- The chain of the first session ends at the third, from which it would go back to the second. -/
theorem chainRoot_ends_tangled :
    ∃ last visited, tangled.chainRoot ⟨1, by decide⟩ = .ok (some last) ∧ last.id.value = 3 ∧
      tangled.EndsAt ⟨1, by decide⟩ visited last := by
  have hthird : ((tangled.chainRoot ⟨1, by decide⟩).toOption.join.map
      fun last => last.id.value) = some 3 := by decide +kernel
  obtain ⟨root, hroot, -, hends, -⟩ := chainRoot_ends tangled legible_tangled ⟨1, by decide⟩
  rw [hroot] at hthird
  obtain ⟨last, rfl, hid⟩ := Option.map_eq_some_iff.mp hthird
  obtain ⟨visited, hend⟩ := (hends last).mp rfl
  exact ⟨last, visited, hroot, hid, hend⟩

example : (tangled.chainRoot ⟨4, by decide⟩).toOption.join.map (fun last => last.id.value) =
    some 4 := by decide +kernel

example : (tangled.chainRoot ⟨5, by decide⟩).toOption.join.map (fun last => last.id.value) =
    some 5 := by decide +kernel

end Daybook.Store
