/-!
# Lists without repeats

Adding an element that is not there keeps a list without repeats, and taking repeats out of a
list leaves one without. A list in strict order has none, and is known by its elements. An
element of a list has one first place in it.
-/

namespace Daybook

variable {α : Type}

theorem nodup_snoc {as : List α} {a : α} (h : as.Nodup) (ha : a ∉ as) : (as ++ [a]).Nodup := by
  refine List.nodup_append.mpr ⟨h, List.pairwise_singleton _ _, ?_⟩
  rintro b hb c hc rfl
  exact ha (List.mem_singleton.mp hc ▸ hb)

/-- Lists in the same strict order with the same elements are the same. -/
theorem eq_of_pairwise_of_mem_iff {lt : α → α → Prop} (hasymm : ∀ a b, lt a b → ¬ lt b a)
    {as bs : List α} (has : as.Pairwise lt) (hbs : bs.Pairwise lt)
    (h : ∀ a, a ∈ as ↔ a ∈ bs) : as = bs := by
  have hdistinct : ∀ {cs : List α}, cs.Pairwise lt → cs.Nodup := by
    refine List.Pairwise.imp ?_
    rintro a b hlt rfl
    exact hasymm a a hlt hlt
  have hperm := (List.perm_ext_iff_of_nodup (hdistinct has) (hdistinct hbs)).mpr h
  exact hperm.eq_of_pairwise (fun a b _ _ hab hba => absurd hba (hasymm a b hab)) has hbs

/-- An element has one first place in a list. -/
theorem eq_of_first {a : α} {as bs cs ds : List α} (h : as ++ a :: cs = bs ++ a :: ds)
    (has : a ∉ as) (hbs : a ∉ bs) : as = bs := by
  -- the longer of the two beginnings would have the element itself
  rcases List.append_eq_append_iff.mp h with ⟨between, rfl, heq⟩ | ⟨between, rfl, heq⟩
  · cases between with
    | nil => exact (List.append_nil as).symm
    | cons b rest =>
      obtain ⟨rfl, -⟩ := List.cons.inj heq
      exact absurd (List.mem_append_right _ List.mem_cons_self) hbs
  · cases between with
    | nil => exact List.append_nil bs
    | cons b rest =>
      obtain ⟨rfl, -⟩ := List.cons.inj heq
      exact absurd (List.mem_append_right _ List.mem_cons_self) has

variable [BEq α]

/-- Taking repeats out leaves a part of the list, in order. -/
theorem eraseDups_sublist (as : List α) : as.eraseDups.Sublist as := by
  cases as with
  | nil => exact List.Sublist.refl []
  | cons a rest =>
    rw [List.eraseDups_cons]
    exact ((eraseDups_sublist _).trans List.filter_sublist).cons_cons a
termination_by as.length
decreasing_by exact Nat.lt_succ_of_le (List.length_filter_le _ _)

theorem eraseDups_eq_nil_iff {as : List α} : as.eraseDups = [] ↔ as = [] := by
  cases as <;> simp [List.eraseDups_cons]

variable [LawfulBEq α]

theorem nodup_eraseDups (as : List α) : as.eraseDups.Nodup := by
  cases as with
  | nil => exact List.nodup_nil
  | cons a rest =>
    rw [List.eraseDups_cons, List.nodup_cons]
    -- repeats of the first element go before the rest is looked at
    refine ⟨?_, nodup_eraseDups _⟩
    rw [List.mem_eraseDups, List.mem_filter]
    simp
termination_by as.length
decreasing_by exact Nat.lt_succ_of_le (List.length_filter_le _ _)

theorem eraseDups_of_nodup {as : List α} (h : as.Nodup) : as.eraseDups = as := by
  induction as with
  | nil => rfl
  | cons a rest ih =>
    obtain ⟨hnot, hrest⟩ := List.nodup_cons.mp h
    have hkept : rest.filter (fun b => !b == a) = rest := by
      apply List.filter_eq_self.mpr
      intro b hb
      have hne : b ≠ a := fun heq => hnot (heq ▸ hb)
      simpa using hne
    rw [List.eraseDups_cons, hkept, ih hrest]

/-- An element at the end is kept if it was not there before. -/
theorem eraseDups_snoc (as : List α) (a : α) [Decidable (a ∈ as)] :
    (as ++ [a]).eraseDups = if a ∈ as then as.eraseDups else as.eraseDups ++ [a] := by
  rw [List.eraseDups_append]
  split
  · next h => simp [List.removeAll, h]
  · next h => simp [List.removeAll, h, List.eraseDups_cons]

/-- Repeats in front can go first. -/
theorem eraseDups_eraseDups_append (as bs : List α) :
    (as.eraseDups ++ bs).eraseDups = (as ++ bs).eraseDups := by
  have hsame : bs.removeAll as.eraseDups = bs.removeAll as :=
    List.filter_congr fun b _ => by simp
  rw [List.eraseDups_append, List.eraseDups_append, eraseDups_of_nodup (nodup_eraseDups as), hsame]

end Daybook
