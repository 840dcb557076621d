import Daybook.Proofs.Store.Rows

/-!
# The session that started last

Sessions are compared by their start, and by their number where they start at the same time. The
last one in this order is found by sorting on the start alone, since the store has its rows by
number and sorting leaves rows with the same start as they stand; sorting on both, the other way
round, brings it to the front.

* `Store.pairwise_byStart` : sorting on the start sorts by start and number.
* `Store.reverse_byStartDescending` : sorting on both, the other way round, reverses that order.
-/

namespace Daybook

/-! ## Pairs of a time and a number -/

variable {α : Type} [LT α]

/-- A pair of a time and a number is not after another one: its time is earlier, or it is the same
and the number is not larger. -/
def PairLE (a b : α × SessionId) : Prop :=
  a.1 < b.1 ∨ a.1 = b.1 ∧ a.2 ≤ b.2

instance [DecidableEq α] [DecidableLT α] (a b : α × SessionId) : Decidable (PairLE a b) :=
  inferInstanceAs (Decidable (_ ∨ _))

namespace PairLE

variable {a b c : String × SessionId}

theorem trans (h : PairLE a b) (h' : PairLE b c) : PairLE a c := by
  rcases h with hlt | ⟨heq, hle⟩
  · rcases h' with hlt' | ⟨heq', -⟩
    · exact .inl (String.lt_trans hlt hlt')
    · exact .inl (heq' ▸ hlt)
  · rcases h' with hlt' | ⟨heq', hle'⟩
    · exact .inl (heq ▸ hlt')
    · exact .inr ⟨heq.trans heq', Int.le_trans hle hle'⟩

theorem total (a b : String × SessionId) : PairLE a b ∨ PairLE b a := by
  rcases Std.lt_trichotomy a.1 b.1 with hlt | heq | hlt
  · exact .inl (.inl hlt)
  · rcases Int.le_total a.2.value b.2.value with hle | hle
    · exact .inl (.inr ⟨heq, hle⟩)
    · exact .inr (.inr ⟨heq.symm, hle⟩)
  · exact .inr (.inl hlt)

theorem antisymm (h : PairLE a b) (h' : PairLE b a) : a.2 = b.2 := by
  rcases h with hlt | ⟨heq, hle⟩
  · rcases h' with hlt' | ⟨heq', -⟩
    · exact absurd (String.lt_trans hlt hlt') (String.lt_irrefl _)
    · exact absurd (heq' ▸ hlt) (String.lt_irrefl _)
  · rcases h' with hlt' | ⟨-, hle'⟩
    · exact absurd (heq ▸ hlt') (String.lt_irrefl _)
    · exact SessionId.ext (Int.le_antisymm hle hle')

end PairLE

namespace Store

theorem startLE_trans (a b c : Row) (h : decide (a.start ≤ b.start) = true)
    (h' : decide (b.start ≤ c.start) = true) : decide (a.start ≤ c.start) = true :=
  decide_eq_true (String.le_trans (of_decide_eq_true h) (of_decide_eq_true h'))

theorem startLE_total (a b : Row) :
    (decide (a.start ≤ b.start) || decide (b.start ≤ a.start)) = true := by
  rw [Bool.or_eq_true, decide_eq_true_eq, decide_eq_true_eq]
  exact String.le_total _ _

/-- What rows are compared by. -/
def startAndId (r : Row) : String × SessionId :=
  (r.start, r.id)

variable {rows : List Row} {r : Row}

/-! ## Sorting on the start -/

/-- Rows with the same start stay as they stand, since sorting leaves a list that is sorted already
where it is. -/
theorem filter_byStart (rows : List Row) (start : String) :
    ((byStart rows).filter fun r => r.start = start) = rows.filter fun r => r.start = start := by
  have hsame : (rows.filter fun r => r.start = start).Pairwise
      fun a b => decide (a.start ≤ b.start) = true := by
    refine List.pairwise_of_forall_mem_list fun a ha b hb => ?_
    have hstart : a.start = b.start := by
      have ha' := (List.mem_filter.mp ha).2
      have hb' := (List.mem_filter.mp hb).2
      simp_all
    exact decide_eq_true (Std.le_of_eq hstart)
  -- the rows with this start are found in the sorted list in their order, and there are no others
  have hsub := (List.sublist_mergeSort startLE_trans startLE_total hsame
    List.filter_sublist).filter fun r => decide (r.start = start)
  rw [List.filter_filter] at hsub
  simp only [Bool.and_self] at hsub
  have hlength := ((List.mergeSort_perm rows fun a b => decide (a.start ≤ b.start)).filter
    fun r => decide (r.start = start)).length_eq
  exact (hsub.eq_of_length hlength.symm).symm

/-- Rows that stand by number are sorted by start and number when they are sorted on the start. -/
theorem pairwise_byStart (hrows : rows.Pairwise fun a b => a.id.value < b.id.value) :
    (byStart rows).Pairwise fun a b => PairLE (startAndId a) (startAndId b) := by
  have hstarts := List.pairwise_mergeSort startLE_trans startLE_total rows
  refine List.pairwise_iff_forall_sublist.mpr fun {a b} hsub => ?_
  have hle : a.start ≤ b.start :=
    of_decide_eq_true (List.pairwise_iff_forall_sublist.mp hstarts hsub)
  by_cases heq : a.start = b.start
  · -- two rows with the same start stand as they stood before
    have hboth := hsub.filter fun r => decide (r.start = b.start)
    rw [filter_byStart] at hboth
    simp only [heq, decide_true, List.filter_cons_of_pos, List.filter_nil] at hboth
    have hlt := List.pairwise_iff_forall_sublist.mp hrows (hboth.trans List.filter_sublist)
    exact .inr ⟨heq, Int.le_of_lt hlt⟩
  · exact .inl (Std.lt_of_le_of_ne hle heq)

/-! ## Sorting the other way round -/

/-- Rows by start and then by number, the last one first. -/
def byStartDescending (rows : List Row) : List Row :=
  rows.mergeSort fun a b => decide (PairLE (startAndId b) (startAndId a))

theorem pairwise_byStartDescending (rows : List Row) :
    (byStartDescending rows).Pairwise fun a b => PairLE (startAndId b) (startAndId a) := by
  have hsorted : (byStartDescending rows).Pairwise
      fun a b => decide (PairLE (startAndId b) (startAndId a)) = true := by
    refine List.pairwise_mergeSort (fun a b c hab hbc => ?_) (fun a b => ?_) rows
    · exact decide_eq_true ((of_decide_eq_true hbc).trans (of_decide_eq_true hab))
    · rw [Bool.or_eq_true, decide_eq_true_eq, decide_eq_true_eq]
      exact PairLE.total _ _
  exact hsorted.imp of_decide_eq_true

/-- This is the order by start, the other way round. -/
theorem reverse_byStartDescending (hrows : rows.Pairwise fun a b => a.id.value < b.id.value) :
    (byStartDescending rows).reverse = byStart rows := by
  have hdescending : (byStartDescending rows).Perm rows := List.mergeSort_perm _ _
  have hstart : (byStart rows).Perm rows := List.mergeSort_perm _ _
  have hperm := (List.reverse_perm _).trans (hdescending.trans hstart.symm)
  refine hperm.eq_of_pairwise (fun a b ha hb hab hba => ?_)
    (List.pairwise_reverse.mpr (pairwise_byStartDescending rows)) (pairwise_byStart hrows)
  exact eq_of_increasing hrows (hdescending.mem_iff.mp (List.mem_reverse.mp ha))
    (hstart.mem_iff.mp hb) (congrArg SessionId.value (hab.antisymm hba))

/-- The first row that way round is the last one by start. -/
theorem head?_byStartDescending (hrows : rows.Pairwise fun a b => a.id.value < b.id.value) :
    (byStartDescending rows).head? = (byStart rows).getLast? := by
  rw [← reverse_byStartDescending hrows, List.getLast?_reverse]

/-- No row is after the last one by start. -/
theorem pairLE_of_getLast?_byStart (hrows : rows.Pairwise fun a b => a.id.value < b.id.value)
    (hlast : (byStart rows).getLast? = some r) :
    ∀ t ∈ rows, PairLE (startAndId t) (startAndId r) := by
  intro t ht
  obtain ⟨front, hfront⟩ := List.getLast?_eq_some_iff.mp hlast
  have hsorted := pairwise_byStart hrows
  rw [hfront, List.pairwise_append] at hsorted
  have hmem : t ∈ front ++ [r] := hfront ▸ mem_byStart_iff.mpr ht
  rcases List.mem_append.mp hmem with hmem | hmem
  · exact hsorted.2.2 t hmem r (List.mem_singleton_self r)
  · obtain rfl := List.mem_singleton.mp hmem
    exact .inr ⟨rfl, Int.le_refl _⟩

end Store

end Daybook
