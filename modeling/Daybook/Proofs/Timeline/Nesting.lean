import Daybook.Proofs.Timeline.Scope
import Mathlib.Order.Bounds.Basic

/-!
# What an entry interrupts

The parent of an entry is the nearest entry before it that is indented less. While the entries are
gone through in order, the stack keeps those that can still be parents: an entry leaves it when a
later one is indented no further, and from then on the later one stands for it.

* `parents_sound` : every answer is the nearest entry that is indented less, or says that there is
  none.
* `parents_nearest` : the same of a list of entries, where the answer is the greatest of the
  positions before it that are indented less.
-/

namespace Daybook.Timeline

variable {indents : List Nat} {index n k : Nat} {stack : List Level} {level : Level}

/-! ## The rule -/

/-- From position `j` on and before position `k` nothing is indented less than `n`. -/
def NoneShallower (indents : List Nat) (j k n : Nat) : Prop :=
  ∀ m i, j ≤ m → m < k → indents[m]? = some i → n ≤ i

/-- The answer is right for an entry at position `k` that is indented by `n`: it is the position
of the nearest entry before it that is indented less, or none where nothing is. -/
def IsParent (indents : List Nat) (k n : Nat) : Option Nat → Prop
  | none => NoneShallower indents 0 k n
  | some j => j < k ∧ (∃ i, indents[j]? = some i ∧ i < n) ∧ NoneShallower indents (j + 1) k n

/-! ## The stack -/

/-- What the stack keeps of the entries before position `index`: some of them, each indented
further than those below it, and for every entry one from there on that is indented no
further. -/
structure Candidates (indents : List Nat) (index : Nat) (stack : List Level) : Prop where
  sound : ∀ level ∈ stack, level.index < index ∧ indents[level.index]? = some level.indent
  covers : ∀ m < index, ∀ i, indents[m]? = some i →
    ∃ level ∈ stack, m ≤ level.index ∧ level.indent ≤ i
  sorted : stack.Pairwise Level.Above

theorem Candidates.nil : Candidates indents 0 [] where
  sound := by simp
  covers := by simp
  sorted := List.Pairwise.nil

/-- Taking levels off the stack until one is indented less leaves all that are indented less. -/
theorem mem_dropWhile_indent (h : stack.Pairwise Level.Above) :
    level ∈ stack.dropWhile (fun l => n ≤ l.indent) ↔ level ∈ stack ∧ level.indent < n := by
  induction stack with
  | nil => simp
  | cons top below ih =>
    obtain ⟨htop, hbelow⟩ := List.pairwise_cons.mp h
    by_cases hn : n ≤ top.indent
    · -- the top level goes
      rw [List.dropWhile_cons_of_pos (by simpa using hn), ih hbelow, List.mem_cons]
      constructor
      · rintro ⟨hmem, hlt⟩
        exact ⟨.inr hmem, hlt⟩
      · rintro ⟨rfl | hmem, hlt⟩
        · exact absurd hn (Nat.not_le_of_lt hlt)
        · exact ⟨hmem, hlt⟩
    · -- the top level stays, and all levels below it are indented still less
      rw [List.dropWhile_cons_of_neg (by simpa using hn)]
      refine ⟨fun hmem => ⟨hmem, ?_⟩, And.left⟩
      rcases List.mem_cons.mp hmem with rfl | hmem
      · exact Nat.lt_of_not_le hn
      · exact Nat.lt_trans (htop level hmem).2 (Nat.lt_of_not_le hn)

/-- The first level that is indented less is the latest of these. -/
theorem isParent_head? (h : Candidates indents index stack) :
    IsParent indents index n
      ((stack.dropWhile fun level => n ≤ level.indent).head?.map Level.index) := by
  have hmem : ∀ {l}, l ∈ stack.dropWhile (fun level => n ≤ level.indent) ↔
      l ∈ stack ∧ l.indent < n := mem_dropWhile_indent h.sorted
  have hsorted := h.sorted.sublist (List.dropWhile_sublist fun level => n ≤ level.indent)
  -- an entry that is indented less leaves a level behind that is indented less
  have hcovers : ∀ m i, m < index → indents[m]? = some i → i < n →
      ∃ l ∈ stack.dropWhile (fun level => n ≤ level.indent), m ≤ l.index := by
    intro m i hm hi hlt
    obtain ⟨l, hl, hle, hindent⟩ := h.covers m hm i hi
    exact ⟨l, hmem.mpr ⟨hl, Nat.lt_of_le_of_lt hindent hlt⟩, hle⟩
  cases hcase : stack.dropWhile fun level => n ≤ level.indent with
  | nil =>
    intro m i _ hm hi
    apply Nat.le_of_not_lt
    intro hlt
    obtain ⟨l, hl, -⟩ := hcovers m i hm hi hlt
    simp [hcase] at hl
  | cons top below =>
    obtain ⟨htop, -⟩ := List.pairwise_cons.mp (hcase ▸ hsorted)
    obtain ⟨hstack, hless⟩ := hmem.mp (hcase ▸ List.mem_cons_self (a := top) (l := below))
    obtain ⟨hbefore, hindent⟩ := h.sound top hstack
    refine ⟨hbefore, ⟨top.indent, hindent, hless⟩, ?_⟩
    intro m i hm hmk hi
    apply Nat.le_of_not_lt
    intro hlt
    -- no level that is indented less is later than the first one
    obtain ⟨l, hl, hle⟩ := hcovers m i hmk hi hlt
    have hlast : l.index ≤ top.index := by
      rcases List.mem_cons.mp (hcase ▸ hl) with rfl | hl
      · exact Nat.le_refl _
      · exact Nat.le_of_lt (htop l hl).1
    exact absurd (Nat.le_trans hle hlast) (Nat.not_le_of_lt hm)

/-- The entry goes on the stack, and stands for the levels that it took off. -/
theorem Candidates.push (h : Candidates indents index stack) (hn : indents[index]? = some n) :
    Candidates indents (index + 1)
      (⟨index, n⟩ :: stack.dropWhile fun level => n ≤ level.indent) where
  sound := by
    intro level hlevel
    rcases List.mem_cons.mp hlevel with rfl | hlevel
    · exact ⟨Nat.lt_succ_self index, hn⟩
    · obtain ⟨hbefore, hindent⟩ := h.sound level ((mem_dropWhile_indent h.sorted).mp hlevel).1
      exact ⟨Nat.lt_succ_of_lt hbefore, hindent⟩
  covers := by
    intro m hm i hi
    rcases Nat.lt_succ_iff_lt_or_eq.mp hm with hm | rfl
    · obtain ⟨level, hlevel, hle, hindent⟩ := h.covers m hm i hi
      by_cases hless : level.indent < n
      · exact ⟨level, List.mem_cons_of_mem _ ((mem_dropWhile_indent h.sorted).mpr ⟨hlevel, hless⟩),
          hle, hindent⟩
      · exact ⟨_, List.mem_cons_self, Nat.le_of_lt hm,
          Nat.le_trans (Nat.le_of_not_lt hless) hindent⟩
    · obtain rfl : n = i := Option.some.inj (hn.symm.trans hi)
      exact ⟨_, List.mem_cons_self, Nat.le_refl m, Nat.le_refl n⟩
  sorted := by
    refine List.pairwise_cons.mpr ⟨?_, h.sorted.sublist (List.dropWhile_sublist _)⟩
    intro level hlevel
    obtain ⟨hstack, hless⟩ := (mem_dropWhile_indent h.sorted).mp hlevel
    exact ⟨(h.sound level hstack).1, hless⟩

/-! ## All answers -/

theorem parentsFrom_sound {rest : List Nat} (hrest : indents.drop index = rest)
    (h : Candidates indents index stack) {parent : Option Nat}
    (hparent : (parentsFrom index stack rest)[k]? = some parent)
    (hn : indents[index + k]? = some n) : IsParent indents (index + k) n parent := by
  -- by induction on the indentations that are left; `Candidates` is what every entry preserves
  induction rest generalizing index stack k with
  | nil => simp [parentsFrom] at hparent
  | cons indent rest ih =>
    have hindex : indents[index]? = some indent := by
      have hhead := congrArg List.head? hrest
      simpa using hhead
    have hdrop : indents.drop (index + 1) = rest := by
      rw [← List.drop_drop, hrest, List.drop_succ_cons, List.drop_zero]
    cases k with
    | zero =>
      obtain rfl : indent = n := Option.some.inj (hindex.symm.trans hn)
      obtain rfl := Option.some.inj hparent
      exact isParent_head? h
    | succ k =>
      have hlater := ih hdrop (h.push hindex) (by simpa [parentsFrom] using hparent)
      rw [Nat.add_right_comm, Nat.add_assoc] at hlater
      exact hlater hn

/-- The parent of every entry is the nearest entry before it that is indented less. -/
theorem parents_sound {parent : Option Nat} (hparent : (parents indents)[k]? = some parent)
    (hn : indents[k]? = some n) : IsParent indents k n parent := by
  have h := parentsFrom_sound (List.drop_zero) Candidates.nil hparent (n := n)
  rw [Nat.zero_add] at h
  exact h hn

/-! ## Entries -/

section Entries

variable {entries : List Entry} {i : Fin entries.length} {j : Nat}

/-- The positions before an entry whose entries are indented less. -/
def shallowerBefore (entries : List Entry) (i : Fin entries.length) : Set Nat :=
  {j | j < i ∧ ∃ e, entries[j]? = some e ∧ e.indent < (entries.get i).indent}

theorem noneShallower_map_indent {first : Nat} :
    NoneShallower (entries.map Entry.indent) first i (entries.get i).indent ↔
      ∀ j ∈ shallowerBefore entries i, j < first := by
  constructor
  · rintro h j ⟨hlt, e, he, hless⟩
    apply Nat.lt_of_not_le
    intro hfrom
    have hle := h j e.indent hfrom hlt (by rw [List.getElem?_map, he]; rfl)
    exact absurd hless (Nat.not_lt_of_le hle)
  · intro h m n hfrom hlt hn
    obtain ⟨e, he, rfl⟩ := Option.map_eq_some_iff.mp ((List.getElem?_map ..).symm.trans hn)
    apply Nat.le_of_not_lt
    intro hless
    exact absurd (h m ⟨hlt, e, he, hless⟩) (Nat.not_lt_of_le hfrom)

/-- A position is the right answer when it is the greatest that is indented less. -/
theorem isParent_some_iff :
    IsParent (entries.map Entry.indent) i (entries.get i).indent (some j) ↔
      IsGreatest (shallowerBefore entries i) j := by
  have hlatest : NoneShallower (entries.map Entry.indent) (j + 1) i (entries.get i).indent ↔
      j ∈ upperBounds (shallowerBefore entries i) := by
    rw [noneShallower_map_indent]
    exact ⟨fun h m hm => Nat.le_of_lt_succ (h m hm), fun h m hm => Nat.lt_succ_of_le (h hm)⟩
  have hmem : (∃ n, (entries.map Entry.indent)[j]? = some n ∧ n < (entries.get i).indent) ↔
      ∃ e, entries[j]? = some e ∧ e.indent < (entries.get i).indent := by
    simp
  rw [IsParent, hlatest, hmem, ← and_assoc]
  rfl

/-- None is the right answer when nothing before is indented less. -/
theorem isParent_none_iff :
    IsParent (entries.map Entry.indent) i (entries.get i).indent none ↔
      shallowerBefore entries i = ∅ := by
  rw [IsParent, noneShallower_map_indent, Set.eq_empty_iff_forall_notMem]
  exact forall_congr' fun j => forall_congr' fun hj => iff_of_false (Nat.not_lt_zero j) id

/-- Every entry has its answer: the greatest position before it that is indented less, and none
if and only if there is no such position. -/
theorem parents_nearest (entries : List Entry) :
    (parents (entries.map Entry.indent)).length = entries.length ∧
      ∀ i : Fin entries.length, ∃ parent, (parents (entries.map Entry.indent))[i]? = some parent ∧
        (∀ j, parent = some j ↔ IsGreatest (shallowerBefore entries i) j) ∧
        (parent = none ↔ shallowerBefore entries i = ∅) := by
  have hlength : (parents (entries.map Entry.indent)).length = entries.length := by
    rw [length_parents, List.length_map]
  refine ⟨hlength, ?_⟩
  intro i
  have hi : i.val < (parents (entries.map Entry.indent)).length := by
    rw [hlength]
    exact i.isLt
  have hparent := List.getElem?_eq_getElem hi
  have hindent : (entries.map Entry.indent)[i]? = some (entries.get i).indent := by simp
  have hsound := parents_sound hparent hindent
  refine ⟨_, hparent, ?_⟩
  generalize (parents (entries.map Entry.indent))[i.val] = parent at hsound
  cases parent with
  | none =>
    have hempty := isParent_none_iff.mp hsound
    -- a set without positions has no greatest one
    refine ⟨fun j => iff_of_false nofun ?_, iff_of_true rfl hempty⟩
    intro hgreatest
    have hmem := hgreatest.1
    rw [hempty] at hmem
    exact hmem
  | some k =>
    have hgreatest := isParent_some_iff.mp hsound
    refine ⟨?_, iff_of_false nofun (Set.nonempty_iff_ne_empty.mp ⟨k, hgreatest.1⟩)⟩
    intro j
    constructor
    · rintro ⟨⟩
      exact hgreatest
    · intro hj
      rw [hgreatest.unique hj]

example : parents [0, 2, 4, 2, 0] = [none, some 0, some 1, some 0, none] := by decide

end Entries

end Daybook.Timeline
