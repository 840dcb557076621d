import Daybook.Proofs.Timeline.Interruptions

/-!
# Overlaps in a log in order of time

A span at the top level is indented no further than any entry before it, so it closes all work
that is going on when it begins. In a log in order of time an earlier span reaches into a later one
at the top level only when a stated duration lets it.

* `overlapsAmong_eq` : every pair of spans that overlap is reported, once and in order.
* `overlapsWith_iff` : the pairs that overlap.
* `selfOverlaps_ofEvents` : the overlaps that a log in order of time is refused for.
-/

namespace Daybook

/-- Of three moments in order the last is after the first, unless all are the same. -/
theorem DateTime.lt_iff_of_le {a b c : DateTime} (hab : a ≤ b) (hbc : b ≤ c) :
    a < c ↔ ¬ (b = a ∧ c = b) := by
  have hab' : a.rank ≤ b.rank := hab
  have hbc' : b.rank ≤ c.rank := hbc
  rw [← rank_inj, ← rank_inj]
  show a.rank < c.rank ↔ _
  omega

namespace Span

/-- The span has a stated duration that goes on beyond the start of the other, and the other is not
an empty span that starts at the same moment. -/
structure RunsInto (a b : Span) : Prop where
  stated : ∃ stop ∈ a.entry.statedEnd, b.start < stop
  notEmpty : ¬ (b.start = a.start ∧ b.stop = some b.start)

theorem runsInto_iff {a b : Span} :
    a.RunsInto b ↔
      (∃ stop ∈ a.entry.statedEnd, b.start < stop) ∧
        ¬ (b.start = a.start ∧ b.stop = some b.start) :=
  ⟨fun h => ⟨h.stated, h.notEmpty⟩, fun h => ⟨h.1, h.2⟩⟩

instance (a b : Span) : Decidable (a.RunsInto b) :=
  decidable_of_iff' _ runsInto_iff

theorem overlapsWith_eq_true_iff {a b : Span} :
    a.overlapsWith b = true ↔ (∀ t ∈ b.stop, a.start < t) ∧ ∀ t ∈ a.stop, b.start < t := by
  unfold overlapsWith overlaps
  cases a.stop <;> cases b.stop <;> simp

end Span

namespace Timeline

/-! ## Pairs that are reported -/

/-- The pairs of elements at different places, the earlier one first. -/
def pairs {α : Type} : List α → List (α × α)
  | [] => []
  | a :: rest => rest.map (Prod.mk a) ++ pairs rest

/-- What holds of every element and each later one is what holds of every pair. -/
theorem pairwise_iff_pairs {α : Type} {R : α → α → Prop} {as : List α} :
    as.Pairwise R ↔ ∀ p ∈ pairs as, R p.1 p.2 := by
  induction as with
  | nil => simp [pairs]
  | cons a rest ih =>
    rw [List.pairwise_cons, ih, pairs, List.forall_mem_append, List.forall_mem_map]

/-- Every pair of spans that overlap is reported. -/
theorem overlapsAmong_eq (spans : List Span) :
    overlapsAmong spans =
      ((pairs spans).filter fun p => p.1.overlapsWith p.2).map fun p =>
        p.1.overlapProblem p.2 := by
  induction spans with
  | nil => rfl
  | cons s rest ih =>
    rw [overlapsAmong, pairs, List.filter_append, List.map_append, ← ih, List.filter_map,
      List.map_map]
    rfl

/-- Nothing is reported exactly when no two of the spans overlap. -/
theorem overlapsAmong_eq_nil_iff {spans : List Span} :
    overlapsAmong spans = [] ↔ spans.Pairwise fun a b => a.overlapsWith b = false := by
  rw [overlapsAmong_eq, List.map_eq_nil_iff, List.filter_eq_nil_iff, pairwise_iff_pairs]
  simp

/-! ## Pairs that overlap -/

variable {events : List Event}

/-- What was going on before a span at the top level began is over when it begins. -/
theorem stop_le_start_of_top (h : IsSorted events) {j k : Nat} {a b : Span}
    (ha : (ofEvents events)[j]? = some a) (hb : (ofEvents events)[k]? = some b) (hjk : j < k)
    (hnone : a.entry.duration = none) (htop : b.parent = none) :
    ∃ t, a.stop = some t ∧ t ≤ b.start := by
  obtain ⟨i, e, hi, rfl, hscoped, -⟩ := exists_place ha
  obtain ⟨q, f, hq, rfl, hscoped', hright⟩ := exists_place hb
  rw [hscoped.entry] at hnone
  rw [htop] at hright
  have hiq : i < q := by
    apply Nat.lt_of_not_le
    intro hle
    exact absurd (entriesBefore_le events hle) (Nat.not_le_of_lt hjk)
  -- the entry of the later span closes the earlier one, if nothing has before
  have hindent : f.indent ≤ e.indent := indent_le_of_top hright hi hiq
  obtain ⟨r, hrq, hcloses⟩ := exists_closes_of_indent_le hi hnone hq hiq hindent
  obtain ⟨event, hr, -⟩ := id hcloses
  have hle := h.le hr hq hrq
  rw [hscoped'.start_eq]
  exact ⟨event.timestamp, (hscoped.closed hnone r event hr hcloses).1, hle⟩

/-- In a log in order of time a span overlaps a later one at the top level exactly when its stated
duration runs into it. -/
theorem overlapsWith_iff (h : IsSorted events) {j k : Nat} {a b : Span}
    (ha : (ofEvents events)[j]? = some a) (hb : (ofEvents events)[k]? = some b) (hjk : j < k)
    (htop : b.parent = none) : a.overlapsWith b = true ↔ a.RunsInto b := by
  have hstart : a.start ≤ b.start := h.start_le ha hb (Nat.le_of_lt hjk)
  rw [Span.overlapsWith_eq_true_iff]
  cases hduration : a.entry.duration with
  | none =>
    -- the earlier span is over
    obtain ⟨t, ht, hle⟩ := stop_le_start_of_top h ha hb hjk hduration htop
    constructor
    · rintro ⟨-, hlater⟩
      exact absurd (hlater t ht) (Int.not_lt.mpr hle)
    · rintro ⟨⟨stop, hstop, -⟩, -⟩
      simp [Entry.statedEnd, hduration] at hstop
  | some minutes =>
    obtain ⟨i, e, -, -, hscoped, -⟩ := exists_place ha
    have hstated : a.stop = a.entry.statedEnd := by
      rw [Entry.statedEnd, hduration]
      rw [hscoped.entry] at hduration ⊢
      exact (hscoped.stated minutes hduration).1
    have hsome : a.entry.statedEnd = some (a.entry.timestamp.addMinutes minutes) := by
      rw [Entry.statedEnd, hduration, Option.map_some]
    -- the later span goes on beyond the start of the earlier one, unless it is empty there
    have hempty : (∀ t ∈ b.stop, a.start < t) ↔
        ¬ (b.start = a.start ∧ b.stop = some b.start) := by
      cases hstop : b.stop with
      | none => simp
      | some t =>
        have hle : b.start ≤ t := h.start_le_stop (List.mem_of_getElem? hb) hstop
        simp [DateTime.lt_iff_of_le hstart hle]
    rw [hempty, hstated, Span.runsInto_iff, hsome, and_comm]
    simp

/-! ## Logs that are refused -/

/-- In a log in order of time the overlaps that are reported are those of the pairs of spans at the
top level of which the earlier one has a stated duration that runs into the later one. Without
stated durations at the top level there are none. -/
theorem selfOverlaps_ofEvents (h : IsSorted events) :
    selfOverlaps (ofEvents events) =
        ((pairs ((ofEvents events).filter Span.isTopLevel)).filter fun p =>
          decide (p.1.RunsInto p.2)).map (fun p => p.1.overlapProblem p.2) ∧
      ((∀ s ∈ ofEvents events, s.isTopLevel = true → s.entry.duration = none) →
        selfOverlaps (ofEvents events) = []) := by
  have hpairs : ((ofEvents events).filter Span.isTopLevel).Pairwise fun a b =>
      a.overlapsWith b = decide (a.RunsInto b) := by
    refine List.pairwise_filter.mpr (List.pairwise_iff_getElem.mpr ?_)
    intro j k hj hk hjk _ htop
    have hiff := overlapsWith_iff h (List.getElem?_eq_getElem hj) (List.getElem?_eq_getElem hk) hjk
      (Option.isNone_iff_eq_none.mp htop)
    rw [Bool.eq_iff_iff, hiff, decide_eq_true_iff]
  have hreported : selfOverlaps (ofEvents events) =
      ((pairs ((ofEvents events).filter Span.isTopLevel)).filter fun p =>
        decide (p.1.RunsInto p.2)).map (fun p => p.1.overlapProblem p.2) := by
    have hsame := pairwise_iff_pairs.mp hpairs
    rw [selfOverlaps, overlapsAmong_eq, List.filter_congr hsame]
  refine ⟨hreported, ?_⟩
  intro hnone
  -- a span without a stated duration runs into nothing
  have hfree : ((ofEvents events).filter Span.isTopLevel).Pairwise fun a b =>
      ¬ a.RunsInto b := by
    refine List.pairwise_iff_getElem.mpr ?_
    rintro j k hj _ _ ⟨⟨stop, hstop, -⟩, -⟩
    obtain ⟨hmem, htop⟩ := List.mem_filter.mp (List.getElem_mem hj)
    simp [Entry.statedEnd, hnone _ hmem htop] at hstop
  rw [hreported, List.map_eq_nil_iff, List.filter_eq_nil_iff]
  intro p hp hruns
  exact pairwise_iff_pairs.mp hfree p hp (of_decide_eq_true hruns)

/-- A meeting of two hours, a stub and notes at the same moment, a call in the notes, and lunch after
the meeting. -/
def bookedTwice : List Event :=
  [.entry { timestamp := morning, description := "Meeting", duration := some 120, indent := 0,
            line := 1 },
    .entry { timestamp := morning, description := "Stub", indent := 0, line := 2 },
    .entry { timestamp := morning, description := "Notes", indent := 0, line := 3 },
    .entry { timestamp := morning.addMinutes 30, description := "Call", duration := some 15,
             indent := 2, line := 4 },
    .stop { stop := .finish, timestamp := morning.addMinutes 60, indent := 0, line := 5 },
    .entry { timestamp := morning.addMinutes 120, description := "Lunch", indent := 0, line := 6 }]

/-- The meeting runs into the notes, but not into the stub, which is empty, or into the lunch. -/
theorem selfOverlaps_ofEvents_bookedTwice :
    IsSorted bookedTwice ∧
      selfOverlaps (ofEvents bookedTwice) =
        [{ line := 3, cause := .overlap 1 morning (some (morning.addMinutes 120)) }] := by
  have hsorted : IsSorted bookedTwice := by decide +kernel
  refine ⟨hsorted, (selfOverlaps_ofEvents hsorted).1.trans ?_⟩
  decide +kernel

end Timeline

end Daybook
