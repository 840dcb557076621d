import Daybook.Proofs.Timeline.Bounds
import Daybook.Proofs.Timeline.Resume
import Daybook.Timeline.Overlap

/-!
# Interruptions in time

In a log in order of time nothing ends before it begins, and what is closed while it is interrupted
closes its interruptions with it. But an entry interrupts another one by its indentation alone: the
other may be over by then, because a stop has closed it or its stated duration has run out.

* `Interrupts` : the interruption of one entry by another, said of the events of a log.
* `ofEvents_nested` : interruptions end with what they interrupt.
* `begins_after_stop_iff` : the interruptions that begin when what they interrupt is over.
-/

namespace Daybook.Timeline

variable {events : List Event} {event : Event} {i k q : Nat} {e f : Entry}

/-! ## Interruptions among events -/

/-- The entry at position `k` interrupts the one at position `i`, the nearest entry before it that
is indented less. -/
structure Interrupts (events : List Event) (i k : Nat) (e f : Entry) : Prop where
  outer : events[i]? = some (.entry e)
  inner : events[k]? = some (.entry f)
  before : i < k
  deeper : e.indent < f.indent
  between : ∀ m g, i < m → m < k → events[m]? = some (.entry g) → f.indent ≤ g.indent

/-- The entry that the parent of a span stands for is the one that the span's entry interrupts. -/
theorem exists_interrupts {j : Nat} (hk : events[k]? = some (.entry f))
    (h : IsParent ((events.filterMap Event.entry?).map Entry.indent) (entriesBefore events k)
      f.indent (some j)) :
    ∃ i e, entriesBefore events i = j ∧ Interrupts events i k e f := by
  obtain ⟨hlt, ⟨n, hn, hless⟩, hnone⟩ := h
  rw [List.getElem?_map, Option.map_eq_some_iff] at hn
  obtain ⟨e, he, rfl⟩ := hn
  obtain ⟨i, hi, rfl⟩ := exists_position he
  have hik : i < k := by
    apply Nat.lt_of_not_le
    intro hle
    exact absurd (entriesBefore_le events hle) (Nat.not_le_of_lt hlt)
  refine ⟨i, e, rfl, hi, hk, hik, hless, ?_⟩
  intro m g him hmk hm
  exact hnone _ _ (entriesBefore_lt hi him) (entriesBefore_lt hm hmk) (getElem?_indents hm)

/-- No entry before a span at the top level is indented less. -/
theorem indent_le_of_top (h : IsParent ((events.filterMap Event.entry?).map Entry.indent)
      (entriesBefore events k) f.indent none) (hi : events[i]? = some (.entry e)) (hik : i < k) :
    f.indent ≤ e.indent :=
  h _ _ (Nat.zero_le _) (entriesBefore_lt hi hik) (getElem?_indents hi)

/-! ## What is closed along with something else -/

/-- An entry without a stated duration is open before a later event, unless something has closed
it. -/
theorem exists_closes_or_isOpen (hi : events[i]? = some (.entry e)) (hnone : e.duration = none)
    (hiq : i < q) : (∃ r < q, Closes events r i) ∨ IsOpen events q i := by
  by_cases hearlier : ∃ r < q, Closes events r i
  · exact .inl hearlier
  · exact .inr (isOpen_iff.mpr ⟨hiq, ⟨e, hi, hnone⟩, fun r _ hrq hcloses =>
      hearlier ⟨r, hrq, hcloses⟩⟩)

/-- An event that is indented no further than an earlier entry leaves it closed. -/
theorem exists_closes_of_indent_le (hi : events[i]? = some (.entry e)) (hnone : e.duration = none)
    (hq : events[q]? = some event) (hiq : i < q) (hle : event.indent ≤ e.indent) :
    ∃ r ≤ q, Closes events r i := by
  rcases exists_closes_or_isOpen hi hnone hiq with ⟨r, hr, hcloses⟩ | hopen
  · exact ⟨r, Nat.le_of_lt hr, hcloses⟩
  · exact ⟨q, Nat.le_refl q, event, hq, hopen, .inl ⟨e, hi, hle⟩⟩

/-- What closes an entry that was interrupted before leaves the interruption closed. -/
theorem Interrupts.exists_closes (h : Interrupts events i k e f) (hnone : f.duration = none)
    (hkq : k < q) (hcloses : Closes events q i) : ∃ r ≤ q, Closes events r k := by
  rcases exists_closes_or_isOpen h.inner hnone hkq with ⟨r, hr, hcloses'⟩ | hopen
  · exact ⟨r, Nat.le_of_lt hr, hcloses'⟩
  · obtain ⟨event, hq, -, ⟨e', he', hle⟩ | ⟨-, -, hlatest⟩⟩ := hcloses
    · -- the event is indented no further than the interrupted entry, and so than the interruption
      obtain rfl : e = e' := by simpa using h.outer.symm.trans he'
      refine ⟨q, Nat.le_refl q, event, hq, hopen, .inl ⟨f, h.inner, ?_⟩⟩
      exact Nat.le_trans hle (Nat.le_of_lt h.deeper)
    · -- the interrupted entry is not the latest one while the interruption is open
      exact absurd (hlatest k hopen) (Nat.not_le_of_lt h.before)

/-- Only a stop closes an entry before the entry that interrupts it. -/
theorem Interrupts.exists_stop (h : Interrupts events i k e f) (hq : events[q]? = some event)
    (hqk : q < k) (hcloses : Closes events q i) : ∃ s, event = .stop s := by
  have hiq : i < q := (isOpen_iff.mp hcloses.isOpen).1
  obtain ⟨event', hq', -, hcase⟩ := hcloses
  obtain rfl : event = event' := Option.some.inj (hq.symm.trans hq')
  cases event with
  | stop s => exact ⟨s, rfl⟩
  | entry g =>
    -- an entry in between is indented as far as the interruption
    have hdeep : f.indent ≤ g.indent := h.between q g hiq hqk hq
    rcases hcase with ⟨e', he', hle⟩ | ⟨⟨s, hs⟩, -⟩
    · obtain rfl : e = e' := by simpa using h.outer.symm.trans he'
      exact absurd (Nat.le_trans hdeep hle) (Nat.not_le_of_lt h.deeper)
    · exact Event.noConfusion hs

/-! ## Logs in order of time -/

/-- The timestamps of the events never decrease. -/
def IsSorted (events : List Event) : Prop :=
  (events.map Event.timestamp).Pairwise (· ≤ ·)

instance (events : List Event) : Decidable (IsSorted events) :=
  inferInstanceAs (Decidable (List.Pairwise _ _))

theorem IsSorted.le {a b : Event} (h : IsSorted events) (hi : events[i]? = some a)
    (hk : events[k]? = some b) (hik : i ≤ k) : a.timestamp ≤ b.timestamp := by
  obtain ⟨hilt, rfl⟩ := List.getElem?_eq_some_iff.mp hi
  obtain ⟨hklt, rfl⟩ := List.getElem?_eq_some_iff.mp hk
  rcases Nat.lt_or_eq_of_le hik with hlt | rfl
  · exact List.pairwise_iff_getElem.mp (List.pairwise_map.mp h) i k hilt hklt hlt
  · exact Int.le_refl _

/-- What happens at an earlier moment stands before. -/
theorem IsSorted.lt {a b : Event} (h : IsSorted events) (hi : events[i]? = some a)
    (hk : events[k]? = some b) (hlt : a.timestamp < b.timestamp) : i < k := by
  apply Nat.lt_of_not_le
  intro hle
  exact absurd hlt (Int.not_lt.mpr (h.le hk hi hle))

variable {s : Span}

/-- The spans begin in the order in which they stand. -/
theorem IsSorted.start_le (h : IsSorted events) {j k : Nat} {a b : Span}
    (ha : (ofEvents events)[j]? = some a) (hb : (ofEvents events)[k]? = some b) (hjk : j ≤ k) :
    a.start ≤ b.start := by
  obtain ⟨i, e, hi, rfl, hscoped, -⟩ := exists_place ha
  obtain ⟨q, f, hq, rfl, hscoped', -⟩ := exists_place hb
  have hiq : i ≤ q := by
    apply Nat.le_of_not_lt
    intro hlt
    exact absurd hjk (Nat.not_le_of_lt (entriesBefore_lt hq hlt))
  have hle := h.le hi hq hiq
  rw [hscoped.start_eq, hscoped'.start_eq]
  exact hle

/-- In a log in order of time nothing ends before it begins. -/
theorem IsSorted.start_le_stop (h : IsSorted events) (hs : s ∈ ofEvents events) {t : DateTime}
    (ht : s.stop = some t) : s.start ≤ t := by
  obtain ⟨i, e, hi, hscoped⟩ := exists_scoped hs
  refine Int.not_lt.mp fun hlt => ?_
  -- only an event that stands before the entry could close it so early
  obtain ⟨q, event, hq, hcloses, hearlier⟩ := (hscoped.stop_lt_start_iff hi).mp ⟨t, ht, hlt⟩
  rw [hscoped.start_eq] at hearlier
  have hqi : q < i := h.lt hq hi hearlier
  exact absurd (isOpen_iff.mp hcloses.isOpen).1 (Nat.lt_asymm hqi)

/-! ## The spans of interruptions -/

/-- The parent of a span is a span, and the entry of the one interrupts the entry of the other. -/
theorem exists_parent {k j : Nat} {c : Span} (hc : (ofEvents events)[k]? = some c)
    (hparent : c.parent = some j) :
    ∃ p i q e f, (ofEvents events)[j]? = some p ∧ entriesBefore events i = j ∧
      entriesBefore events q = k ∧ Interrupts events i q e f ∧ Scoped events i e p ∧
      Scoped events q f c := by
  obtain ⟨q, f, hq, rfl, hscoped, hright⟩ := exists_place hc
  rw [hparent] at hright
  obtain ⟨i, e, rfl, hinterrupts⟩ := exists_interrupts hq hright
  obtain ⟨p, hp, hscoped'⟩ := (ofEvents_scoped events).2 i e hinterrupts.outer
  exact ⟨p, i, q, e, f, hp, rfl, rfl, hinterrupts, hscoped', hscoped⟩

/-- An interruption that begins before the end of what it interrupts ends no later, if no stated
duration decides either end. -/
theorem Interrupts.exists_stop_le (h : Interrupts events i k e f) (hsorted : IsSorted events)
    {p c : Span} (hp : Scoped events i e p) (hc : Scoped events k f c) (he : e.duration = none)
    (hf : f.duration = none) {t : DateTime} (ht : p.stop = some t) (hlt : c.start < t) :
    ∃ u, c.stop = some u ∧ u ≤ t := by
  obtain ⟨q, event, hq, hcloses, rfl⟩ := hp.exists_closes he ht
  -- what closes the interrupted entry comes after the interruption has begun
  rw [hc.start_eq] at hlt
  have hkq : k < q := hsorted.lt h.inner hq hlt
  obtain ⟨r, hrq, hcloses'⟩ := h.exists_closes hf hkq hcloses
  obtain ⟨event', hr, -⟩ := id hcloses'
  exact ⟨event'.timestamp, (hc.closed hf r event' hr hcloses').1, hsorted.le hr hq hrq⟩

/-- In a log in order of time nothing ends before it begins, and an interruption that begins before
the end of what it interrupts ends no later, if no stated duration decides either end. -/
theorem ofEvents_nested (h : IsSorted events) :
    (∀ s ∈ ofEvents events, ∀ t ∈ s.stop, s.start ≤ t) ∧
      ∀ (k j : Nat) (c : Span), (ofEvents events)[k]? = some c → c.parent = some j →
        ∃ p, (ofEvents events)[j]? = some p ∧
          (p.entry.duration = none → c.entry.duration = none →
            ∀ t ∈ p.stop, c.start < t → ∃ u ∈ c.stop, u ≤ t) := by
  refine ⟨fun s hs t ht => h.start_le_stop hs ht, ?_⟩
  intro k j c hc hparent
  obtain ⟨p, i, q, e, f, hp, -, -, hinterrupts, hscoped, hscoped'⟩ := exists_parent hc hparent
  refine ⟨p, hp, ?_⟩
  intro he hf t ht hlt
  rw [hscoped.entry] at he
  rw [hscoped'.entry] at hf
  exact hinterrupts.exists_stop_le h hscoped hscoped' he hf ht hlt

/-- A report, a call in it and a question in the call, closed by stops that are indented further
than what they close. -/
def interruptedTwice : List Event :=
  [.entry { timestamp := morning, description := "Report", indent := 0, line := 1 },
    .entry { timestamp := morning.addMinutes 5, description := "Call", indent := 2, line := 2 },
    .entry { timestamp := morning.addMinutes 10, description := "Question", indent := 4,
             line := 3 },
    .stop { stop := .finish, timestamp := morning.addMinutes 15, indent := 6, line := 4 },
    .stop { stop := .pause, timestamp := morning.addMinutes 20, indent := 3, line := 5 },
    .stop { stop := .finish, timestamp := morning.addMinutes 30, indent := 1, line := 6 }]

/-- The call ends within the report. -/
theorem ofEvents_nested_interruptedTwice :
    IsSorted interruptedTwice ∧
      ∃ p c, (ofEvents interruptedTwice)[0]? = some p ∧
        (ofEvents interruptedTwice)[1]? = some c ∧ c.parent = some 0 ∧
        ∃ t ∈ p.stop, c.start < t ∧ ∃ u ∈ c.stop, u ≤ t := by
  have hsorted : IsSorted interruptedTwice := by decide +kernel
  have hspans : ∃ c ∈ (ofEvents interruptedTwice)[1]?, c.parent = some 0 ∧
      c.entry.duration = none ∧ ∃ p ∈ (ofEvents interruptedTwice)[0]?,
        p.entry.duration = none ∧ ∃ t ∈ p.stop, c.start < t := by decide +kernel
  obtain ⟨c, hc, hparent, hf, p, hp, he, t, ht, hlt⟩ := hspans
  obtain ⟨p', hp', hnested⟩ := (ofEvents_nested hsorted).2 1 0 c hc hparent
  obtain rfl : p = p' := Option.some.inj (hp.symm.trans hp')
  exact ⟨hsorted, p, c, hp, hc, hparent, t, ht, hlt, hnested he hf t ht hlt⟩

/-! ## Interruptions of what is over -/

/-- An interruption begins after the end of what it interrupts exactly when a stated duration of
the latter is over by then, or a stop between the two has closed it before. -/
theorem begins_after_stop_iff (h : IsSorted events) {k j : Nat} {c : Span}
    (hc : (ofEvents events)[k]? = some c) (hparent : c.parent = some j) :
    ∃ p i q, (ofEvents events)[j]? = some p ∧ entriesBefore events i = j ∧
      entriesBefore events q = k ∧
      ((∃ t ∈ p.stop, t < c.start) ↔
        (∃ t ∈ p.entry.statedEnd, t < c.start) ∨
          ∃ r m, i < r ∧ r < q ∧ events[r]? = some (.stop m) ∧ Closes events r i ∧
            m.timestamp < c.start) := by
  obtain ⟨p, i, q, e, f, hp, hi, hq, hinterrupts, hscoped, hscoped'⟩ := exists_parent hc hparent
  refine ⟨p, i, q, hp, hi, hq, ?_⟩
  rw [hscoped.entry]
  constructor
  · rintro ⟨t, ht, hlt⟩
    cases hduration : e.duration with
    | some minutes =>
      refine .inl ⟨t, ?_, hlt⟩
      rw [(hscoped.stated minutes hduration).1] at ht
      rw [Entry.statedEnd, hduration]
      exact ht
    | none =>
      -- the event that closes the interrupted entry stands before the interruption
      obtain ⟨r, event, hr, hcloses, rfl⟩ := hscoped.exists_closes hduration ht
      have hearlier := hlt
      rw [hscoped'.start_eq] at hearlier
      have hrq : r < q := h.lt hr hinterrupts.inner hearlier
      obtain ⟨m, rfl⟩ := hinterrupts.exists_stop hr hrq hcloses
      exact .inr ⟨r, m, (isOpen_iff.mp hcloses.isOpen).1, hrq, hr, hcloses, hlt⟩
  · rintro (⟨t, ht, hlt⟩ | ⟨r, m, -, -, hr, hcloses, hlt⟩)
    · obtain ⟨minutes, hminutes, rfl⟩ := Option.map_eq_some_iff.mp ht
      exact ⟨_, (hscoped.stated minutes hminutes).1, hlt⟩
    · obtain ⟨-, ⟨e', he', hnone⟩, -⟩ := isOpen_iff.mp hcloses.isOpen
      obtain rfl : e = e' := by simpa using hinterrupts.outer.symm.trans he'
      exact ⟨m.timestamp, (hscoped.closed hnone r _ hr hcloses).1, hlt⟩

/-- A report that is over when the call begins that is indented below it, and a draft that begins
during the call. -/
def lateCall : List Event :=
  [.entry { timestamp := morning, description := "Report", indent := 0, line := 1 },
    .stop { stop := .finish, timestamp := morning.addMinutes 30, indent := 0, line := 2 },
    .entry { timestamp := morning.addMinutes 60, description := "Call", duration := some 120,
             indent := 2, line := 3 },
    .entry { timestamp := morning.addMinutes 90, description := "Draft", indent := 0, line := 4 }]

/-- The call counts as an interruption of the report, which is over, and so nobody is told that
the draft overlaps it. -/
theorem lateCall_unreported :
    IsSorted lateCall ∧ selfOverlaps (ofEvents lateCall) = [] ∧
      ∃ p ∈ (ofEvents lateCall)[0]?, ∃ c ∈ (ofEvents lateCall)[1]?,
        ∃ d ∈ (ofEvents lateCall)[2]?, c.parent = some 0 ∧ (∃ t ∈ p.stop, t < c.start) ∧
          d.parent = none ∧ c.overlapsWith d = true := by
  decide +kernel

end Daybook.Timeline
