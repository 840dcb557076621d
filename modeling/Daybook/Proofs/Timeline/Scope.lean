import Daybook.Timeline.Scope

/-!
# What closes an entry

The rules for the end of work, said of the events of a log alone: which entries are open before
an event, and which of them the event closes. A list of running work is the open entries, the
latest first, and their indentations fall from the first to the last; so what an event closes is
a first part of the list.

* `mem_closings_iff` : the closings of a log are those that the rules name.
-/

namespace Daybook.Timeline

/-! ## The rules -/

/-- The event closes the entry at position `i`, one of the entries that are open: the entry is
indented at least as far, or the event is a stop, no open entry is indented as far as it, and the
entry is the latest of all. -/
def ClosesAmong (events : List Event) (isOpen : Nat → Prop) (event : Event) (i : Nat) : Prop :=
  isOpen i ∧
    ((∃ e, events[i]? = some (.entry e) ∧ event.indent ≤ e.indent) ∨
      ((∃ s, event = .stop s) ∧
        (∀ j e, isOpen j → events[j]? = some (.entry e) → e.indent < event.indent) ∧
        ∀ j, isOpen j → j ≤ i))

/-- The entry at position `i` is open before the event at position `q`: it comes before, has no
stated duration, and no event in between closed it. -/
def IsOpen (events : List Event) (q i : Nat) : Prop :=
  i < q ∧ (∃ e, events[i]? = some (.entry e) ∧ e.duration = none) ∧
    ∀ r event, i < r → (_ : r < q) → events[r]? = some event →
      ¬ ClosesAmong events (fun j => IsOpen events r j) event i
termination_by q

/-- The event at position `q` closes the entry at position `i`. -/
def Closes (events : List Event) (q i : Nat) : Prop :=
  ∃ event, events[q]? = some event ∧ ClosesAmong events (IsOpen events q) event i

variable {events : List Event} {q i : Nat} {event : Event} {e : Entry}

theorem isOpen_iff :
    IsOpen events q i ↔
      i < q ∧ (∃ e, events[i]? = some (.entry e) ∧ e.duration = none) ∧
        ∀ r, i < r → r < q → ¬ Closes events r i := by
  rw [IsOpen]
  constructor
  · rintro ⟨hlt, hruns, hnone⟩
    refine ⟨hlt, hruns, ?_⟩
    rintro r hir hrq ⟨event, hevent, hcloses⟩
    exact hnone r event hir hrq hevent hcloses
  · rintro ⟨hlt, hruns, hnone⟩
    refine ⟨hlt, hruns, ?_⟩
    intro r event hir hrq hevent hcloses
    exact hnone r hir hrq ⟨event, hevent, hcloses⟩

theorem Closes.isOpen (h : Closes events q i) : IsOpen events q i := by
  obtain ⟨event, -, hopen, -⟩ := h
  exact hopen

/-- An entry is open after an event if it was open and was not closed, or has just begun. -/
theorem isOpen_succ :
    IsOpen events (q + 1) i ↔
      (IsOpen events q i ∧ ¬ Closes events q i) ∨
        (i = q ∧ ∃ e, events[i]? = some (.entry e) ∧ e.duration = none) := by
  constructor
  · intro h
    -- the entry comes before the event, or it is the event
    obtain ⟨hlt, hruns, hnone⟩ := isOpen_iff.mp h
    rcases Nat.lt_succ_iff_lt_or_eq.mp hlt with hlt | rfl
    · refine .inl ⟨isOpen_iff.mpr ⟨hlt, hruns, ?_⟩, hnone q hlt (Nat.lt_succ_self q)⟩
      intro r hir hrq
      exact hnone r hir (Nat.lt_succ_of_lt hrq)
    · exact .inr ⟨rfl, hruns⟩
  · rintro (⟨hopen, hnot⟩ | ⟨rfl, hruns⟩)
    · obtain ⟨hlt, hruns, hnone⟩ := isOpen_iff.mp hopen
      refine isOpen_iff.mpr ⟨Nat.lt_succ_of_lt hlt, hruns, ?_⟩
      intro r hir hrq
      rcases Nat.lt_succ_iff_lt_or_eq.mp hrq with hrq | rfl
      · exact hnone r hir hrq
      · exact hnot
    · refine isOpen_iff.mpr ⟨Nat.lt_succ_self i, hruns, ?_⟩
      intro r hir hri
      omega

/-- No entry is closed twice. -/
theorem Closes.unique {r : Nat} (hq : Closes events q i) (hr : Closes events r i) : q = r := by
  obtain ⟨hiq, -, hnoneq⟩ := isOpen_iff.mp hq.isOpen
  obtain ⟨hir, -, hnoner⟩ := isOpen_iff.mp hr.isOpen
  -- what an earlier event closed is not open before a later one
  rcases Nat.lt_trichotomy q r with hlt | heq | hlt
  · exact absurd hq (hnoner q hiq hlt)
  · exact heq
  · exact absurd hr (hnoneq r hir hlt)

/-! ## Entries and their positions -/

/-- The number of entries before a position. -/
def entriesBefore (events : List Event) (i : Nat) : Nat :=
  ((events.take i).filterMap Event.entry?).length

theorem entriesBefore_succ_entry (h : events[i]? = some (.entry e)) :
    entriesBefore events (i + 1) = entriesBefore events i + 1 := by
  simp [entriesBefore, List.take_add_one, h, Event.entry?]

theorem entriesBefore_succ_stop {s : StopLine} (h : events[i]? = some (.stop s)) :
    entriesBefore events (i + 1) = entriesBefore events i := by
  simp [entriesBefore, List.take_add_one, h, Event.entry?]

theorem entriesBefore_le (events : List Event) {j : Nat} (h : i ≤ j) :
    entriesBefore events i ≤ entriesBefore events j :=
  ((List.take_sublist_take_left h).filterMap Event.entry?).length_le

theorem entriesBefore_lt {j : Nat} (hi : events[i]? = some (.entry e)) (h : i < j) :
    entriesBefore events i < entriesBefore events j := by
  have hle := entriesBefore_le events h
  rw [entriesBefore_succ_entry hi] at hle
  exact hle

/-- Entries at different positions have different numbers of entries before them. -/
theorem entriesBefore_inj {j : Nat} {f : Entry} (hi : events[i]? = some (.entry e))
    (hj : events[j]? = some (.entry f)) (h : entriesBefore events i = entriesBefore events j) :
    i = j := by
  rcases Nat.lt_trichotomy i j with hlt | heq | hlt
  · exact absurd h (Nat.ne_of_lt (entriesBefore_lt hi hlt))
  · exact heq
  · exact absurd h.symm (Nat.ne_of_lt (entriesBefore_lt hj hlt))

/-! ## What an event does to the running work -/

/-- The level comes later in the log than another one and is indented further. -/
def Level.Above (a b : Level) : Prop :=
  b.index < a.index ∧ b.indent < a.indent

variable {running : List Level} {level : Level}

theorem mem_takeWhile_indent (h : running.Pairwise Level.Above) (n : Nat) :
    level ∈ running.takeWhile (fun l => n ≤ l.indent) ↔ level ∈ running ∧ n ≤ level.indent := by
  induction running with
  | nil => simp
  | cons top below ih =>
    obtain ⟨htop, hbelow⟩ := List.pairwise_cons.mp h
    by_cases hn : n ≤ top.indent
    · rw [List.takeWhile_cons_of_pos (by simpa using hn), List.mem_cons, List.mem_cons, ih hbelow]
      constructor
      · rintro (rfl | ⟨hmem, hle⟩)
        · exact ⟨.inl rfl, hn⟩
        · exact ⟨.inr hmem, hle⟩
      · rintro ⟨rfl | hmem, hle⟩
        · exact .inl rfl
        · exact .inr ⟨hmem, hle⟩
    · -- everything below the first level is indented less
      rw [List.takeWhile_cons_of_neg (by simpa using hn)]
      constructor
      · intro hmem
        simp at hmem
      · rintro ⟨hmem, hle⟩
        rcases List.mem_cons.mp hmem with rfl | hmem
        · exact absurd hle hn
        · exact absurd (Nat.le_of_lt (Nat.lt_of_le_of_lt hle (htop level hmem).2)) hn

/-- Where something is indented as far as the event, that is closed, by an entry and a stop
alike. -/
theorem closedBy_of_cons {top : Level} {rest : List Level}
    (h : running.takeWhile (fun l => event.indent ≤ l.indent) = top :: rest) :
    closedBy event running = top :: rest := by
  unfold closedBy
  rw [h]
  cases event <;> rfl

/-- Where nothing is indented as far, an entry closes nothing. -/
theorem closedBy_entry_of_nil
    (h : running.takeWhile (fun l => (Event.entry e).indent ≤ l.indent) = []) :
    closedBy (.entry e) running = [] := by
  unfold closedBy
  rw [h]

/-- Where nothing is indented as far, a stop closes the first level. -/
theorem closedBy_stop_of_nil {s : StopLine}
    (h : running.takeWhile (fun l => (Event.stop s).indent ≤ l.indent) = []) :
    closedBy (.stop s) running = running.take 1 := by
  unfold closedBy
  rw [h]

/-- An event closes the levels that are indented as far as it; a stop that finds none closes the
latest level. -/
theorem mem_closedBy (h : running.Pairwise Level.Above) :
    level ∈ closedBy event running ↔
      level ∈ running ∧
        (event.indent ≤ level.indent ∨
          ((∃ s, event = .stop s) ∧ (∀ l ∈ running, l.indent < event.indent) ∧
            ∀ l ∈ running, l.index ≤ level.index)) := by
  have hdeeper : level ∈ running.takeWhile (fun l => event.indent ≤ l.indent) ↔
      level ∈ running ∧ event.indent ≤ level.indent := mem_takeWhile_indent h event.indent
  cases hcase : running.takeWhile fun l => event.indent ≤ l.indent with
  -- something is indented as far as the event: exactly that is closed
  | cons top rest =>
    have htop : event.indent ≤ top.indent := by
      have hmem : top ∈ running.takeWhile fun l => event.indent ≤ l.indent := by
        rw [hcase]
        exact List.mem_cons_self
      exact ((mem_takeWhile_indent h event.indent).mp hmem).2
    have hmem : top ∈ running := by
      have hsub := List.takeWhile_subset (l := running) fun l => decide (event.indent ≤ l.indent)
      exact hsub (hcase ▸ List.mem_cons_self)
    rw [closedBy_of_cons hcase, ← hcase, hdeeper]
    constructor
    · rintro ⟨hlevel, hle⟩
      exact ⟨hlevel, .inl hle⟩
    · rintro ⟨hlevel, hle | ⟨-, hall, -⟩⟩
      · exact ⟨hlevel, hle⟩
      · exact absurd (hall top hmem) (Nat.not_lt_of_le htop)
  | nil =>
    -- nothing is indented as far: an entry closes nothing, and a stop the first level
    rw [hcase] at hdeeper
    have hshallow : ∀ l ∈ running, l.indent < event.indent := by
      intro l hl
      apply Nat.lt_of_not_le
      intro hle
      have hmem := (mem_takeWhile_indent h event.indent).mpr ⟨hl, hle⟩
      rw [hcase] at hmem
      simp at hmem
    cases event with
    | entry e =>
      rw [closedBy_entry_of_nil hcase]
      constructor
      · intro hmem
        simp at hmem
      · rintro ⟨hlevel, hle | ⟨⟨s, hs⟩, -⟩⟩
        · exact hdeeper.mpr ⟨hlevel, hle⟩
        · exact Event.noConfusion hs
    | stop s =>
      rw [closedBy_stop_of_nil hcase]
      cases running with
      | nil => simp
      | cons top below =>
        obtain ⟨htop, -⟩ := List.pairwise_cons.mp h
        rw [List.take_succ_cons, List.take_zero, List.mem_singleton]
        constructor
        · rintro rfl
          refine ⟨List.mem_cons_self, .inr ⟨⟨s, rfl⟩, hshallow, ?_⟩⟩
          intro l hl
          rcases List.mem_cons.mp hl with rfl | hl
          · exact Nat.le_refl _
          · exact Nat.le_of_lt (htop l hl).1
        · rintro ⟨hlevel, hle | ⟨-, -, hlatest⟩⟩
          · exact absurd (hshallow level hlevel) (Nat.not_lt_of_le hle)
          · rcases List.mem_cons.mp hlevel with rfl | hlevel
            · rfl
            · have hlt := (htop level hlevel).1
              exact absurd (hlatest top List.mem_cons_self) (Nat.not_le_of_lt hlt)

/-- What an event closes is a first part of the running work. -/
theorem closedBy_append_keptBy (event : Event) (running : List Level) :
    closedBy event running ++ keptBy event running = running := by
  -- both ways of closing take levels off the front
  have hprefix : closedBy event running <+: running := by
    simp only [closedBy]
    split
    · exact List.take_prefix _ _
    · exact List.takeWhile_prefix _
  have htake := List.prefix_iff_eq_take.mp hprefix
  calc closedBy event running ++ keptBy event running
      = running.take (closedBy event running).length ++
          running.drop (closedBy event running).length := by rw [← htake]; rfl
    _ = running := List.take_append_drop _ _

theorem mem_keptBy (h : running.Pairwise Level.Above) :
    level ∈ keptBy event running ↔ level ∈ running ∧ level ∉ closedBy event running := by
  have happend := closedBy_append_keptBy event running
  rw [← happend] at h
  -- a level cannot stand in both parts, since the indices fall along the list
  obtain ⟨-, -, hcross⟩ := List.pairwise_append.mp h
  constructor
  · intro hkept
    refine ⟨?_, fun hclosed => ?_⟩
    · rw [← happend]
      exact List.mem_append_right _ hkept
    · exact absurd (hcross level hclosed level hkept).1 (Nat.lt_irrefl _)
  · rintro ⟨hmem, hnot⟩
    rw [← happend] at hmem
    exact (List.mem_append.mp hmem).resolve_left hnot

/-! ## Running work and open entries -/

/-- The level of the entry at a position. -/
def levelOf (events : List Event) (i : Nat) (e : Entry) : Level :=
  ⟨entriesBefore events i, e.indent⟩

/-- The running work is the open entries, and each is indented further than those before it. -/
structure Tracks (events : List Event) (q : Nat) (running : List Level) : Prop where
  mem : ∀ level, level ∈ running ↔
    ∃ i e, IsOpen events q i ∧ events[i]? = some (.entry e) ∧ level = levelOf events i e
  sorted : running.Pairwise Level.Above

theorem Tracks.nil : Tracks events 0 [] where
  mem := by
    intro level
    constructor
    · intro h
      simp at h
    · rintro ⟨i, e, hopen, -, -⟩
      exact absurd (isOpen_iff.mp hopen).1 (Nat.not_lt_zero i)
  sorted := List.Pairwise.nil

theorem levelOf_index_le_iff {j : Nat} (hi : events[i]? = some (.entry e)) (f : Entry) :
    (levelOf events j f).index ≤ (levelOf events i e).index ↔ j ≤ i := by
  constructor
  · intro hle
    apply Nat.le_of_not_lt
    intro hlt
    exact absurd hle (Nat.not_le_of_lt (entriesBefore_lt hi hlt))
  · exact entriesBefore_le events

/-- What an event closes in the running work is what it closes by the rules. -/
theorem Tracks.mem_closedBy (h : Tracks events q running) (hq : events[q]? = some event)
    (hi : events[i]? = some (.entry e)) :
    levelOf events i e ∈ closedBy event running ↔ Closes events q i := by
  -- levels and open entries are the same thing, so both conditions carry over
  rw [Timeline.mem_closedBy h.sorted, h.mem]
  constructor
  · rintro ⟨⟨j, f, hopen, hj, hlevel⟩, hcase⟩
    obtain rfl := entriesBefore_inj hi hj (congrArg Level.index hlevel)
    refine ⟨event, hq, hopen, ?_⟩
    rcases hcase with hle | ⟨hstop, hall, hlatest⟩
    · exact .inl ⟨e, hi, hle⟩
    · refine .inr ⟨hstop, ?_, ?_⟩
      · intro j g hj hg
        exact hall (levelOf events j g) ((h.mem _).mpr ⟨j, g, hj, hg, rfl⟩)
      · intro j hj
        obtain ⟨-, ⟨g, hg, -⟩, -⟩ := isOpen_iff.mp hj
        have hle := hlatest (levelOf events j g) ((h.mem _).mpr ⟨j, g, hj, hg, rfl⟩)
        exact (levelOf_index_le_iff hi g).mp hle
  · rintro ⟨event', hq', hopen, hcase⟩
    obtain rfl : event = event' := Option.some.inj (hq.symm.trans hq')
    refine ⟨⟨i, e, hopen, hi, rfl⟩, ?_⟩
    rcases hcase with ⟨f, hf, hle⟩ | ⟨hstop, hall, hlatest⟩
    · obtain rfl : e = f := by simpa using hi.symm.trans hf
      exact .inl hle
    · refine .inr ⟨hstop, ?_, ?_⟩
      · intro level hlevel
        obtain ⟨j, f, hj, hf, rfl⟩ := (h.mem level).mp hlevel
        exact hall j f hj hf
      · intro level hlevel
        obtain ⟨j, f, hj, hf, rfl⟩ := (h.mem level).mp hlevel
        exact (levelOf_index_le_iff hi f).mpr (hlatest j hj)

theorem Tracks.mem_keptBy (h : Tracks events q running) (hq : events[q]? = some event) :
    level ∈ keptBy event running ↔
      ∃ i e, (IsOpen events q i ∧ ¬ Closes events q i) ∧ events[i]? = some (.entry e) ∧
        level = levelOf events i e := by
  rw [Timeline.mem_keptBy h.sorted, h.mem]
  constructor
  · rintro ⟨⟨i, e, hopen, hi, rfl⟩, hnot⟩
    exact ⟨i, e, ⟨hopen, fun hcloses => hnot ((h.mem_closedBy hq hi).mpr hcloses)⟩, hi, rfl⟩
  · rintro ⟨i, e, ⟨hopen, hnot⟩, hi, rfl⟩
    exact ⟨⟨i, e, hopen, hi, rfl⟩, fun hclosed => hnot ((h.mem_closedBy hq hi).mp hclosed)⟩

theorem Tracks.kept_sorted (h : Tracks events q running) (event : Event) :
    (keptBy event running).Pairwise Level.Above :=
  h.sorted.sublist (List.drop_sublist _ _)

/-- An event that begins no work leaves what it does not close. -/
theorem Tracks.keep (h : Tracks events q running) (hq : events[q]? = some event)
    (hno : ∀ e, event = .entry e → e.duration ≠ none) :
    Tracks events (q + 1) (keptBy event running) where
  mem := by
    intro level
    rw [h.mem_keptBy hq]
    constructor
    · rintro ⟨i, e, hkept, hi, rfl⟩
      exact ⟨i, e, isOpen_succ.mpr (.inl hkept), hi, rfl⟩
    · rintro ⟨i, e, hopen, hi, rfl⟩
      rcases isOpen_succ.mp hopen with hkept | ⟨rfl, f, hf, hnone⟩
      · exact ⟨i, e, hkept, hi, rfl⟩
      · exact absurd hnone (hno f (Option.some.inj (hq.symm.trans hf)))
  sorted := h.kept_sorted event

/-- An entry without a stated duration runs on top of what it does not close. -/
theorem Tracks.push (h : Tracks events q running) (hq : events[q]? = some (.entry e))
    (hnone : e.duration = none) :
    Tracks events (q + 1) (levelOf events q e :: keptBy (.entry e) running) where
  mem := by
    intro level
    rw [List.mem_cons, h.mem_keptBy hq]
    constructor
    · rintro (rfl | ⟨i, f, hkept, hi, rfl⟩)
      · exact ⟨q, e, isOpen_succ.mpr (.inr ⟨rfl, e, hq, hnone⟩), hq, rfl⟩
      · exact ⟨i, f, isOpen_succ.mpr (.inl hkept), hi, rfl⟩
    · rintro ⟨i, f, hopen, hi, rfl⟩
      rcases isOpen_succ.mp hopen with hkept | ⟨rfl, -⟩
      · exact .inr ⟨i, f, hkept, hi, rfl⟩
      · obtain rfl : f = e := by simpa using hi.symm.trans hq
        exact .inl rfl
  sorted := by
    refine List.pairwise_cons.mpr ⟨?_, h.kept_sorted _⟩
    intro level hlevel
    obtain ⟨hmem, hnot⟩ := (Timeline.mem_keptBy h.sorted).mp hlevel
    obtain ⟨i, f, hopen, hi, rfl⟩ := (h.mem level).mp hmem
    refine ⟨entriesBefore_lt hi (isOpen_iff.mp hopen).1, ?_⟩
    -- what is indented as far as the entry is closed by it
    apply Nat.lt_of_not_le
    intro hle
    exact hnot ((Timeline.mem_closedBy h.sorted).mpr ⟨hmem, .inl hle⟩)

/-! ## Closings -/

/-- The entry at position `i` ends as the closing says: by its stated duration, or by an event
from position `q` on. -/
def EndsFrom (events : List Event) (q i : Nat) (closing : Closing) : Prop :=
  (q ≤ i ∧ ∃ e stop, events[i]? = some (.entry e) ∧ e.statedEnd = some stop ∧
      closing = ⟨stop, .completed⟩) ∨
    ∃ r event, q ≤ r ∧ events[r]? = some event ∧ Closes events r i ∧ closing = closingBy event

theorem EndsFrom.isEntry {closing : Closing} (h : EndsFrom events q i closing) :
    ∃ e, events[i]? = some (.entry e) := by
  rcases h with ⟨-, e, -, he, -⟩ | ⟨r, -, -, -, hcloses, -⟩
  · exact ⟨e, he⟩
  · obtain ⟨-, ⟨e, he, -⟩, -⟩ := isOpen_iff.mp hcloses.isOpen
    exact ⟨e, he⟩

/-- An entry ends in one way only. -/
theorem EndsFrom.unique {a b : Closing} (ha : EndsFrom events q i a) (hb : EndsFrom events q i b) :
    a = b := by
  -- an entry with a stated duration is never open
  have hcross : ∀ e stop r, events[i]? = some (.entry e) → e.statedEnd = some stop →
      ¬ Closes events r i := by
    intro e stop r he hstop hcloses
    obtain ⟨-, ⟨f, hf, hnone⟩, -⟩ := isOpen_iff.mp hcloses.isOpen
    obtain rfl : e = f := by simpa using he.symm.trans hf
    simp [Entry.statedEnd, hnone] at hstop
  rcases ha with ⟨-, e, stop, he, hstop, rfl⟩ | ⟨r, event, -, hr, hcloses, rfl⟩
  · rcases hb with ⟨-, f, stop', hf, hstop', rfl⟩ | ⟨r, event, -, hr, hcloses, rfl⟩
    · obtain rfl : e = f := by simpa using he.symm.trans hf
      rw [Option.some.inj (hstop.symm.trans hstop')]
    · exact absurd hcloses (hcross e stop r he hstop)
  · rcases hb with ⟨-, f, stop', hf, hstop', rfl⟩ | ⟨r', event', -, hr', hcloses', rfl⟩
    · exact absurd hcloses (hcross f stop' r hf hstop')
    · obtain rfl := hcloses.unique hcloses'
      rw [Option.some.inj (hr.symm.trans hr')]

theorem endsFrom_iff (hq : events[q]? = some event) {closing : Closing} :
    EndsFrom events q i closing ↔
      (Closes events q i ∧ closing = closingBy event) ∨
        (i = q ∧ ∃ e stop, event = .entry e ∧ e.statedEnd = some stop ∧
          closing = ⟨stop, .completed⟩) ∨
        EndsFrom events (q + 1) i closing := by
  constructor
  · rintro (⟨hle, e, stop, he, hstop, rfl⟩ | ⟨r, event', hle, hr, hcloses, rfl⟩)
    · rcases Nat.eq_or_lt_of_le hle with rfl | hlt
      · obtain rfl := Option.some.inj (hq.symm.trans he)
        exact .inr (.inl ⟨rfl, e, stop, rfl, hstop, rfl⟩)
      · exact .inr (.inr (.inl ⟨hlt, e, stop, he, hstop, rfl⟩))
    · rcases Nat.eq_or_lt_of_le hle with rfl | hlt
      · obtain rfl := Option.some.inj (hq.symm.trans hr)
        exact .inl ⟨hcloses, rfl⟩
      · exact .inr (.inr (.inr ⟨r, event', hlt, hr, hcloses, rfl⟩))
  · rintro (⟨hcloses, rfl⟩ | ⟨rfl, e, stop, rfl, hstop, rfl⟩ | h)
    · exact .inr ⟨q, event, Nat.le_refl q, hq, hcloses, rfl⟩
    · exact .inl ⟨Nat.le_refl i, e, stop, hq, hstop, rfl⟩
    · rcases h with ⟨hle, hstated⟩ | ⟨r, event', hle, hclosed⟩
      · exact .inl ⟨Nat.le_of_succ_le hle, hstated⟩
      · exact .inr ⟨r, event', Nat.le_of_succ_le hle, hclosed⟩

/-- The closings that a single event brings about. -/
theorem Tracks.mem_closed (h : Tracks events q running) (hq : events[q]? = some event) (k : Nat)
    (closing : Closing) :
    (k, closing) ∈ (closedBy event running).map (fun l => (l.index, closingBy event)) ↔
      ∃ i, k = entriesBefore events i ∧ Closes events q i ∧ closing = closingBy event := by
  rw [List.mem_map]
  constructor
  · rintro ⟨level, hlevel, heq⟩
    obtain ⟨rfl, rfl⟩ := Prod.mk.inj heq
    obtain ⟨i, e, -, hi, rfl⟩ :=
      (h.mem level).mp ((Timeline.mem_closedBy h.sorted).mp hlevel).1
    exact ⟨i, rfl, (h.mem_closedBy hq hi).mp hlevel, rfl⟩
  · rintro ⟨i, rfl, hcloses, rfl⟩
    obtain ⟨-, ⟨e, hi, -⟩, -⟩ := isOpen_iff.mp hcloses.isOpen
    exact ⟨levelOf events i e, (h.mem_closedBy hq hi).mpr hcloses, rfl⟩

/-- The closings from some event on are those that the rules name for it and for what follows. -/
theorem mem_closingsFrom_iff {rest : List Event} (hrest : events.drop q = rest)
    (h : Tracks events q running) {k : Nat} {closing : Closing} :
    (k, closing) ∈ closingsFrom (entriesBefore events q) running rest ↔
      ∃ i, k = entriesBefore events i ∧ EndsFrom events q i closing := by
  -- by induction on the events that are left; `Tracks` is what every event preserves
  induction rest generalizing q running with
  | nil =>
    have hlen : events.length ≤ q := List.drop_eq_nil_iff.mp hrest
    have hnone : ∀ r, q ≤ r → events[r]? = none := fun r hr =>
      List.getElem?_eq_none (Nat.le_trans hlen hr)
    constructor
    · intro hmem
      simp [closingsFrom] at hmem
    · rintro ⟨i, -, ⟨hle, e, -, he, -⟩ | ⟨r, event, hle, hr, -⟩⟩
      · simp [hnone i hle] at he
      · simp [hnone r hle] at hr
  | cons event rest ih =>
    have hq : events[q]? = some event := by
      have hhead := congrArg List.head? hrest
      simpa using hhead
    have hdrop : events.drop (q + 1) = rest := by
      rw [← List.drop_drop, hrest, List.drop_succ_cons, List.drop_zero]
    have hclosed := h.mem_closed hq k closing
    -- what the event closes, its own end, and what later events close
    simp only [endsFrom_iff hq, and_or_left, exists_or]
    cases event with
    | stop s =>
      have hkeep := h.keep hq (by simp)
      have htail := ih hdrop hkeep
      rw [entriesBefore_succ_stop hq] at htail
      simp only [closingsFrom, List.mem_append, hclosed, htail]
      simp
    | entry e =>
      have hindex := entriesBefore_succ_entry hq
      cases hstated : e.statedEnd with
      | some stop =>
        have hkeep := h.keep hq (by
          intro f hf hnone
          obtain rfl := Event.entry.inj hf
          simp [Entry.statedEnd, hnone] at hstated)
        have htail := ih hdrop hkeep
        rw [hindex] at htail
        have hown : (∃ i, k = entriesBefore events i ∧ i = q ∧ ∃ f stop', Event.entry e = .entry f ∧
            f.statedEnd = some stop' ∧ closing = ⟨stop', .completed⟩) ↔
            k = entriesBefore events q ∧ closing = ⟨stop, .completed⟩ := by
          constructor
          · rintro ⟨i, hk, rfl, f, stop', hf, hstop', rfl⟩
            obtain rfl := Event.entry.inj hf
            rw [Option.some.inj (hstated.symm.trans hstop')]
            exact ⟨hk, rfl⟩
          · rintro ⟨hk, rfl⟩
            exact ⟨q, hk, rfl, e, stop, rfl, hstated, rfl⟩
        simp only [closingsFrom, hstated, List.mem_append, List.mem_cons, Prod.mk.injEq, hclosed,
          htail, hown]
      | none =>
        have hpush := h.push hq (by simpa [Entry.statedEnd] using hstated)
        have htail := ih hdrop hpush
        rw [hindex] at htail
        have hown : ¬ ∃ i, k = entriesBefore events i ∧ i = q ∧
            ∃ f stop', Event.entry e = .entry f ∧ f.statedEnd = some stop' ∧
              closing = ⟨stop', .completed⟩ := by
          rintro ⟨i, -, -, f, stop', hf, hstop', -⟩
          obtain rfl := Event.entry.inj hf
          simp [hstated] at hstop'
        simp only [closingsFrom, hstated, List.mem_append, hclosed, iff_false_intro hown, false_or]
        exact or_congr_right htail

/-- The closings of a log are those that the rules name. -/
theorem mem_closings_iff {k : Nat} {closing : Closing} :
    (k, closing) ∈ closings events ↔
      ∃ i, k = entriesBefore events i ∧ EndsFrom events 0 i closing :=
  mem_closingsFrom_iff (List.drop_zero) Tracks.nil

/-- The closing that is looked up for an entry is the one that the rules name for it. -/
theorem lookup_closings (hi : events[i]? = some (.entry e)) {closing : Closing} :
    (closings events).lookup (entriesBefore events i) = some closing ↔
      EndsFrom events 0 i closing := by
  have hmem : ∀ {c : Closing}, (entriesBefore events i, c) ∈ closings events ↔
      EndsFrom events 0 i c := by
    intro c
    rw [mem_closings_iff]
    constructor
    · rintro ⟨j, hj, hends⟩
      obtain ⟨f, hf⟩ := hends.isEntry
      obtain rfl := entriesBefore_inj hi hf hj
      exact hends
    · intro hends
      exact ⟨i, rfl, hends⟩
  -- the first closing with the index is one of those that the rules name, and there is only one
  have hfound : ∀ {c : Closing}, (closings events).lookup (entriesBefore events i) = some c →
      EndsFrom events 0 i c := by
    intro c hc
    obtain ⟨before, after, heq, -⟩ := List.lookup_eq_some_iff.mp hc
    apply hmem.mp
    rw [heq]
    exact List.mem_append_right _ List.mem_cons_self
  refine ⟨hfound, ?_⟩
  intro hends
  cases hlookup : (closings events).lookup (entriesBefore events i) with
  | some c => rw [(hfound hlookup).unique hends]
  | none =>
    have hnone := List.lookup_eq_none_iff.mp hlookup _ (hmem.mpr hends)
    simp at hnone

end Daybook.Timeline
