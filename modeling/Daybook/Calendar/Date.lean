/-!
# Dates

The proleptic Gregorian calendar, with a year zero and negative years before it. A date carries
the proof that the calendar has it.

* `Date.rank` orders the dates: it is the position in a calendar whose months all have 31 days,
  so comparing ranks compares year, month and day in this order.
* `Date.lt_next` says that the next day is later.
-/

namespace Daybook

/-! ## The calendar -/

/-- Every fourth year is a leap year, except the centuries that 400 does not divide. -/
def isLeapYear (year : Int) : Bool :=
  year % 4 == 0 && (year % 100 != 0 || year % 400 == 0)

/-- The number of days of a month. -/
def daysInMonth (year : Int) (month : Nat) : Nat :=
  if month = 2 then (if isLeapYear year then 29 else 28)
  else if month = 4 ∨ month = 6 ∨ month = 9 ∨ month = 11 then 30
  else 31

/-- The calendar has this year, month and day. -/
def IsCivil (year : Int) (month day : Nat) : Prop :=
  1 ≤ month ∧ month ≤ 12 ∧ 1 ≤ day ∧ day ≤ daysInMonth year month

instance (year : Int) (month day : Nat) : Decidable (IsCivil year month day) :=
  inferInstanceAs (Decidable (_ ∧ _))

theorem daysInMonth_le (year : Int) (month : Nat) : daysInMonth year month ≤ 31 := by
  unfold daysInMonth
  split <;> split <;> omega

theorem daysInMonth_pos (year : Int) (month : Nat) : 1 ≤ daysInMonth year month := by
  unfold daysInMonth
  split <;> split <;> omega

/-- The calendar repeats every 400 years. -/
theorem daysInMonth_add_cycles (year : Int) (cycles month : Nat) :
    daysInMonth (year + 400 * cycles) month = daysInMonth year month := by
  have h4 : (year + 400 * (cycles : Int)) % 4 = year % 4 := by omega
  have h100 : (year + 400 * (cycles : Int)) % 100 = year % 100 := by omega
  have h400 : (year + 400 * (cycles : Int)) % 400 = year % 400 := by omega
  have hleap : isLeapYear (year + 400 * cycles) = isLeapYear year := by
    simp only [isLeapYear, h4, h100, h400]
  simp only [daysInMonth, hleap]

/-! ## Dates -/

/-- A day of the calendar. -/
structure Date where
  year : Int
  month : Nat
  day : Nat
  civil : IsCivil year month day
deriving DecidableEq, Repr

namespace Date

/-- The date with the given year, month and day, if the calendar has it. -/
def ofCivil? (year : Int) (month day : Nat) : Option Date :=
  if h : IsCivil year month day then some ⟨year, month, day, h⟩ else none

/-- The position of a date among all dates, with gaps. -/
def rank (d : Date) : Int :=
  d.year * 372 + d.month * 31 + d.day

instance : LT Date := ⟨fun a b => a.rank < b.rank⟩
instance : LE Date := ⟨fun a b => a.rank ≤ b.rank⟩

instance (a b : Date) : Decidable (a < b) := inferInstanceAs (Decidable (a.rank < b.rank))
instance (a b : Date) : Decidable (a ≤ b) := inferInstanceAs (Decidable (a.rank ≤ b.rank))

/-- The smallest and the largest year that can be read. -/
def yearRange : Int × Int :=
  (-262143, 262142)

/-- The year is one that can be read. -/
def InRange (d : Date) : Prop :=
  yearRange.1 ≤ d.year ∧ d.year ≤ yearRange.2

instance (d : Date) : Decidable d.InRange := inferInstanceAs (Decidable (_ ∧ _))

/-- Different dates have different ranks. -/
theorem rank_inj {a b : Date} : a.rank = b.rank ↔ a = b := by
  obtain ⟨ya, ma, da, ha⟩ := a
  obtain ⟨yb, mb, db, hb⟩ := b
  have hda := daysInMonth_le ya ma
  have hdb := daysInMonth_le yb mb
  constructor
  · intro h
    have hparts : ya = yb ∧ ma = mb ∧ da = db := by
      unfold IsCivil at ha hb
      simp only [rank] at h
      omega
    obtain ⟨rfl, rfl, rfl⟩ := hparts
    rfl
  · exact fun h => congrArg rank h

/-! ## Days that follow -/

/-- The day after. -/
def next (d : Date) : Date :=
  if h : d.day < daysInMonth d.year d.month then
    ⟨d.year, d.month, d.day + 1, by have := d.civil; unfold IsCivil at *; omega⟩
  else if h' : d.month < 12 then
    ⟨d.year, d.month + 1, 1, by
      have := d.civil
      have := daysInMonth_pos d.year (d.month + 1)
      unfold IsCivil at *; omega⟩
  else
    ⟨d.year + 1, 1, 1, by
      have := daysInMonth_pos (d.year + 1) 1
      unfold IsCivil; omega⟩

/-- The same day of the calendar, whole cycles of 400 years later. -/
def addCycles (d : Date) (cycles : Nat) : Date :=
  ⟨d.year + 400 * cycles, d.month, d.day, by
    have := d.civil
    unfold IsCivil at *
    rw [daysInMonth_add_cycles]
    exact this⟩

/-- The day that many days after. -/
def skip : Nat → Date → Date
  | 0, d => d
  | n + 1, d => skip n d.next

/-- The number of days in 400 years. -/
def daysInCycle : Nat := 146097

/-- The day that many days after, by whole cycles first. -/
def addDays (d : Date) (days : Nat) : Date :=
  skip (days % daysInCycle) (d.addCycles (days / daysInCycle))

theorem lt_next (d : Date) : d < d.next := by
  obtain ⟨y, m, k, h⟩ := d
  have hle := daysInMonth_le y m
  show rank _ < rank _
  unfold next
  simp only [IsCivil] at h
  split
  · simp only [rank]; omega
  · split <;> simp only [rank] <;> omega

theorem le_skip (n : Nat) (d : Date) : d ≤ skip n d := by
  induction n generalizing d with
  | zero => exact Int.le_refl _
  | succ n ih => exact Int.le_trans (Int.le_of_lt (lt_next d)) (ih d.next)

theorem lt_skip {n : Nat} (h : 0 < n) (d : Date) : d < skip n d := by
  cases n with
  | zero => omega
  | succ n => exact Int.lt_of_lt_of_le (lt_next d) (le_skip n d.next)

theorem le_addCycles (d : Date) (cycles : Nat) : d ≤ d.addCycles cycles := by
  show rank _ ≤ rank _
  simp only [rank, addCycles]
  omega

theorem lt_addDays (d : Date) {days : Nat} (h : 0 < days) : d < d.addDays days := by
  by_cases hrest : days % daysInCycle = 0
  · have hcycles : 0 < days / daysInCycle := by unfold daysInCycle at *; omega
    simp only [addDays, hrest, skip]
    show rank _ < rank _
    simp only [rank, addCycles]
    omega
  · exact Int.lt_of_le_of_lt (le_addCycles d _) (lt_skip (by omega) _)

end Date

end Daybook
