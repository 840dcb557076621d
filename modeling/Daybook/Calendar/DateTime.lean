import Daybook.Calendar.Date

/-!
# Moments

A moment is a date with a time of day, as it is written down: there is no time zone. A time of
day has whole seconds; second 60 is a leap second, which comes after second 59 and before the
next minute.

* `DateTime.rank_inj` and the order by ranks make the moments a linear order.
* `DateTime.le_addMinutes` says that a moment some minutes later is not earlier.
-/

namespace Daybook

/-- An hour, minute and second of some day. -/
structure TimeOfDay where
  hour : Nat
  minute : Nat
  second : Nat
  hour_lt : hour < 24
  minute_lt : minute < 60
  second_le : second ≤ 60
deriving DecidableEq, Repr

namespace TimeOfDay

/-- The time of day with the given parts, if there is one. -/
def ofParts? (hour minute second : Nat) : Option TimeOfDay :=
  if h : hour < 24 ∧ minute < 60 ∧ second ≤ 60 then
    some ⟨hour, minute, second, h.1, h.2.1, h.2.2⟩
  else none

/-- The position of a time among all times of a day. -/
def rank (t : TimeOfDay) : Nat :=
  (t.hour * 60 + t.minute) * 61 + t.second

theorem rank_lt (t : TimeOfDay) : t.rank < 87840 := by
  have := t.hour_lt
  have := t.minute_lt
  have := t.second_le
  unfold rank
  omega

theorem rank_inj {a b : TimeOfDay} : a.rank = b.rank ↔ a = b := by
  obtain ⟨ha, ma, sa, _, _, _⟩ := a
  obtain ⟨hb, mb, sb, _, _, _⟩ := b
  simp only [rank, TimeOfDay.mk.injEq]
  omega

end TimeOfDay

/-- A moment as written in a log. -/
structure DateTime where
  date : Date
  time : TimeOfDay
deriving DecidableEq, Repr

namespace DateTime

/-- The position of a moment among all moments, with gaps. -/
def rank (t : DateTime) : Int :=
  t.date.rank * 87840 + t.time.rank

instance : LT DateTime := ⟨fun a b => a.rank < b.rank⟩
instance : LE DateTime := ⟨fun a b => a.rank ≤ b.rank⟩

instance (a b : DateTime) : Decidable (a < b) := inferInstanceAs (Decidable (a.rank < b.rank))
instance (a b : DateTime) : Decidable (a ≤ b) := inferInstanceAs (Decidable (a.rank ≤ b.rank))

/-- Different moments have different ranks. -/
theorem rank_inj {a b : DateTime} : a.rank = b.rank ↔ a = b := by
  constructor
  · intro h
    have ha := a.time.rank_lt
    have hb := b.time.rank_lt
    unfold rank at h
    have hd : a.date.rank = b.date.rank := by omega
    have ht : a.time.rank = b.time.rank := by omega
    cases a
    cases b
    simp only [DateTime.mk.injEq]
    exact ⟨Date.rank_inj.mp hd, TimeOfDay.rank_inj.mp ht⟩
  · rintro rfl
    rfl

/-- The moment that many minutes later. The second is kept, except that a leap second counts as
the second before it once it is left. -/
def addMinutes (t : DateTime) (minutes : Nat) : DateTime :=
  if minutes = 0 then t
  else
    let total := t.time.hour * 60 + t.time.minute + minutes
    { date := t.date.addDays (total / 1440)
      time :=
        { hour := total % 1440 / 60
          minute := total % 60
          second := min t.time.second 59
          hour_lt := by omega
          minute_lt := by omega
          second_le := by omega } }

theorem le_addMinutes (t : DateTime) (minutes : Nat) : t ≤ t.addMinutes minutes := by
  unfold addMinutes
  split
  · exact Int.le_refl _
  · next hm =>
    have hs := t.time.second_le
    have hh := t.time.hour_lt
    have hmin := t.time.minute_lt
    show rank _ ≤ rank _
    simp only [rank, TimeOfDay.rank]
    generalize htotal : t.time.hour * 60 + t.time.minute + minutes = total
    by_cases hday : total / 1440 = 0
    · have hsame : t.date.addDays (total / 1440) = t.date := by
        simp [hday, Date.addDays, Date.skip, Date.addCycles]
      rw [hsame]
      omega
    · have hlt : t.date.rank < (t.date.addDays (total / 1440)).rank :=
        t.date.lt_addDays (Nat.pos_of_ne_zero hday)
      omega

end DateTime

end Daybook
