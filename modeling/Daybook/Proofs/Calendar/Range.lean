import Daybook.Proofs.Calendar.Text
import Daybook.Text.Decimal

/-!
# Moments that a duration leads to

A duration of a log is too short to leave the years that can be read, when it begins in a year
of four digits. The bound is far from sharp: the days left over from whole cycles of the calendar
count as a year each.

* `DateTime.inRange_addMinutes` : the moment when a duration of a log is over can be read.
-/

namespace Daybook

namespace Date

theorem year_next (d : Date) : d.year ≤ d.next.year ∧ d.next.year ≤ d.year + 1 := by
  unfold next
  split
  · exact ⟨Int.le_refl _, by simp only; omega⟩
  · split
    · exact ⟨Int.le_refl _, by simp only; omega⟩
    · exact ⟨by simp only; omega, Int.le_refl _⟩

theorem year_skip (n : Nat) (d : Date) :
    d.year ≤ (skip n d).year ∧ (skip n d).year ≤ d.year + n := by
  induction n generalizing d with
  | zero => exact ⟨Int.le_refl _, by simp [skip]⟩
  | succ n ih =>
    obtain ⟨hlow, hhigh⟩ := year_next d
    obtain ⟨hlow', hhigh'⟩ := ih d.next
    rw [skip]
    omega

theorem year_addDays (d : Date) (days : Nat) :
    d.year ≤ (d.addDays days).year ∧
      (d.addDays days).year ≤ d.year + 400 * (days / daysInCycle : Nat) + daysInCycle := by
  -- a cycle is four hundred years, and no day that is left over begins more than one year
  have hrest : days % daysInCycle < daysInCycle := Nat.mod_lt _ (by decide)
  unfold addDays
  generalize days % daysInCycle = rest at hrest ⊢
  generalize days / daysInCycle = cycles
  obtain ⟨hlow, hhigh⟩ := year_skip rest (d.addCycles cycles)
  simp only [addCycles] at hlow hhigh ⊢
  omega

end Date

/-- When a duration of a log that begins in a year of four digits is over can be read. -/
theorem DateTime.inRange_addMinutes {t : DateTime} (h : t.FourDigit) {minutes : Nat}
    (hminutes : minutes < Text.minutesBound) : (t.addMinutes minutes).date.InRange := by
  unfold addMinutes
  split
  · exact h.inRange
  · have hhour := t.time.hour_lt
    have hminute := t.time.minute_lt
    simp only [Date.InRange, Date.yearRange]
    generalize htotal : t.time.hour * 60 + t.time.minute + minutes = total
    -- fewer minutes than in twenty-one cycles of the calendar
    have hcycles : total / 1440 / Date.daysInCycle ≤ 20 := by
      have hbound : Text.minutesBound = 4294967296 := by decide
      unfold Date.daysInCycle
      omega
    obtain ⟨hlow, hhigh⟩ := t.date.year_addDays (total / 1440)
    unfold FourDigit Date.FourDigit at h
    unfold Date.daysInCycle at hcycles hhigh
    omega

end Daybook
