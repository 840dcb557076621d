import Daybook.Proofs.Calendar.Text
import Daybook.Store.Basic

/-!
# Moments in the store

The store keeps moments as texts, and every question about ranges, overlaps and the latest work
compares the texts. What is kept reads back as the moment it was written for, in every year that
can be read. In years of four digits the texts are in the order of the moments; outside these
years they are not, since the signs get in the way.

* `Store.momentOf_storedText` : a stored moment reads back.
* `storedText_lt_iff` and `storedText_le_iff` : texts compare as moments do.
* `storedText_faithful` : both together.
-/

namespace Daybook

variable {a b t : DateTime}

/-! ## Reading back -/

theorem Store.momentOf_storedText (id : SessionId) (h : t.date.InRange) :
    momentOf id (storedText t) = .ok t := by
  have hread : DateTime.ofText? (storedText t).toList = some t := by
    rw [storedText, String.toList_ofList]
    exact DateTime.ofText?_isoText h
  rw [momentOf, hread]

/-- Different moments have different texts, since each text reads back as its moment. -/
theorem storedText_inj (ha : a.date.InRange) (hb : b.date.InRange) :
    storedText a = storedText b ↔ a = b := by
  refine ⟨fun h => ?_, congrArg storedText⟩
  rw [storedText, storedText, String.ofList_inj] at h
  have hread := DateTime.ofText?_isoText ha
  rw [h, DateTime.ofText?_isoText hb] at hread
  exact (Option.some.inj hread).symm

/-! ## The order of texts -/

theorem storedText_lt_iff (ha : a.FourDigit) (hb : b.FourDigit) :
    storedText a < storedText b ↔ a < b := by
  rw [← DateTime.isoText_lt_isoText_iff ha hb]
  have hlt : storedText a < storedText b ↔
      (String.ofList a.isoText).toList < (String.ofList b.isoText).toList := Iff.rfl
  rw [hlt, String.toList_ofList, String.toList_ofList]

theorem storedText_le_iff (ha : a.FourDigit) (hb : b.FourDigit) :
    storedText a ≤ storedText b ↔ a ≤ b := by
  -- both orders are total: not later is the same as at most
  have hmoments : a ≤ b ↔ ¬ b < a := Int.not_lt.symm
  rw [hmoments, ← storedText_lt_iff hb ha]
  exact Iff.rfl

/-- Every moment in a year that can be read is kept as a text that reads back as it. In years of
four digits one text comes before another, at most at it, or is the same exactly as the moments. -/
theorem storedText_faithful :
    (∀ (id : SessionId) (t : DateTime), t.date.InRange → momentOf id (storedText t) = .ok t) ∧
      ∀ a b : DateTime, a.FourDigit → b.FourDigit →
        (storedText a < storedText b ↔ a < b) ∧ (storedText a ≤ storedText b ↔ a ≤ b) ∧
          (storedText a = storedText b ↔ a = b) := by
  refine ⟨fun id t h => Store.momentOf_storedText id h, ?_⟩
  intro a b ha hb
  exact ⟨storedText_lt_iff ha hb, storedText_le_iff ha hb, storedText_inj ha.inRange hb.inRange⟩

/-- The last second of a year, a leap second. -/
def endOfYear (year : Int) : DateTime where
  date := ⟨year, 12, 31, by simp [IsCivil, daysInMonth]⟩
  time := ⟨23, 59, 60, by decide, by decide, by decide⟩

/-- The first and the last year that can be read carry signs and read back. The year 999, written
with a zero in front, comes before the year 1000. -/
theorem storedText_faithful_endOfYear :
    storedText (endOfYear (-262143)) = "-262143-12-31T23:59:60" ∧
      momentOf ⟨1, by decide⟩ (storedText (endOfYear (-262143))) = .ok (endOfYear (-262143)) ∧
      storedText (endOfYear 262142) = "+262142-12-31T23:59:60" ∧
      momentOf ⟨1, by decide⟩ (storedText (endOfYear 262142)) = .ok (endOfYear 262142) ∧
      storedText (endOfYear 999) = "0999-12-31T23:59:60" ∧
      storedText (endOfYear 1000) = "1000-12-31T23:59:60" ∧
      storedText (endOfYear 999) < storedText (endOfYear 1000) := by
  have hbefore : endOfYear 999 < endOfYear 1000 := by decide
  obtain ⟨hread, horder⟩ := storedText_faithful
  refine ⟨by decide +kernel, ?first, by decide +kernel, ?last, by decide +kernel,
    by decide +kernel, ?later⟩
  case first => exact hread _ (endOfYear (-262143)) (by decide)
  case last => exact hread _ (endOfYear 262142) (by decide)
  case later => exact (horder _ _ (by decide) (by decide)).1.mpr hbefore

end Daybook
