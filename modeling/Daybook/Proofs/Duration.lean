import Daybook.Proofs.Duration.Spelling

/-!
# Durations read back

* `Spelling.ofMinutes` : the spelling that is written, `Spelling.text_ofMinutes` that it is.
* `parse_format` : a duration that is written with its units is read as what it was.
-/

namespace Daybook.Duration

open Text

theorem number?_digits (n : Nat) : number? (digits n) = some n := by
  rw [number?, if_pos (List.all_eq_true.mpr fun c hc => isDigit_of_mem_digits hc), value_digits]

theorem isNumeral_digits (n : Nat) : IsNumeral (digits n) where
  ne_nil := digits_ne_nil n
  decimal _ hc := isDecimal_of_isDigit (isDigit_of_mem_digits hc)

/-! ## The spelling that is written -/

/-- The spelling that a number of minutes is written with. -/
def Spelling.ofMinutes (n : Nat) : Spelling :=
  if n / 60 = 0 then .units none (some (digits (n % 60)))
  else if n % 60 = 0 then .units (some (digits (n / 60))) none
  else .units (some (digits (n / 60))) (some (digits (n % 60)))

namespace Spelling

theorem text_ofMinutes (n : Nat) : (ofMinutes n).text = (format n).toList := by
  unfold ofMinutes format
  split
  · simp [text, withUnit, ofNat]
  · split
    · simp [text, withUnit, ofNat]
    · simp [text, withUnit, ofNat]

theorem isFormed_ofMinutes (n : Nat) : (ofMinutes n).IsFormed := by
  have hhours := isNumeral_digits (n / 60)
  have hminutes := isNumeral_digits (n % 60)
  unfold ofMinutes
  split
  · exact ⟨by simp [IsShaped], by simp [runs, hminutes]⟩
  · split
    · exact ⟨by simp [IsShaped], by simp [runs, hhours]⟩
    · exact ⟨by simp [IsShaped], by simp [runs, hhours, hminutes]⟩

/-- A unit that is left out would have counted nothing. -/
theorem amount_ofMinutes (n : Nat) : (ofMinutes n).amount = .minutes n := by
  unfold ofMinutes
  split
  · simp [amount, ofUnits, number?_digits]
    omega
  · split
    · simp [amount, ofUnits, number?_digits]
      omega
    · simp [amount, ofUnits, number?_digits]
      omega

end Spelling

/-- The spelling with units amounts to the number of minutes. -/
theorem amount?_format (n : Nat) : amount? (format n).toList = some (.minutes n) := by
  rw [← Spelling.text_ofMinutes, amount?_text (Spelling.isFormed_ofMinutes n),
    Spelling.amount_ofMinutes]

/-! ## Reading back -/

/-- What is written is read as the number it was written for, if this is positive and within
bounds. -/
theorem parse_format_eq_ok_iff {m n : Nat} :
    parse (format m) = .ok n ↔ m = n ∧ 0 < m ∧ m < minutesBound := by
  rw [parse, amount?_format]
  simp only
  split
  · next hzero => simp [hzero]
  · next hne =>
    split
    · next hlt => simp [Nat.pos_of_ne_zero hne, hlt]
    · next hlarge => simp [hlarge]

/-- A positive number of minutes within bounds reads back. -/
theorem parse_format {n : Nat} (hpos : 0 < n) (hbound : n < minutesBound) :
    parse (format n) = .ok n :=
  parse_format_eq_ok_iff.mpr ⟨rfl, hpos, hbound⟩

/-! ## The characters that are written -/

/-- A spelling with units has neither white space nor a hash. -/
theorem mem_format {n : Nat} {c : Char} (h : c ∈ (format n).toList) :
    isDigit c = true ∨ c = 'h' ∨ c = 'm' := by
  have hdigits : ∀ {m : Nat}, c ∈ (ofNat m).toList → isDigit c = true := by
    intro m hm
    rw [ofNat, String.toList_ofList] at hm
    exact isDigit_of_mem_digits hm
  unfold format at h
  split at h
  · rw [String.toList_append, List.mem_append] at h
    rcases h with h | h
    · exact .inl (hdigits h)
    · exact .inr (.inr (by simpa using h))
  · split at h
    · rw [String.toList_append, List.mem_append] at h
      rcases h with h | h
      · exact .inl (hdigits h)
      · exact .inr (.inl (by simpa using h))
    · rw [String.toList_append, String.toList_append, String.toList_append, List.mem_append,
        List.mem_append, List.mem_append] at h
      rcases h with ((h | h) | h) | h
      · exact .inl (hdigits h)
      · exact .inr (.inl (by simpa using h))
      · exact .inl (hdigits h)
      · exact .inr (.inr (by simpa using h))

theorem format_ne_empty (n : Nat) : (format n).toList ≠ [] := by
  unfold format
  split
  · simp
  · split <;> simp

end Daybook.Duration
