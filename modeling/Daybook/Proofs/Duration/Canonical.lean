import Daybook.Proofs.Duration
import Daybook.Proofs.Duration.Value

/-!
# Canonical durations

A duration has many spellings: an hour and a half is `90`, `90m`, `1.5h`, `1h30m` or `01h30m`. One
of them is canonical: less than an hour of minutes, a unit that counts nothing left out and no zero
in front. This is how a duration is written, so it is read as what it was, and no other canonical
text is read as the same duration.

* `Spelling.isCanonical_iff` : the canonical spellings are those that durations are written with.
* `parse_format_canonical` : a duration reads back from its one canonical text.
-/

namespace Daybook.Duration

open Text

/-! ## The canonical spelling -/

namespace Spelling

variable {s : Spelling}

/-- The hours and the minutes below an hour, each without a zero in front and with its unit, or
left out. -/
def IsCanonical : Spelling → Prop
  | plain _ => False
  | decimal _ _ => False
  | units hours minutes =>
    (hours ≠ none ∨ minutes ≠ none) ∧ (∀ ds ∈ hours, IsPositive ds) ∧
      ∀ ds ∈ minutes, IsPositive ds ∧ value ds < 60

/-- A positive number of minutes is written with a canonical spelling. -/
theorem isCanonical_ofMinutes {n : Nat} (h : 0 < n) : (ofMinutes n).IsCanonical := by
  have hbelow : value (digits (n % 60)) < 60 := by
    rw [value_digits]
    exact Nat.mod_lt _ (by decide)
  unfold ofMinutes
  split
  · next hzero =>
    have hminutes : IsPositive (digits (n % 60)) := isPositive_digits (by omega)
    simp [IsCanonical, hminutes, hbelow]
  · next hhour =>
    have hhours : IsPositive (digits (n / 60)) := isPositive_digits (Nat.pos_of_ne_zero hhour)
    split
    · simp [IsCanonical, hhours]
    · next hrest =>
      have hminutes : IsPositive (digits (n % 60)) := isPositive_digits (Nat.pos_of_ne_zero hrest)
      simp [IsCanonical, hhours, hminutes, hbelow]

/-- Every canonical spelling is written for some positive number of minutes. -/
theorem exists_ofMinutes (h : s.IsCanonical) : ∃ n, 0 < n ∧ ofMinutes n = s := by
  cases s with
  | plain minutes => exact absurd h (by simp [IsCanonical])
  | decimal whole fraction => exact absurd h (by simp [IsCanonical])
  | units hours minutes =>
    obtain ⟨hunit, hhours, hminutes⟩ := h
    -- the digits of each unit are those of a positive number, and the minutes stay below an hour
    cases hours with
    | none =>
      cases minutes with
      | none => simp at hunit
      | some ms =>
        obtain ⟨hpositive, hbelow⟩ := hminutes ms rfl
        obtain ⟨m, hm, rfl⟩ := isPositive_iff.mp hpositive
        rw [value_digits] at hbelow
        have hmod : m % 60 = m := Nat.mod_eq_of_lt hbelow
        exact ⟨m, hm, by rw [ofMinutes, if_pos (by omega), hmod]⟩
    | some hs =>
      obtain ⟨k, hk, rfl⟩ := isPositive_iff.mp (hhours hs rfl)
      cases minutes with
      | none =>
        have hdiv : k * 60 / 60 = k := by omega
        exact ⟨k * 60, by omega, by rw [ofMinutes, if_neg (by omega), if_pos (by omega), hdiv]⟩
      | some ms =>
        obtain ⟨hpositive, hbelow⟩ := hminutes ms rfl
        obtain ⟨m, hm, rfl⟩ := isPositive_iff.mp hpositive
        rw [value_digits] at hbelow
        have hdiv : (k * 60 + m) / 60 = k := by omega
        have hmod : (k * 60 + m) % 60 = m := by omega
        exact ⟨k * 60 + m, by omega,
          by rw [ofMinutes, if_neg (by omega), if_neg (by omega), hdiv, hmod]⟩

/-- The canonical spellings are those that positive numbers of minutes are written with. -/
theorem isCanonical_iff : s.IsCanonical ↔ ∃ n, 0 < n ∧ ofMinutes n = s := by
  constructor
  · exact exists_ofMinutes
  · rintro ⟨n, hpos, rfl⟩
    exact isCanonical_ofMinutes hpos

end Spelling

/-! ## Reading back -/

/-- Counting with 32 bits gives what a spelling amounts to, if this is a number that fits. -/
theorem compute_of_amount {s : Spelling} {n : Nat} (h : s.IsFormed)
    (hamount : s.amount = .minutes n) : s.compute = within .refused n := by
  have hcounted : s.IsCounted := by
    by_contra hnot
    simp [Spelling.amount_of_not_counted h hnot] at hamount
  rw [Spelling.amount_of_counted h hcounted, Amount.minutes.injEq] at hamount
  rw [compute_of_counted h hcounted, hamount]

/-- A positive number of minutes that fits into 32 bits reads back from the text that is written
for it. The text has a canonical spelling, whose number is computed with 32 bits without leaving
them, and no other canonical spelling is read as the same number. -/
theorem parse_format_canonical {n : Nat} (hpos : 1 ≤ n) (hbound : n < minutesBound) :
    parse (format n) = .ok n ∧
    ∃ s : Spelling, s.IsCanonical ∧ s.text = (format n).toList ∧ s.compute = .ok n ∧
      ∀ t : Spelling, t.IsCanonical → parse (String.ofList t.text) = .ok n → t = s := by
  refine ⟨parse_format hpos hbound, .ofMinutes n, Spelling.isCanonical_ofMinutes hpos,
    Spelling.text_ofMinutes n, ?computed, ?unique⟩
  case computed =>
    rw [compute_of_amount (Spelling.isFormed_ofMinutes n) (Spelling.amount_ofMinutes n)]
    exact within_of_lt hbound
  case unique =>
    -- the other spelling is written for a number too, which can only be `n`
    intro t ht hparse
    obtain ⟨m, -, rfl⟩ := Spelling.isCanonical_iff.mp ht
    rw [Spelling.text_ofMinutes, String.ofList_toList] at hparse
    obtain ⟨rfl, -, -⟩ := parse_format_eq_ok_iff.mp hparse
    rfl

/-- The largest number of minutes that fits into 32 bits has hours and minutes. -/
theorem parse_format_canonical_largest :
    1 ≤ 4294967295 ∧ 4294967295 < minutesBound ∧ format 4294967295 = "71582788h15m" ∧
    parse "71582788h15m" = .ok 4294967295 ∧
    ∃ s : Spelling, s.IsCanonical ∧ s.text = "71582788h15m".toList ∧ s.compute = .ok 4294967295 ∧
      ∀ t : Spelling, t.IsCanonical → parse (String.ofList t.text) = .ok 4294967295 → t = s := by
  have hformat : format 4294967295 = "71582788h15m" := by decide +kernel
  have h := parse_format_canonical (n := 4294967295) (by decide) (by decide)
  rw [hformat] at h
  exact ⟨by decide, by decide, hformat, h⟩

/-- With a zero in front the text is read as the same duration, but it is not canonical. -/
example : parse "01h30m" = .ok 90 ∧ parse "1h30m" = .ok 90 := by decide

end Daybook.Duration
