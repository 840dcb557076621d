import Daybook.Duration
import Daybook.Proofs.Text.Digits

/-!
# The spellings of a duration

A duration is spelled with runs of digits: minutes without a unit, hours with a decimal fraction,
or hours and minutes with their units. The digits of a spelling without a unit are ASCII digits;
with a unit they may be decimal digits of any script, which still count nothing.

* `amount?_eq_some_iff` : the texts that amount to something are those of the spellings.
-/

namespace Daybook.Duration

open Text

/-! ## Spellings -/

/-- A run of decimal digits of any script. -/
structure IsNumeral (ds : List Char) : Prop where
  ne_nil : ds ≠ []
  decimal : ∀ c ∈ ds, isDecimal c = true

/-- A spelling of a duration, by its runs of digits. -/
inductive Spelling where
  /-- Minutes without a unit. -/
  | plain (minutes : List Char)
  /-- Hours with a decimal fraction. -/
  | decimal (whole fraction : List Char)
  /-- Hours and minutes with their units. -/
  | units (hours minutes : Option (List Char))

/-- A number with its unit, if there is one. -/
def withUnit (unit : Char) (number : Option (List Char)) : List Char :=
  number.elim [] fun ds => ds ++ [unit]

namespace Spelling

/-- How the duration is written. -/
def text : Spelling → List Char
  | plain minutes => minutes
  | decimal whole fraction => whole ++ '.' :: (fraction ++ ['h'])
  | units hours minutes => withUnit 'h' hours ++ withUnit 'm' minutes

/-- The runs of digits. -/
def runs : Spelling → List (List Char)
  | plain minutes => [minutes]
  | decimal whole fraction => [whole, fraction]
  | units hours minutes => hours.toList ++ minutes.toList

/-- All digits are ASCII digits, so that they count something. -/
def IsCounted (s : Spelling) : Prop :=
  ∀ ds ∈ s.runs, ∀ c ∈ ds, isDigit c = true

/-- A spelling without a unit is in ASCII digits, a fraction has at most four digits, and of two
units at least one is there. -/
def IsShaped : Spelling → Prop
  | plain minutes => ∀ c ∈ minutes, isDigit c = true
  | decimal _ fraction => fraction.length ≤ 4
  | units hours minutes => hours ≠ none ∨ minutes ≠ none

/-- The spelling is one that a duration can have. -/
structure IsFormed (s : Spelling) : Prop where
  shape : s.IsShaped
  numeral : ∀ ds ∈ s.runs, IsNumeral ds

/-- What the duration amounts to. -/
def amount : Spelling → Amount
  | plain minutes => .minutes (value minutes)
  | decimal whole fraction => ofDecimalHours whole fraction
  | units hours minutes => ofUnits hours minutes

end Spelling

/-! ## Reading what is spelled -/

/-- A numeral is split off what follows it, if no decimal digit follows. -/
theorem spanDecimals_append {ds : List Char} (h : IsNumeral ds) {c : Char}
    (hc : isDecimal c = false) (rest : List Char) :
    spanDecimals (ds ++ c :: rest) = (ds, c :: rest) := by
  -- all digits are taken and the character behind them is not
  have hnot : ¬ isDecimal c = true := by simp [hc]
  rw [spanDecimals, List.takeWhile_append_of_pos h.decimal, List.dropWhile_append_of_pos h.decimal,
    List.takeWhile_cons_of_neg hnot, List.dropWhile_cons_of_neg hnot, List.append_nil]

theorem isDecimal_point : isDecimal '.' = false := by decide

theorem isDecimal_hour : isDecimal 'h' = false := by decide

theorem isDecimal_minute : isDecimal 'm' = false := by decide

/-- A character that is no digit rules out the reading as plain minutes. -/
theorem amount?_of_not_isDecimal {cs : List Char} {c : Char} (hmem : c ∈ cs)
    (hc : isDecimal c = false) : amount? cs = unitAmount? cs := by
  have hne : cs ≠ [] := List.ne_nil_of_mem hmem
  have hall : ¬ cs.all isDigit = true := by
    intro hall
    simp [isDecimal_of_isDigit (List.all_eq_true.mp hall c hmem)] at hc
  rw [amount?, if_neg hne, if_neg hall]

/-- A spelling amounts to what its digits do. -/
theorem amount?_text {s : Spelling} (h : s.IsFormed) : amount? s.text = some s.amount := by
  cases s with
  | plain minutes =>
    have hminutes : IsNumeral minutes := h.numeral minutes (by simp [Spelling.runs])
    have hall : minutes.all isDigit = true := List.all_eq_true.mpr h.shape
    simp [Spelling.text, Spelling.amount, amount?, hminutes.ne_nil, hall]
  | decimal whole fraction =>
    have hwhole : IsNumeral whole := h.numeral whole (by simp [Spelling.runs])
    have hfraction : IsNumeral fraction := h.numeral fraction (by simp [Spelling.runs])
    have hone : 1 ≤ fraction.length := List.length_pos_iff.mpr hfraction.ne_nil
    have hfour : fraction.length ≤ 4 := h.shape
    rw [Spelling.text, amount?_of_not_isDecimal (c := '.') (by simp) isDecimal_point]
    simp [unitAmount?, Spelling.amount, spanDecimals_append hwhole isDecimal_point,
      spanDecimals_append hfraction isDecimal_hour, hwhole.ne_nil, hone, hfour]
  | units hours minutes =>
    cases hours with
    | none =>
      cases minutes with
      | none => exact absurd h.shape (by simp [Spelling.IsShaped])
      | some ms =>
        have hms : IsNumeral ms := h.numeral ms (by simp [Spelling.runs])
        rw [Spelling.text,
          amount?_of_not_isDecimal (c := 'm') (by simp [withUnit]) isDecimal_minute]
        simp [withUnit, unitAmount?, Spelling.amount, spanDecimals_append hms isDecimal_minute,
          hms.ne_nil]
    | some hs =>
      have hhs : IsNumeral hs := h.numeral hs (by simp [Spelling.runs])
      rw [Spelling.text, amount?_of_not_isDecimal (c := 'h') (by simp [withUnit]) isDecimal_hour]
      cases minutes with
      | none =>
        simp [withUnit, unitAmount?, Spelling.amount, spanDecimals_append hhs isDecimal_hour,
          hhs.ne_nil]
      | some ms =>
        have hms : IsNumeral ms := h.numeral ms (by simp [Spelling.runs])
        simp [withUnit, unitAmount?, Spelling.amount, spanDecimals_append hhs isDecimal_hour,
          spanDecimals_append hms isDecimal_minute, hhs.ne_nil, hms.ne_nil]

/-! ## Spelling what is read -/

theorem spanDecimals_eq {cs ds rest : List Char} (h : spanDecimals cs = (ds, rest)) :
    cs = ds ++ rest ∧ (ds ≠ [] → IsNumeral ds) := by
  obtain ⟨rfl, rfl⟩ := Prod.mk.inj h
  exact ⟨List.takeWhile_append_dropWhile.symm,
    fun hne => ⟨hne, List.all_eq_true.mp List.all_takeWhile⟩⟩

/-- What is read with units is spelled with them. -/
theorem exists_spelling_of_unitAmount? {cs : List Char} {a : Amount}
    (h : unitAmount? cs = some a) : ∃ s : Spelling, s.IsFormed ∧ s.text = cs ∧ s.amount = a := by
  unfold unitAmount? at h
  obtain ⟨first, rest, hfirst⟩ : ∃ first rest, spanDecimals cs = (first, rest) := ⟨_, _, rfl⟩
  obtain ⟨rfl, hnumeral⟩ := spanDecimals_eq hfirst
  rw [hfirst] at h
  simp only at h
  split at h
  · simp at h
  · next hne =>
    have hnumeral := hnumeral hne
    split at h
    · next more =>
      obtain ⟨fraction, tail, hfraction⟩ : ∃ fraction tail, spanDecimals more = (fraction, tail) :=
        ⟨_, _, rfl⟩
      obtain ⟨rfl, hfractionNumeral⟩ := spanDecimals_eq hfraction
      rw [hfraction] at h
      simp only [Option.ite_none_right_eq_some, Option.some.injEq] at h
      obtain ⟨⟨hone, hfour, rfl⟩, rfl⟩ := h
      have hfractionNumeral := hfractionNumeral (List.length_pos_iff.mp hone)
      exact ⟨.decimal first fraction, ⟨hfour, by simp [Spelling.runs, hnumeral, hfractionNumeral]⟩,
        rfl, rfl⟩
    · obtain rfl := Option.some.inj h
      exact ⟨.units none (some first), ⟨by simp [Spelling.IsShaped], by simp [Spelling.runs, hnumeral]⟩,
        by simp [Spelling.text, withUnit], rfl⟩
    · obtain rfl := Option.some.inj h
      exact ⟨.units (some first) none, ⟨by simp [Spelling.IsShaped], by simp [Spelling.runs, hnumeral]⟩,
        by simp [Spelling.text, withUnit], rfl⟩
    · next more _ =>
      obtain ⟨second, tail, hsecond⟩ : ∃ second tail, spanDecimals more = (second, tail) :=
        ⟨_, _, rfl⟩
      obtain ⟨rfl, hsecondNumeral⟩ := spanDecimals_eq hsecond
      rw [hsecond] at h
      simp only [Option.ite_none_right_eq_some, Option.some.injEq] at h
      obtain ⟨⟨hsecondNe, rfl⟩, rfl⟩ := h
      have hsecondNumeral := hsecondNumeral hsecondNe
      exact ⟨.units (some first) (some second),
        ⟨by simp [Spelling.IsShaped], by simp [Spelling.runs, hnumeral, hsecondNumeral]⟩,
        by simp [Spelling.text, withUnit], rfl⟩
    · simp at h

/-- The texts that amount to something are those of the spellings. -/
theorem amount?_eq_some_iff {cs : List Char} {a : Amount} :
    amount? cs = some a ↔ ∃ s : Spelling, s.IsFormed ∧ s.text = cs ∧ s.amount = a := by
  constructor
  · intro h
    unfold amount? at h
    split at h
    · simp at h
    · next hne =>
      split at h
      · next hall =>
        have hdigit := List.all_eq_true.mp hall
        obtain rfl := Option.some.inj h
        have hnumeral : IsNumeral cs := ⟨hne, fun c hc => isDecimal_of_isDigit (hdigit c hc)⟩
        exact ⟨.plain cs, ⟨hdigit, by simp [Spelling.runs, hnumeral]⟩, rfl, rfl⟩
      · exact exists_spelling_of_unitAmount? h
  · rintro ⟨s, hs, rfl, rfl⟩
    exact amount?_text hs

end Daybook.Duration
