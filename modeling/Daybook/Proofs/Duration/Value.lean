import Daybook.Proofs.Duration.Spelling
import Daybook.Proofs.Result
import Mathlib.Algebra.Order.Floor.Semifield
import Mathlib.Data.Rat.Floor
import Mathlib.Tactic.FieldSimp

/-!
# The value of a duration

The digits of a spelling denote a number of minutes exactly, as a fraction. A duration is this
number in whole minutes, half a minute rounded up, as long as it is positive and fits into 32
bits. It can be computed with 32 bits from beginning to end: the steps that do not look after their
bounds never leave them.

* `amount_of_counted` : rounding the fraction and counting with whole numbers agree.
* `compute_of_counted` : so does counting with 32 bits, as far as they suffice.
* `parse_spelled` : what is read of each text.
-/

namespace Daybook.Duration

open Text

/-! ## Exact values -/

namespace Spelling

/-- The number of minutes that the digits denote. -/
def exact : Spelling → ℚ
  | plain minutes => value minutes
  | decimal whole fraction => 60 * (value whole + value fraction / 10 ^ fraction.length)
  | units hours minutes => (hours.elim 0 value * 60 + minutes.elim 0 value : Nat)

/-- The number of whole minutes, half a minute rounded up. -/
def minutes (s : Spelling) : Nat :=
  ⌊s.exact + 1 / 2⌋₊

end Spelling

theorem floor_add_half (n : Nat) : ⌊(n : ℚ) + 1 / 2⌋₊ = n := by
  rw [Nat.floor_eq_iff (by positivity)]
  constructor
  · linarith
  · linarith

/-- A fraction of an hour is rounded with whole numbers, since half of the scale is whole. -/
theorem floor_decimal (hours part : Nat) {k : Nat} (hk : 0 < k) :
    ⌊60 * ((hours : ℚ) + part / 10 ^ k) + 1 / 2⌋₊ =
      hours * 60 + (part * 60 + Nat.pow 10 k / 2) / Nat.pow 10 k := by
  obtain ⟨k, rfl⟩ := Nat.exists_eq_succ_of_ne_zero (Nat.ne_of_gt hk)
  have hscale : Nat.pow 10 (k + 1) = 2 * (5 * 10 ^ k) := by
    show 10 ^ (k + 1) = _
    ring
  have hpos : 0 < 2 * (5 * 10 ^ k) := by positivity
  have hfraction : 60 * ((hours : ℚ) + part / 10 ^ (k + 1)) + 1 / 2 =
      ((part * 60 + 5 * 10 ^ k + hours * 60 * (2 * (5 * 10 ^ k)) : Nat) : ℚ) /
        (2 * (5 * 10 ^ k) : Nat) := by
    push_cast
    field_simp
    ring
  rw [Nat.succ_eq_add_one, hfraction, Nat.floor_div_eq_div, hscale, Nat.add_mul_div_right _ _ hpos,
    Nat.mul_div_cancel_left _ (by decide), Nat.add_comm]

namespace Spelling

variable {s : Spelling} {ds : List Char}

theorem number?_of_isDigit (h : ∀ c ∈ ds, isDigit c = true) : number? ds = some (value ds) :=
  if_pos (List.all_eq_true.mpr h)

theorem number?_of_not_isDigit (h : ¬ ∀ c ∈ ds, isDigit c = true) : number? ds = none :=
  if_neg (mt List.all_eq_true.mp h)

theorem minutes_plain (ds : List Char) : (plain ds).minutes = value ds :=
  floor_add_half _

theorem minutes_units (hours minutes : Option (List Char)) :
    (units hours minutes).minutes = hours.elim 0 value * 60 + minutes.elim 0 value :=
  floor_add_half _

theorem minutes_decimal (whole : List Char) {fraction : List Char} (h : fraction ≠ []) :
    (decimal whole fraction).minutes =
      value whole * 60 + (value fraction * 60 + Nat.pow 10 fraction.length / 2) /
        Nat.pow 10 fraction.length :=
  floor_decimal _ _ (List.length_pos_iff.mpr h)

theorem isCounted_units_iff {hours minutes : Option (List Char)} :
    (units hours minutes).IsCounted ↔
      (∀ ds ∈ hours, ∀ c ∈ ds, isDigit c = true) ∧ ∀ ds ∈ minutes, ∀ c ∈ ds, isDigit c = true := by
  simp [IsCounted, runs, or_imp, forall_and]

theorem isCounted_decimal_iff {whole fraction : List Char} :
    (decimal whole fraction).IsCounted ↔
      (∀ c ∈ whole, isDigit c = true) ∧ ∀ c ∈ fraction, isDigit c = true := by
  simp [IsCounted, runs]

theorem isCounted_plain {ds : List Char} (h : (plain ds).IsFormed) : (plain ds).IsCounted := by
  have hshape : ∀ c ∈ ds, isDigit c = true := h.shape
  simpa [IsCounted, runs] using hshape

/-- When hours and minutes do not count, one of the two is there and does not. -/
theorem exists_of_not_isCounted_units {hours minutes : Option (List Char)}
    (h : ¬ (units hours minutes).IsCounted) :
    (∃ hs, hours = some hs ∧ ¬ ∀ c ∈ hs, isDigit c = true) ∨
      ∃ ms, minutes = some ms ∧ ¬ ∀ c ∈ ms, isDigit c = true := by
  rw [isCounted_units_iff] at h
  by_contra hnone
  simp only [not_or, not_exists, not_and, not_not] at hnone
  exact h ⟨fun hs hhs => hnone.1 hs hhs, fun ms hms => hnone.2 ms hms⟩

/-- A spelling in ASCII digits amounts to its value. -/
theorem amount_of_counted (h : s.IsFormed) (hcounted : s.IsCounted) :
    s.amount = .minutes s.minutes := by
  cases s with
  | plain ds => rw [minutes_plain, amount]
  | decimal whole fraction =>
    obtain ⟨hwhole, hfraction⟩ := isCounted_decimal_iff.mp hcounted
    have hne : fraction ≠ [] := (h.numeral fraction (by simp [runs])).ne_nil
    simp [minutes_decimal whole hne, amount, ofDecimalHours, number?_of_isDigit hwhole,
      number?_of_isDigit hfraction]
  | units hours minutes =>
    obtain ⟨hhours, hminutes⟩ := isCounted_units_iff.mp hcounted
    rw [minutes_units, amount, ofUnits]
    -- a unit that is left out counts nothing
    cases hours with
    | none =>
      cases minutes with
      | none => rfl
      | some ms => simp [number?_of_isDigit (hminutes ms rfl)]
    | some hs =>
      cases minutes with
      | none => simp [number?_of_isDigit (hhours hs rfl)]
      | some ms =>
        simp [number?_of_isDigit (hhours hs rfl), number?_of_isDigit (hminutes ms rfl)]

/-- A spelling with other digits amounts to nothing that could be counted. -/
theorem amount_of_not_counted (h : s.IsFormed) (hcounted : ¬ s.IsCounted) :
    s.amount = .uncountable := by
  cases s with
  | plain ds => exact absurd (isCounted_plain h) hcounted
  | decimal whole fraction =>
    rw [isCounted_decimal_iff, not_and_or] at hcounted
    rcases hcounted with hwhole | hfraction
    · simp [amount, ofDecimalHours, number?_of_not_isDigit hwhole]
    · simp [amount, ofDecimalHours, number?_of_not_isDigit hfraction]
  | units hours minutes =>
    rcases exists_of_not_isCounted_units hcounted with ⟨hs, rfl, hdigits⟩ | ⟨ms, rfl, hdigits⟩
    · simp [amount, ofUnits, number?_of_not_isDigit hdigits]
    · simp [amount, ofUnits, number?_of_not_isDigit hdigits]

end Spelling

/-! ## Counting with 32 bits -/

/-- Why a computation with 32 bits stops. -/
inductive Halt where
  /-- A number does not fit, and the step that makes it looks after that. -/
  | refused
  /-- A number does not fit, and nobody looked. -/
  | overflow
deriving DecidableEq

/-- A number, if it fits into 32 bits. -/
def within (halt : Halt) (n : Nat) : Except Halt Nat :=
  if n < minutesBound then .ok n else .error halt

/-- The number that a run of digits counts; a reader of numbers looks after its bounds. -/
def readNumber (ds : List Char) : Except Halt Nat :=
  match number? ds with
  | some n => within .refused n
  | none => .error .refused

/-- The minutes in `hours` and `minutes`; both steps look after their bounds. -/
def addMinutes (hours minutes : Nat) : Except Halt Nat := do
  let hours ← within .refused (hours * 60)
  within .refused (hours + minutes)

/-- The minutes of a decimal fraction with `places` digits; no step looks after its bounds. -/
def fractionMinutes (part places : Nat) : Except Halt Nat := do
  let scale ← within .overflow (Nat.pow 10 places)
  let scaled ← within .overflow (part * 60)
  let raised ← within .overflow (scaled + scale / 2)
  .ok (raised / scale)

/-- The number of minutes of a spelling, one step after the other. -/
def Spelling.compute : Spelling → Except Halt Nat
  | plain minutes => readNumber minutes
  | decimal whole fraction => do
    let hours ← readNumber whole
    let part ← readNumber fraction
    let minutes ← fractionMinutes part fraction.length
    addMinutes hours minutes
  | units hours minutes => do
    let hours ← hours.elim (.ok 0) readNumber
    let minutes ← minutes.elim (.ok 0) readNumber
    addMinutes hours minutes

theorem within_of_lt {halt : Halt} {n : Nat} (h : n < minutesBound) : within halt n = .ok n :=
  if_pos h

/-- A step that looks after its bounds may be left out before a larger number. -/
theorem within_bind {f : Nat → Except Halt Nat} {a b : Nat} (hf : f a = within .refused b)
    (hle : a ≤ b) : (within .refused a >>= f) = within .refused b := by
  by_cases ha : a < minutesBound
  · rw [within_of_lt ha]
    exact hf
  · have hb : ¬ b < minutesBound := fun hb => ha (Nat.lt_of_le_of_lt hle hb)
    rw [within, if_neg ha, within, if_neg hb]
    rfl

theorem addMinutes_eq (hours minutes : Nat) :
    addMinutes hours minutes = within .refused (hours * 60 + minutes) :=
  within_bind rfl (Nat.le_add_right _ _)

/-- With at most four digits, the minutes of a fraction are computed without overflow. -/
theorem fractionMinutes_eq {part places : Nat} (hplaces : places ≤ 4)
    (hpart : part < Nat.pow 10 places) :
    fractionMinutes part places =
      .ok ((part * 60 + Nat.pow 10 places / 2) / Nat.pow 10 places) := by
  have hscale : Nat.pow 10 places ≤ 10000 := Nat.pow_le_pow_right (by decide) hplaces
  have hbound : minutesBound = 4294967296 := by decide
  rw [fractionMinutes, within_of_lt (by omega), within_of_lt (by omega)]
  show (within .overflow (part * 60 + Nat.pow 10 places / 2) >>= _) = _
  rw [within_of_lt (by omega)]
  rfl

theorem readNumber_of_isDigit {ds : List Char} (h : ∀ c ∈ ds, isDigit c = true) :
    readNumber ds = within .refused (value ds) := by
  rw [readNumber, Spelling.number?_of_isDigit h]

theorem readNumber_of_not_isDigit {ds : List Char} (h : ¬ ∀ c ∈ ds, isDigit c = true) :
    readNumber ds = .error .refused := by
  rw [readNumber, Spelling.number?_of_not_isDigit h]

/-- A number that may be left out is read as what it counts. -/
theorem elim_readNumber {number : Option (List Char)}
    (h : ∀ ds ∈ number, ∀ c ∈ ds, isDigit c = true) :
    number.elim (.ok 0) readNumber = within .refused (number.elim 0 value) := by
  cases number with
  | none => rfl
  | some ds => exact readNumber_of_isDigit (h ds rfl)

/-- Counting with 32 bits gives the value of a spelling if it fits, and is refused if not. -/
theorem compute_of_counted {s : Spelling} (h : s.IsFormed) (hcounted : s.IsCounted) :
    s.compute = within .refused s.minutes := by
  cases s with
  | plain ds =>
    rw [Spelling.minutes_plain]
    exact readNumber_of_isDigit h.shape
  | decimal whole fraction =>
    obtain ⟨hwhole, hfraction⟩ := Spelling.isCounted_decimal_iff.mp hcounted
    have hne : fraction ≠ [] := (h.numeral fraction (by simp [Spelling.runs])).ne_nil
    have hfour : fraction.length ≤ 4 := h.shape
    have hpart : value fraction < Nat.pow 10 fraction.length := value_lt hfraction
    have hscale : Nat.pow 10 fraction.length ≤ 10000 := Nat.pow_le_pow_right (by decide) hfour
    have hbound : minutesBound = 4294967296 := by decide
    have hle : ∀ extra, value whole ≤ value whole * 60 + extra := fun extra => by omega
    rw [Spelling.minutes_decimal whole hne, Spelling.compute, readNumber_of_isDigit hwhole,
      readNumber_of_isDigit hfraction, within_of_lt (n := value fraction) (by omega)]
    refine within_bind ?_ (hle _)
    show (fractionMinutes (value fraction) fraction.length >>= _) = _
    rw [fractionMinutes_eq hfour hpart]
    exact addMinutes_eq _ _
  | units hours minutes =>
    obtain ⟨hhours, hminutes⟩ := Spelling.isCounted_units_iff.mp hcounted
    rw [Spelling.minutes_units, Spelling.compute, elim_readNumber hhours, elim_readNumber hminutes]
    -- each of the two numbers is at most the sum
    refine within_bind (within_bind ?_ (by omega)) (by omega)
    exact addMinutes_eq _ _

theorem readNumber_ne_overflow (ds : List Char) : readNumber ds ≠ .error .overflow := by
  unfold readNumber within
  split
  · split <;> simp
  · simp

/-- What is refused in the end is refused, whatever a step before it comes to. -/
theorem bind_refused {x : Except Halt Nat} {f : Nat → Except Halt Nat}
    (hx : x ≠ .error .overflow) (hf : ∀ n, f n = .error .refused) :
    (x >>= f) = .error .refused := by
  cases x with
  | ok n => exact hf n
  | error halt =>
    cases halt with
    | refused => rfl
    | overflow => exact absurd rfl hx

/-- A spelling with digits that do not count is refused. -/
theorem compute_of_not_counted {s : Spelling} (h : s.IsFormed) (hcounted : ¬ s.IsCounted) :
    s.compute = .error .refused := by
  cases s with
  | plain ds => exact absurd (Spelling.isCounted_plain h) hcounted
  | decimal whole fraction =>
    rw [Spelling.isCounted_decimal_iff, not_and_or] at hcounted
    rw [Spelling.compute]
    rcases hcounted with hwhole | hfraction
    · rw [readNumber_of_not_isDigit hwhole]
      rfl
    · refine bind_refused (readNumber_ne_overflow whole) fun hours => ?_
      rw [readNumber_of_not_isDigit hfraction]
      rfl
  | units hours minutes =>
    rw [Spelling.compute]
    rcases Spelling.exists_of_not_isCounted_units hcounted with
      ⟨hs, rfl, hdigits⟩ | ⟨ms, rfl, hdigits⟩
    · rw [Option.elim_some, readNumber_of_not_isDigit hdigits]
      rfl
    · have hhours : hours.elim (.ok 0) readNumber ≠ .error .overflow := by
        cases hours with
        | none => simp
        | some hs => exact readNumber_ne_overflow hs
      refine bind_refused hhours fun _ => ?_
      rw [Option.elim_some, readNumber_of_not_isDigit hdigits]
      rfl

/-! ## What is read -/

/-- Counting with 32 bits overflows nowhere, and comes to a number exactly when it is the value of a
spelling in ASCII digits and fits. -/
theorem compute_eq_ok_iff {s : Spelling} (h : s.IsFormed) :
    s.compute ≠ .error .overflow ∧
      ∀ n, s.compute = .ok n ↔ s.IsCounted ∧ s.minutes = n ∧ n < minutesBound := by
  by_cases hcounted : s.IsCounted
  · rw [compute_of_counted h hcounted, within]
    split
    · next hlt =>
      refine ⟨by simp, fun n => ?_⟩
      simp only [Except.ok.injEq, hcounted, true_and]
      exact ⟨fun heq => ⟨heq, heq ▸ hlt⟩, fun heq => heq.1⟩
    · next hlarge =>
      refine ⟨by simp, fun n => ?_⟩
      simp only [reduceCtorEq, hcounted, true_and, false_iff, not_and]
      exact fun heq => heq ▸ hlarge
  · rw [compute_of_not_counted h hcounted]
    exact ⟨by simp, fun n => by simp [hcounted]⟩

/-- A text that spells a duration in ASCII digits is read as its value in whole minutes, if this is
positive and fits into 32 bits; a value of zero and one that is too large are refused as such. A
spelling with other decimal digits counts as too large, and any other text spells no duration. No
step of the computation with 32 bits overflows. -/
theorem parse_spelled (text : String) :
    (∀ s : Spelling, s.IsFormed → s.text = text.toList →
      (s.IsCounted →
        (1 ≤ s.minutes → s.minutes < minutesBound → parse text = .ok s.minutes) ∧
        (s.minutes = 0 → parse text = .error (.zero text)) ∧
        (minutesBound ≤ s.minutes → parse text = .error (.tooLarge text))) ∧
      (¬ s.IsCounted → parse text = .error (.tooLarge text)) ∧
      s.compute ≠ .error .overflow ∧
      ∀ n, s.compute = .ok n ↔ s.IsCounted ∧ s.minutes = n ∧ n < minutesBound) ∧
    ((∀ s : Spelling, s.IsFormed → s.text ≠ text.toList) →
      parse text = .error (.invalid text)) := by
  constructor
  · intro s hs htext
    have hamount : amount? text.toList = some s.amount := amount?_eq_some_iff.mpr ⟨s, hs, htext, rfl⟩
    refine ⟨fun hcounted => ?_, fun hcounted => ?_, compute_eq_ok_iff hs⟩
    · rw [parse, hamount, Spelling.amount_of_counted hs hcounted]
      have hpos : 0 < minutesBound := by decide
      refine ⟨fun hone hlt => ?_, fun hzero => ?_, fun hlarge => ?_⟩
      · simp [Nat.ne_of_gt hone, hlt]
      · simp [hzero]
      · have hne : s.minutes ≠ 0 := by omega
        simp [hne, Nat.not_lt.mpr hlarge]
    · rw [parse, hamount, Spelling.amount_of_not_counted hs hcounted]
  · intro hnone
    have hamount : amount? text.toList = none := by
      cases h : amount? text.toList with
      | none => rfl
      | some a =>
        obtain ⟨s, hs, htext, -⟩ := amount?_eq_some_iff.mp h
        exact absurd htext (hnone s hs)
    rw [parse, hamount]

/-- A minute and a half is rounded up. -/
example : parse "0.025h" = .ok 2 := by decide

/-- An Arabic three counts nothing, so it is no three hours. -/
example : parse "٣h" = .error (.tooLarge "٣h") := by decide

end Daybook.Duration
