/-!
# Decimal numerals

Digits, how a number is written with them and how one is read back.

* `isDecimal` is the Unicode class of decimal digits; only the ASCII ones have a value here.
* `value_digits` says that a written number reads back.
-/

namespace Daybook.Text

/-! ## Digit classes -/

/-- One of the ten ASCII digits. -/
def isDigit (c : Char) : Bool :=
  48 ≤ c.toNat && c.toNat ≤ 57

/-- The first code point of every run of ten decimal digits in Unicode, in order. The runs of
the mathematical alphanumeric digits and of the Myanmar numerals of both kinds follow each
other without a gap. -/
def decimalZeros : List Nat :=
  [0x30, 0x660, 0x6F0, 0x7C0, 0x966, 0x9E6, 0xA66, 0xAE6, 0xB66, 0xBE6, 0xC66, 0xCE6, 0xD66,
   0xDE6, 0xE50, 0xED0, 0xF20, 0x1040, 0x1090, 0x17E0, 0x1810, 0x1946, 0x19D0, 0x1A80, 0x1A90,
   0x1B50, 0x1BB0, 0x1C40, 0x1C50, 0xA620, 0xA8D0, 0xA900, 0xA9D0, 0xA9F0, 0xAA50, 0xABF0,
   0xFF10, 0x104A0, 0x10D30, 0x10D40, 0x11066, 0x110F0, 0x11136, 0x111D0, 0x112F0, 0x11450,
   0x114D0, 0x11650, 0x116C0, 0x116D0, 0x116DA, 0x11730, 0x118E0, 0x11950, 0x11BF0, 0x11C50,
   0x11D50, 0x11DA0, 0x11F50, 0x16130, 0x16A60, 0x16AC0, 0x16B50, 0x16D70, 0x1CCF0, 0x1D7CE,
   0x1D7D8, 0x1D7E2, 0x1D7EC, 0x1D7F6, 0x1E140, 0x1E2F0, 0x1E4F0, 0x1E5F1, 0x1E950, 0x1FBF0]

/-- A character of the Unicode category Nd, decimal number. -/
def isDecimal (c : Char) : Bool :=
  isDigit c || decimalZeros.any fun first => first ≤ c.toNat && c.toNat < first + 10

theorem isDecimal_of_isDigit {c : Char} (h : isDigit c = true) : isDecimal c = true := by
  simp [isDecimal, h]

/-! ## Reading -/

/-- What an ASCII digit counts. -/
def digitValue (c : Char) : Nat :=
  c.toNat - 48

/-- The number that a run of ASCII digits denotes, most significant digit first. -/
def value (cs : List Char) : Nat :=
  cs.foldl (fun n c => n * 10 + digitValue c) 0

/-- The number below `bound` that the text spells: an optional plus sign, then one or more
ASCII digits and nothing else. -/
def readNat? (bound : Nat) (cs : List Char) : Option Nat :=
  let digits := match cs with
    | '+' :: ds => ds
    | ds => ds
  if digits ≠ [] ∧ digits.all isDigit ∧ value digits < bound then some (value digits) else none

/-- One more than the largest number of minutes that can be written down. -/
def minutesBound : Nat := Nat.pow 2 32

/-- One more than the largest entry number that can be referred to. -/
def indexBound : Nat := Nat.pow 2 64

/-! ## Writing -/

/-- The digit that counts `n`, for `n` below ten. -/
def digitChar (n : Nat) : Char :=
  Char.ofNat (48 + n % 10)

/-- The digits of a number, without leading zeros. -/
def digits (n : Nat) : List Char :=
  if n < 10 then [digitChar n] else digits (n / 10) ++ [digitChar (n % 10)]
termination_by n
decreasing_by omega

/-- The digits of a number with leading zeros up to the given width. -/
def padded (width n : Nat) : List Char :=
  List.replicate (width - (digits n).length) '0' ++ digits n

/-- A number as text. -/
def ofNat (n : Nat) : String :=
  String.ofList (digits n)

/-- A whole number as text, with a minus sign when it is negative. -/
def ofInt (n : Int) : String :=
  if n < 0 then "-" ++ ofNat n.natAbs else ofNat n.natAbs

/-! ## Reading back -/

theorem digitValue_digitChar {n : Nat} (h : n < 10) : digitValue (digitChar n) = n := by
  have : ∀ k : Fin 10, digitValue (digitChar k.val) = k.val := by decide
  exact this ⟨n, h⟩

theorem isDigit_digitChar (n : Nat) : isDigit (digitChar n) = true := by
  have : ∀ k : Fin 10, isDigit (Char.ofNat (48 + k.val)) = true := by decide
  exact this ⟨n % 10, Nat.mod_lt _ (by decide)⟩

theorem digits_ne_nil (n : Nat) : digits n ≠ [] := by
  unfold digits
  split <;> simp

theorem isDigit_of_mem_digits {n : Nat} {c : Char} (h : c ∈ digits n) : isDigit c = true := by
  fun_induction digits n with
  | case1 n _ =>
    rw [List.mem_singleton] at h
    exact h ▸ isDigit_digitChar n
  | case2 n _ ih =>
    rcases List.mem_append.mp h with h | h
    · exact ih h
    · rw [List.mem_singleton] at h
      exact h ▸ isDigit_digitChar _

theorem value_append_singleton (cs : List Char) (c : Char) :
    value (cs ++ [c]) = value cs * 10 + digitValue c := by
  simp [value]

/-- A written number reads back. -/
theorem value_digits (n : Nat) : value (digits n) = n := by
  fun_induction digits n with
  | case1 n h => simp [value, digitValue_digitChar h]
  | case2 n h ih =>
    rw [value_append_singleton, ih, digitValue_digitChar (Nat.mod_lt _ (by decide))]
    omega

end Daybook.Text
