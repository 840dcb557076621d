import Daybook.Text.Decimal

/-!
# Numerals of any base

Digits up to the base sixteen, in either case, and the number that a run of them denotes.
-/

namespace Daybook.Text

/-- What a character counts as a digit of numerals up to base sixteen. -/
def hexValue? (c : Char) : Option Nat :=
  let n := c.toNat
  if 48 ≤ n ∧ n ≤ 57 then some (n - 48)
  else if 65 ≤ n ∧ n ≤ 70 then some (n - 55)
  else if 97 ≤ n ∧ n ≤ 102 then some (n - 87)
  else none

/-- The number that digits of a base denote. -/
def digitsValue? (base : Nat) (cs : List Char) : Option Nat :=
  cs.foldlM
    (fun n c => do
      let d ← hexValue? c
      if d < base then some (n * base + d) else none) 0

end Daybook.Text
