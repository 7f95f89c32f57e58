import C0mpiler.Ir.CoreIntValue
import Mathlib

/-!
# Arithmetic of constants

The operations of `CoreInt`. All of them assert that the operands have the same width; where the
assertion fails the result is `none`. The `checked_*` operations have a result of their own for a
division by zero, an overflowing signed division and a shift by the width or more, which is the
inner `none`.
-/

namespace Ir

namespace CoreInt

/-- `assert_same_bit_width`. -/
def assertSameBitWidth (a b : CoreInt) : Option Unit :=
  guard (a.bitWidth = b.bitWidth)

/-- Addition modulo the width. -/
def wrappingAdd (a b : CoreInt) : Option CoreInt := do
  a.assertSameBitWidth b
  new (a.value + b.value) a.bitWidth

/-- Subtraction modulo the width. -/
def wrappingSub (a b : CoreInt) : Option CoreInt := do
  a.assertSameBitWidth b
  new (u64OfInt (a.value - b.value)) a.bitWidth

/-- Multiplication modulo the width. -/
def wrappingMul (a b : CoreInt) : Option CoreInt := do
  a.assertSameBitWidth b
  new (a.value * b.value) a.bitWidth

/-- Unsigned quotient, nothing for a division by zero. -/
def checkedUdiv (a b : CoreInt) : Option (Option CoreInt) := do
  a.assertSameBitWidth b
  if b.value = 0 then return none
  return some (← new (a.value / b.value) a.bitWidth)

/-- Unsigned remainder, nothing for a division by zero. -/
def checkedUrem (a b : CoreInt) : Option (Option CoreInt) := do
  a.assertSameBitWidth b
  if b.value = 0 then return none
  return some (← new (a.value % b.value) a.bitWidth)

/-- Where `i64::checked_div` and `i64::checked_rem` have no result. -/
def DivOverflows (a b : Int) : Prop :=
  b = 0 ∨ a = -2 ^ 63 ∧ b = -1

instance (a b : Int) : Decidable (DivOverflows a b) :=
  inferInstanceAs (Decidable (_ ∨ _))

/-- Signed quotient towards zero, nothing where the machine's division overflows. -/
def checkedSdiv (a b : CoreInt) : Option (Option CoreInt) := do
  a.assertSameBitWidth b
  if DivOverflows a.asI64 b.asI64 then return none
  return some (← fromSigned (a.asI64.tdiv b.asI64) a.bitWidth)

/-- Signed remainder with the sign of the dividend, nothing where the machine's division overflows.
-/
def checkedSrem (a b : CoreInt) : Option (Option CoreInt) := do
  a.assertSameBitWidth b
  if DivOverflows a.asI64 b.asI64 then return none
  return some (← fromSigned (a.asI64.tmod b.asI64) a.bitWidth)

/-- Shift to the left, nothing for an amount of the width or more. -/
def checkedShl (a b : CoreInt) : Option (Option CoreInt) := do
  a.assertSameBitWidth b
  if a.bitWidth ≤ b.value then return none
  return some (← new (a.value <<< b.value) a.bitWidth)

/-- Shift to the right with zeros, nothing for an amount of the width or more. -/
def checkedLshr (a b : CoreInt) : Option (Option CoreInt) := do
  a.assertSameBitWidth b
  if a.bitWidth ≤ b.value then return none
  return some (← new (a.value >>> b.value) a.bitWidth)

/-- Shift to the right with the sign, nothing for an amount of the width or more. -/
def checkedAshr (a b : CoreInt) : Option (Option CoreInt) := do
  a.assertSameBitWidth b
  if a.bitWidth ≤ b.value then return none
  return some (← fromSigned (a.asI64 >>> b.value) a.bitWidth)

/-- Bitwise and. -/
def bitand (a b : CoreInt) : Option CoreInt := do
  a.assertSameBitWidth b
  new (a.value &&& b.value) a.bitWidth

/-- Bitwise or. -/
def bitor (a b : CoreInt) : Option CoreInt := do
  a.assertSameBitWidth b
  new (a.value ||| b.value) a.bitWidth

/-- Bitwise exclusive or. -/
def bitxor (a b : CoreInt) : Option CoreInt := do
  a.assertSameBitWidth b
  new (a.value ^^^ b.value) a.bitWidth

/-- Equality of the bits. -/
def cmpEq (a b : CoreInt) : Option Bool := do
  a.assertSameBitWidth b
  return decide (a.value = b.value)

/-- The negation of `cmp_eq`. -/
def cmpNe (a b : CoreInt) : Option Bool := do
  return !(← a.cmpEq b)

/-- Greater as unsigned values. -/
def cmpUgt (a b : CoreInt) : Option Bool := do
  a.assertSameBitWidth b
  return decide (b.value < a.value)

/-- Greater or equal as unsigned values. -/
def cmpUge (a b : CoreInt) : Option Bool := do
  a.assertSameBitWidth b
  return decide (b.value ≤ a.value)

/-- Less as unsigned values. -/
def cmpUlt (a b : CoreInt) : Option Bool := do
  a.assertSameBitWidth b
  return decide (a.value < b.value)

/-- Less or equal as unsigned values. -/
def cmpUle (a b : CoreInt) : Option Bool := do
  a.assertSameBitWidth b
  return decide (a.value ≤ b.value)

/-- Greater as signed values. -/
def cmpSgt (a b : CoreInt) : Option Bool := do
  a.assertSameBitWidth b
  return decide (b.asI64 < a.asI64)

/-- Greater or equal as signed values. -/
def cmpSge (a b : CoreInt) : Option Bool := do
  a.assertSameBitWidth b
  return decide (b.asI64 ≤ a.asI64)

/-- Less as signed values. -/
def cmpSlt (a b : CoreInt) : Option Bool := do
  a.assertSameBitWidth b
  return decide (a.asI64 < b.asI64)

/-- Less or equal as signed values. -/
def cmpSle (a b : CoreInt) : Option Bool := do
  a.assertSameBitWidth b
  return decide (a.asI64 ≤ b.asI64)

/-! ## When the assertions hold -/

/-- A width from 1 to 64 is accepted, and the value is cut to it. -/
theorem new_eq_some {bitWidth : Nat} (h : 1 ≤ bitWidth ∧ bitWidth ≤ 64) (value : Nat) :
    new value bitWidth = some ⟨value % 2 ^ 64 % 2 ^ bitWidth, bitWidth⟩ :=
  if_pos h

end CoreInt

end Ir
