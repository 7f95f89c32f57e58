import Mathlib

/-!
# Fixed-width integer constants

`CoreInt` (`core_int.rs`): a `u64` that holds the low `bitWidth` bits of a value. The source's
assertions (a width in `1..=64`, operands of one width) are the `none` results here, and
`wrapping_*` arithmetic is arithmetic modulo `2 ^ 64` before the mask.
-/

namespace Ir

/-- An integer of a width of at most 64 bits, with its bits as a natural number. -/
structure CoreInt where
  value : Nat
  bitWidth : Nat
  deriving DecidableEq, Repr

namespace CoreInt

/-- `CoreInt::new`: mask a `u64` to a width in `1..=64`. -/
def new (value : Nat) (bitWidth : Nat) : Option CoreInt :=
  if 1 ≤ bitWidth ∧ bitWidth ≤ 64 then some ⟨value % 2 ^ 64 % 2 ^ bitWidth, bitWidth⟩ else none

/-- `value as u64` for an `i64`. -/
def u64OfInt (value : Int) : Nat := (value % 2 ^ 64).toNat

/-- From a signed value, taken modulo `2 ^ 64` as the cast does. -/
def fromSigned (value : Int) (bitWidth : Nat) : Option CoreInt := new (u64OfInt value) bitWidth

/-- The bits as an unsigned value. -/
def asU64 (c : CoreInt) : Nat := c.value

/-- `value as i64` for a `u64`. -/
def i64OfNat (value : Nat) : Int := if value < 2 ^ 63 then value else (value : Int) - 2 ^ 64

/-- The bits as a signed value of the width. -/
def asI64Raw (c : CoreInt) : Int :=
  if c.bitWidth = 64 then i64OfNat c.value
  else if c.value.testBit (c.bitWidth - 1) then (c.value : Int) - 2 ^ c.bitWidth
  else c.value

/-- `as_i64`: a one-bit integer is read without a sign. -/
def asI64 (c : CoreInt) : Int := if c.bitWidth = 1 then c.value else c.asI64Raw

/-- Keep the low bits; the new width may not be greater. -/
def truncTo (c : CoreInt) (newBitWidth : Nat) : Option CoreInt :=
  if newBitWidth ≤ c.bitWidth then new c.value newBitWidth else none

/-- Add bits that are zero; the new width may not be smaller. -/
def zeroExtend (c : CoreInt) (newBitWidth : Nat) : Option CoreInt :=
  if c.bitWidth ≤ newBitWidth then new c.value newBitWidth else none

/-- Repeat the top bit; the new width may not be smaller. -/
def signExtend (c : CoreInt) (newBitWidth : Nat) : Option CoreInt :=
  if newBitWidth < c.bitWidth then none
  else if newBitWidth = c.bitWidth then some c
  else if c.value.testBit (c.bitWidth - 1) then new (c.value + (2 ^ 64 - 2 ^ c.bitWidth)) newBitWidth
  else new c.value newBitWidth

end CoreInt

end Ir
