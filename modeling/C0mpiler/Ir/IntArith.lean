import C0mpiler.Ir.CoreInst
import Mathlib

/-!
# What the integer instructions compute

The meaning of `binary` and `icmp` on integers of any width: arithmetic modulo `2 ^ b`, signed
division towards zero, no result for a division by zero or a shift by the width or more. The amount
of a shift may have a width of its own.
-/

namespace Ir

variable {b c : Nat}

/-- A shift by `n`. -/
def intShift (op : BinaryOpcode) (x : BitVec b) (n : Nat) : Option (BitVec b) :=
  if n < b then
    match op with
    | .shl => some (x <<< n)
    | .lshr => some (x >>> n)
    | .ashr => some (x.sshiftRight n)
    | _ => none
  else none

/-- The other operations, on two integers of one width. -/
def intArith (op : BinaryOpcode) (x y : BitVec b) : Option (BitVec b) :=
  match op with
  | .add => some (x + y)
  | .sub => some (x - y)
  | .mul => some (x * y)
  | .udiv => if y = 0 then none else some (x / y)
  | .sdiv => if y = 0 then none else some (x.sdiv y)
  | .urem => if y = 0 then none else some (x % y)
  | .srem => if y = 0 then none else some (x.srem y)
  | .and => some (x &&& y)
  | .or => some (x ||| y)
  | .xor => some (x ^^^ y)
  | .shl | .lshr | .ashr => none

namespace BinaryOpcode

/-- The operations whose right operand is an amount. -/
def isShift : BinaryOpcode → Bool
  | shl | lshr | ashr => true
  | _ => false

end BinaryOpcode

/-- A binary operation; only a shift takes an amount of another width. -/
def intBinary (op : BinaryOpcode) (x : BitVec b) (y : BitVec c) : Option (BitVec b) :=
  if op.isShift then intShift op x y.toNat
  else if c = b then intArith op x (y.setWidth b)
  else none

/-- A shift that has a result is by less than the width. -/
theorem lt_of_intBinary {op : BinaryOpcode} {x z : BitVec b} {y : BitVec c}
    (hop : op.isShift = true) (h : intBinary op x y = some z) : y.toNat < b := by
  rw [intBinary, if_pos hop] at h
  unfold intShift at h
  split at h
  · next hlt => exact hlt
  · cases h

/-- A comparison. -/
def intICmp (op : ICmpCode) (x y : BitVec b) : Bool :=
  match op with
  | .eq => x = y
  | .ne => x ≠ y
  | .ugt => y.ult x
  | .uge => !x.ult y
  | .ult => x.ult y
  | .ule => !y.ult x
  | .sgt => y.slt x
  | .sge => !x.slt y
  | .slt => x.slt y
  | .sle => !y.slt x

end Ir
