import C0mpiler.Ir.Code
import Mathlib

/-!
# Strength reduction

`strength.rs`. `is_value_nonneg` walks through the operands of a value with a cache; a value is
entered as not known before its operands are looked at, which cuts the cycles through phis. The
pass replaces a multiplication, a division or a remainder by a constant power of two by a shift or
a mask, the signed ones only where the analysis answers yes for the dividend.
-/

namespace Ir

namespace ModuleCore

variable (m : ModuleCore)

abbrev NonnegCache := HashMap ValueId Bool

/-- A call of `is_value_nonneg`, with the cache it leaves; `none` is a panic or too little fuel. -/
abbrev NonnegTest := ValueId → NonnegCache → Option (Bool × NonnegCache)

namespace NonnegTest

variable (test : NonnegTest)

/-- `test(lhs) || test(rhs)`. -/
def either (lhs rhs : ValueId) (cache : NonnegCache) : Option (Bool × NonnegCache) := do
  let (l, cache) ← test lhs cache
  if l then some (true, cache) else test rhs cache

/-- `test(lhs) && test(rhs)`. -/
def both (lhs rhs : ValueId) (cache : NonnegCache) : Option (Bool × NonnegCache) := do
  let (l, cache) ← test lhs cache
  if l then test rhs cache else some (false, cache)

/-- `values.all(test)`. -/
def all : List ValueId → NonnegCache → Option (Bool × NonnegCache)
  | [], cache => some (true, cache)
  | v :: values, cache => do
    let (r, cache) ← test v cache
    if r then all values cache else some (false, cache)

end NonnegTest

/-- The row of `compute_nonneg` for a binary operation. -/
def nonnegBinary (test : NonnegTest) (op : BinaryOpcode) (lhs rhs : ValueId) (cache : NonnegCache) :
    Option (Bool × NonnegCache) :=
  match op with
  | .and => test.either lhs rhs cache
  | .or | .xor => test.both lhs rhs cache
  | .lshr => some (true, cache)
  | .udiv | .urem => some (true, cache)
  | .shl | .ashr => test.both lhs rhs cache
  | .add | .mul => some (false, cache)
  | .sub => some (false, cache)
  | .sdiv => test.both lhs rhs cache
  | .srem => test lhs cache

/-- The row for an instruction. -/
def nonnegInst (test : NonnegTest) (kind : InstKind) (cache : NonnegCache) :
    Option (Bool × NonnegCache) :=
  match kind with
  | .binary op lhs rhs => nonnegBinary test op lhs rhs cache
  | .zext _ => some (true, cache)
  | .icmp _ _ _ => some (true, cache)
  | .phi incomings _ => test.all (incomings.entries.map fun e => e.2.value) cache
  | .select _ thenVal elseVal => test.both thenVal elseVal cache
  | _ => some (false, cache)

/-- Whether the sign bit at the width of a constant is clear. -/
def constNonneg : ConstKind → Bool
  | .int ci => ci.bitWidth = 0 || !ci.value.testBit (ci.bitWidth - 1)
  | _ => false

def computeNonneg (test : NonnegTest) (v : ValueId) (cache : NonnegCache) :
    Option (Bool × NonnegCache) :=
  match v with
  | .const c => do
    let d ← m.constData c
    some (constNonneg d.kind, cache)
  | .arg _ | .global _ => some (false, cache)
  | .inst r => do
    let d ← m.inst r
    nonnegInst test d.kind cache

/-- `is_value_nonneg`, at most this deep. -/
def isValueNonneg : Nat → NonnegTest
  | 0 => fun _ _ => none
  | fuel + 1 => fun v cache =>
    match cache.lookup v with
    | some b => some (b, cache)
    | none => do
      let (result, cache) ← m.computeNonneg (isValueNonneg fuel) v (cache.insert v false)
      some (result, cache.insert v result)

/-- `as_int_const_sr`. -/
def asIntConstSr : ValueId → Option (Option CoreInt)
  | .const c => do
    let d ← m.constData c
    match d.kind with
    | .int value => some (some value)
    | _ => some none
  | _ => some none

/-- `is_power_of_two`. -/
def isPowerOfTwo (n : Nat) : Bool :=
  n = 2 ^ n.log2

/-- The tests on the constant: a power of two that is positive at this width. -/
def reducible (bits rhsVal : Nat) : Bool :=
  rhsVal ≠ 0 && isPowerOfTwo rhsVal && !(2 ^ bits / 2 ≤ rhsVal && bits < 64)

/-- The new instruction for an operation with the second operand `rhsVal`: the operation and the
value of its constant. The trailing zeros of a power of two are its logarithm. -/
def reducedOp (op : BinaryOpcode) (rhsVal : Nat) : Option (BinaryOpcode × Nat) :=
  match op with
  | .mul => some (.shl, rhsVal.log2)
  | .udiv | .sdiv => some (.lshr, rhsVal.log2)
  | .urem | .srem => some (.and, rhsVal - 1)
  | _ => none

/-- `replace_inst_kind`. -/
def replaceInstKind (r : InstRef) (newKind : InstKind) : Option ModuleCore := do
  let d ← m.inst r
  let m ← d.kind.valueOperands.foldlM
    (fun m op => m.updValueUses op.1 fun uses => uses.erase ⟨r, op.2⟩) m
  newKind.valueOperands.foldlM (fun m op => m.updValueUses op.1 (· ++ [⟨r, op.2⟩]))
    (m.updInst r fun d => { d with kind := newKind })

/-- Whether the dividend allows the replacement, and the cache behind the question. Only the
signed operations ask. -/
def signAllows (fuel : Nat) (op : BinaryOpcode) (lhs : ValueId) (cache : NonnegCache) :
    Option (Bool × NonnegCache) :=
  match op with
  | .sdiv | .srem => m.isValueNonneg fuel lhs cache
  | _ => some (true, cache)

/-- The body of the loop at an instruction. -/
def reduceInst (fuel : Nat) (r : InstRef) (cache : NonnegCache) :
    Option (ModuleCore × NonnegCache) := do
  let d ← m.inst r
  match d.kind with
  | .binary op lhs rhs => do
    let rhsConst ← m.asIntConstSr rhs
    match rhsConst, d.ty.asInt with
    | some value, some bits =>
      if reducible bits value.value then
        match reducedOp op value.value with
        | some (newOp, newVal) => do
          let (allowed, cache) ← m.signAllows fuel op lhs cache
          if allowed then do
            let int ← CoreInt.new newVal bits
            let added := m.addConst d.ty (.int int)
            let m ← added.2.replaceInstKind r (.binary newOp lhs (.const added.1))
            some (m, ∅)
          else some (m, cache)
        | none => some (m, cache)
      else some (m, cache)
    | _, _ => some (m, cache)
  | _ => some (m, cache)

/-- `func_strength_reduction`. No instruction is deleted on the way, so those of the list exist. -/
def funcStrengthReduction (slots : SlotOrder) (fuel : Nat) (id : FunctionId) : Option ModuleCore := do
  let function ← m.func id
  if function.isDeclare then some m
  else do
    let (m, _) ← ((function.insts.keysIn slots id).map fun inst => (⟨id, inst⟩ : InstRef)).foldlM
      (fun (s : ModuleCore × NonnegCache) r => s.1.reduceInst fuel r s.2) (m, ∅)
    some m

/-- `functions_in_order`: by name. The keys are those of functions that exist; no two functions of a
program have one name, so the order of the slots does not show. -/
def functionsInOrder : List FunctionId :=
  let name := fun id => (m.func id).elim "" (·.name)
  m.functions.keys.mergeSort fun lhs rhs => decide (name lhs ≤ name rhs)

variable {m} in
theorem mem_functionsInOrder {f : FunctionId} : f ∈ m.functionsInOrder ↔ (m.func f).isSome := by
  rw [functionsInOrder, (List.mergeSort_perm _ _).mem_iff, SlotMap.mem_keys]
  rfl

/-- `opt_strength_reduction`. -/
def optStrengthReduction (slots : SlotOrder) (fuel : Nat) : Option ModuleCore :=
  m.functionsInOrder.foldlM (fun m id => m.funcStrengthReduction slots fuel id) m

end ModuleCore

end Ir
