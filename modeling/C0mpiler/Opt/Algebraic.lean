import C0mpiler.Ir.Code
import C0mpiler.Ir.CoreIntOps
import Mathlib

/-!
# Algebraic simplification

`algebraic.rs`. The `try_*` functions look at one instruction and give the value that may stand
for it, with the module in which that value exists, since some of them add a constant. As for all
edits of the module a panic is `none`; the inner `none` is the answer that nothing was found.
-/

namespace Ir

/-- A value that may replace an instruction, in the module it was found for. -/
abbrev Simplified := Option (ValueId × ModuleCore)

namespace ModuleCore

variable (m : ModuleCore)

def asIntConst : ValueId → Option (Option CoreInt)
  | .const c => do
    let d ← m.constData c
    match d.kind with
    | .int value => return some value
    | .null => return some (← CoreInt.new 0 32)
    | .undef => return some (← CoreInt.new 0 1)
    | _ => return none
  | _ => some none

def isZeroConst : ValueId → Option Bool
  | .const c => do
    let d ← m.constData c
    match d.kind with
    | .int value => return decide (value.asU64 = 0)
    | .null => return true
    | _ => return false
  | _ => some false

def isOneConst : ValueId → Option Bool
  | .const c => do
    let d ← m.constData c
    match d.kind with
    | .int value => return decide (value.asU64 = 1)
    | _ => return false
  | _ => some false

/-- The mask of `is_all_ones_const` and `make_all_ones_const`. -/
def allOnesMask (bits : Nat) : Nat :=
  if 64 ≤ bits then 2 ^ 64 - 1 else 2 ^ bits - 1

def isAllOnesConst (v : ValueId) (ty : Ty) : Option Bool :=
  match v with
  | .const c => do
    let d ← m.constData c
    match d.kind with
    | .int value =>
      match ty.asInt with
      | some bits => return decide (value.asU64 &&& allOnesMask bits = allOnesMask bits)
      | none => return false
    | _ => return false
  | _ => some false

/-- The result is a new constant. -/
def newConst (ty : Ty) (kind : ConstKind) : ValueId × ModuleCore :=
  let added := m.addConst ty kind
  (.const added.1, added.2)

/-- `make_zero_const`, `make_all_ones_const` and `make_bool_const`: an integer constant of the
type, if it is an integer type. -/
def makeIntConst (value : Nat → Nat) (ty : Ty) : Option Simplified :=
  match ty.asInt with
  | some bits => do
    let int ← CoreInt.new (value bits) bits
    return some (m.newConst ty (.int int))
  | none => some none

def makeZeroConst (ty : Ty) : Option Simplified :=
  m.makeIntConst (fun _ => 0) ty

def makeAllOnesConst (ty : Ty) : Option Simplified :=
  m.makeIntConst allOnesMask ty

def makeBoolConst (value : Bool) (ty : Ty) : Option Simplified :=
  m.makeIntConst (fun _ => if value then 1 else 0) ty

/-- The value of a binary operation on constants, in `fold_binary_const_alg`. -/
def foldBinaryConst : BinaryOpcode → CoreInt → CoreInt → Option (Option CoreInt)
  | .add, lhs, rhs => (lhs.wrappingAdd rhs).map some
  | .sub, lhs, rhs => (lhs.wrappingSub rhs).map some
  | .mul, lhs, rhs => (lhs.wrappingMul rhs).map some
  | .udiv, lhs, rhs => lhs.checkedUdiv rhs
  | .sdiv, lhs, rhs => lhs.checkedSdiv rhs
  | .urem, lhs, rhs => lhs.checkedUrem rhs
  | .srem, lhs, rhs => lhs.checkedSrem rhs
  | .shl, lhs, rhs => lhs.checkedShl rhs
  | .lshr, lhs, rhs => lhs.checkedLshr rhs
  | .ashr, lhs, rhs => lhs.checkedAshr rhs
  | .and, lhs, rhs => (lhs.bitand rhs).map some
  | .or, lhs, rhs => (lhs.bitor rhs).map some
  | .xor, lhs, rhs => (lhs.bitxor rhs).map some

def foldBinaryConstAlg (op : BinaryOpcode) (lhs rhs : CoreInt) (ty : Ty) : Option Simplified := do
  match ← foldBinaryConst op lhs rhs with
  | some result => return some (m.newConst ty (.int result))
  | none => return none

/-- The comparison of two constants in `try_simplify_icmp`. -/
def foldICmpConst : ICmpCode → CoreInt → CoreInt → Option Bool
  | .eq, lhs, rhs => lhs.cmpEq rhs
  | .ne, lhs, rhs => lhs.cmpNe rhs
  | .ugt, lhs, rhs => lhs.cmpUgt rhs
  | .uge, lhs, rhs => lhs.cmpUge rhs
  | .ult, lhs, rhs => lhs.cmpUlt rhs
  | .ule, lhs, rhs => lhs.cmpUle rhs
  | .sgt, lhs, rhs => lhs.cmpSgt rhs
  | .sge, lhs, rhs => lhs.cmpSge rhs
  | .slt, lhs, rhs => lhs.cmpSlt rhs
  | .sle, lhs, rhs => lhs.cmpSle rhs

/-- The cases of `try_simplify_binary` behind the constant one. -/
def simplifyIdentity (op : BinaryOpcode) (lhs rhs : ValueId) (ty : Ty) : Option Simplified :=
  match op with
  | .add => do
    if ← m.isZeroConst rhs then return some (lhs, m)
    if ← m.isZeroConst lhs then return some (rhs, m)
    return none
  | .sub => do
    if ← m.isZeroConst rhs then return some (lhs, m)
    if lhs = rhs then return ← m.makeZeroConst ty
    return none
  | .mul => do
    if ← m.isOneConst rhs then return some (lhs, m)
    if ← m.isOneConst lhs then return some (rhs, m)
    if (← m.isZeroConst rhs) || (← m.isZeroConst lhs) then return ← m.makeZeroConst ty
    return none
  | .udiv | .sdiv => do
    if ← m.isOneConst rhs then return some (lhs, m)
    if ← m.isZeroConst lhs then return ← m.makeZeroConst ty
    return none
  | .urem | .srem => do
    if (← m.isOneConst rhs) || (← m.isZeroConst lhs) then return ← m.makeZeroConst ty
    return none
  | .and => do
    if (← m.isZeroConst rhs) || (← m.isZeroConst lhs) then return ← m.makeZeroConst ty
    if ← m.isAllOnesConst rhs ty then return some (lhs, m)
    if ← m.isAllOnesConst lhs ty then return some (rhs, m)
    if lhs = rhs then return some (lhs, m)
    return none
  | .or => do
    if ← m.isZeroConst rhs then return some (lhs, m)
    if ← m.isZeroConst lhs then return some (rhs, m)
    if (← m.isAllOnesConst rhs ty) || (← m.isAllOnesConst lhs ty) then
      return ← m.makeAllOnesConst ty
    if lhs = rhs then return some (lhs, m)
    return none
  | .xor => do
    if ← m.isZeroConst rhs then return some (lhs, m)
    if ← m.isZeroConst lhs then return some (rhs, m)
    if lhs = rhs then return ← m.makeZeroConst ty
    return none
  | .shl | .lshr | .ashr => do
    if ← m.isZeroConst rhs then return some (lhs, m)
    if ← m.isZeroConst lhs then return ← m.makeZeroConst ty
    return none

def trySimplifyBinary (op : BinaryOpcode) (lhs rhs : ValueId) (ty : Ty) : Option Simplified := do
  match ← m.asIntConst lhs, ← m.asIntConst rhs with
  | some a, some b => m.foldBinaryConstAlg op a b ty
  | _, _ => m.simplifyIdentity op lhs rhs ty

/-- What a comparison of a value with itself gives. -/
def icmpSelf : ICmpCode → Bool
  | .eq | .uge | .ule | .sge | .sle => true
  | .ne | .ugt | .ult | .sgt | .slt => false

def trySimplifyIcmp (op : ICmpCode) (lhs rhs : ValueId) (ty : Ty) : Option Simplified := do
  match ← m.asIntConst lhs, ← m.asIntConst rhs with
  | some a, some b => do
    let result ← foldICmpConst op a b
    m.makeBoolConst result ty
  | _, _ => if lhs = rhs then m.makeBoolConst (icmpSelf op) ty else return none

def trySimplifySelect (cond thenVal elseVal : ValueId) : Option Simplified := do
  if thenVal = elseVal then return some (thenVal, m)
  match ← m.asIntConst cond with
  | some c => if c.asU64 ≠ 0 then return some (thenVal, m) else return some (elseVal, m)
  | none => return none

/-- The entries are compared in the order the map gives; the answer does not depend on it. -/
def trySimplifyPhi (incomings : HashMap Nat PhiIncoming) : Option Simplified :=
  match incomings.entries.map fun e => e.2.value with
  | [] => some none
  | first :: values => if values.all fun v => v = first then some (some (first, m)) else some none

def tryFoldConstGlobalLoad (ptr : ValueId) (ty : Ty) : Option Simplified :=
  match ptr with
  | .global g => do
    let globalData ← m.global g
    match globalData.kind with
    | .globalVariable true (some initializer) => do
      let d ← m.constData initializer
      match d.kind with
      | .int value =>
        if ty.asInt.isSome then return some (m.newConst ty (.int value)) else return none
      | .null => if ty = .ptr then return some (m.newConst ty .null) else return none
      | _ => return none
    | _ => return none
  | _ => some none

def tryFoldTrunc (value : ValueId) (ty : Ty) : Option Simplified := do
  match ← m.asIntConst value, ty.asInt with
  | some constVal, some dstBits =>
    if constVal.bitWidth ≤ dstBits then return some (value, m)
    else return some (m.newConst ty (.int (← constVal.truncTo dstBits)))
  | _, _ => return none

/-- `try_fold_zext` and `try_fold_sext`, with the extension as a parameter. -/
def tryFoldExtend (extend : CoreInt → Nat → Option CoreInt) (value : ValueId) (ty : Ty) :
    Option Simplified := do
  match ← m.asIntConst value, ty.asInt with
  | some constVal, some dstBits =>
    if dstBits ≤ constVal.bitWidth then return some (value, m)
    else return some (m.newConst ty (.int (← extend constVal dstBits)))
  | _, _ => return none

def tryFoldZext (value : ValueId) (ty : Ty) : Option Simplified :=
  m.tryFoldExtend CoreInt.zeroExtend value ty

def tryFoldSext (value : ValueId) (ty : Ty) : Option Simplified :=
  m.tryFoldExtend CoreInt.signExtend value ty

def tryFoldPtrToInt (value : ValueId) (ty : Ty) : Option Simplified :=
  match value with
  | .const c => do
    let d ← m.constData c
    match d.kind with
    | .null => m.makeZeroConst ty
    | _ => return none
  | _ => some none

def trySimplifyInst (i : InstRef) : Option Simplified := do
  let inst ← m.inst i
  match inst.kind with
  | .binary op lhs rhs => m.trySimplifyBinary op lhs rhs inst.ty
  | .icmp op lhs rhs => m.trySimplifyIcmp op lhs rhs inst.ty
  | .select cond thenVal elseVal => m.trySimplifySelect cond thenVal elseVal
  | .phi incomings _ => m.trySimplifyPhi incomings
  | .load ptr => m.tryFoldConstGlobalLoad ptr inst.ty
  | .trunc value => m.tryFoldTrunc value inst.ty
  | .zext value => m.tryFoldZext value inst.ty
  | .sext value => m.tryFoldSext value inst.ty
  | .ptrToInt ptr => m.tryFoldPtrToInt ptr inst.ty
  | _ => return none

/-- The end of the body of the loop. -/
def eraseIfNoUses (i : InstRef) : Option ModuleCore := do
  let uses ← m.valueUses (.inst i)
  if uses.isEmpty then m.eraseInstFromParent i else some m

/-- The body of the loop at an instruction that exists: the module behind it and the users of the
replacement, which go on the work list. -/
def simplifyStep (i : InstRef) : Option (List InstRef × ModuleCore) := do
  match ← m.trySimplifyInst i with
  | none => return ([], m)
  | some (result, m) => do
    let m ← m.replaceAllUsesWith (.inst i) result
    let uses ← m.valueUses result
    let m ← m.eraseIfNoUses i
    return (uses.map (·.user), m)

/-- `while let Some(inst_ref) = work_list.pop()`, the list given from its end; `none` where the
loop panics or has not ended after `fuel` turns. -/
def simplifyLoop : Nat → ModuleCore → List InstRef → Option ModuleCore
  | 0, _, _ => none
  | _ + 1, m, [] => some m
  | fuel + 1, m, i :: workList => do
    let fd ← m.func i.func
    if (fd.insts.get? i.inst).isSome then do
      let (users, m) ← m.simplifyStep i
      simplifyLoop fuel m (users.reverse ++ workList)
    else simplifyLoop fuel m workList

/-- `func_algebraic_simplification`, with at most this many turns of the loop. -/
def funcAlgebraicSimplification (slots : SlotOrder) (fuel : Nat) (id : FunctionId) : Option ModuleCore := do
  let function ← m.func id
  if function.isDeclare then return m
  simplifyLoop fuel m ((function.insts.keysIn slots id).map fun inst => ⟨id, inst⟩).reverse

end ModuleCore

end Ir
