import C0mpiler.Ir.Core
import C0mpiler.Ir.Layout
import Mathlib

/-!
# Values and the meaning of the pure instructions

A value is an integer of some width, a pointer (an object and a byte offset into it) or
undefined. The IR has no document of its own; the meanings are those of its textual form, which
`ir_output.rs` prints as LLVM IR, restricted to what the lowering of `mir/lower.rs` relies on:
arithmetic is modulo `2 ^ bits`, an operation without a result (a division by zero, a shift by
the width or more, an operand that is undefined or of another kind) yields an undefined value and
does not trap, and a one-bit integer is read without a sign, as `CoreInt::as_i64` says.
-/

namespace Ir

/-- A memory object. Objects made by `alloca` are named when they are made. -/
inductive Obj where
  | null
  | global (g : GlobalId)
  | stack (n : Nat)
  deriving DecidableEq, Repr

inductive Val where
  | int (bits n : Nat)
  | ptr (obj : Obj) (off : Int)
  | undef
  deriving DecidableEq, Repr

namespace Val

/-- The integer of the given width that is `n` modulo `2 ^ bits`. -/
def ofNat (bits n : Nat) : Val := .int bits (n % 2 ^ bits)

def ofInt (bits : Nat) (n : Int) : Val := .int bits (n % 2 ^ bits).toNat

def ofBool (b : Bool) : Val := .int 1 b.toNat

end Val

/-- Two's complement reading. -/
def signedOf (bits n : Nat) : Int := if 2 * n < 2 ^ bits then n else (n : Int) - 2 ^ bits

/-- The reading of signed operations: a one-bit integer has no sign. -/
def arithSignedOf (bits n : Nat) : Int := if bits = 1 then n else signedOf bits n

/-- The result of a binary operation on two integers of one width, where it has one. -/
def evalBinary (op : BinaryOpcode) (bits a b : Nat) : Option Val :=
  match op with
  | .add => some (.ofNat bits (a + b))
  | .sub => some (.ofInt bits (a - b))
  | .mul => some (.ofNat bits (a * b))
  | .udiv => if b = 0 then none else some (.ofNat bits (a / b))
  | .sdiv =>
    if b = 0 then none
    else some (.ofInt bits ((arithSignedOf bits a).tdiv (arithSignedOf bits b)))
  | .urem => if b = 0 then none else some (.ofNat bits (a % b))
  | .srem =>
    if b = 0 then none
    else some (.ofInt bits ((arithSignedOf bits a).tmod (arithSignedOf bits b)))
  | .shl => if b < bits then some (.ofNat bits (a * 2 ^ b)) else none
  | .lshr => if b < bits then some (.ofNat bits (a / 2 ^ b)) else none
  | .ashr => if b < bits then some (.ofInt bits (arithSignedOf bits a / 2 ^ b)) else none
  | .and => some (.ofNat bits (a &&& b))
  | .or => some (.ofNat bits (a ||| b))
  | .xor => some (.ofNat bits (a ^^^ b))

/-- A comparison, for the unsigned and the signed readings of the operands. -/
def evalICmp (op : ICmpCode) (ua ub sa sb : Int) : Bool :=
  match op with
  | .eq => ua = ub
  | .ne => ua ≠ ub
  | .ugt => ua > ub
  | .uge => ua ≥ ub
  | .ult => ua < ub
  | .ule => ua ≤ ub
  | .sgt => sa > sb
  | .sge => sa ≥ sb
  | .slt => sa < sb
  | .sle => sa ≤ sb

namespace Val

def binary (op : BinaryOpcode) : Val → Val → Val
  | .int bits a, .int bits' b => if bits = bits' then (evalBinary op bits a b).getD .undef else .undef
  | _, _ => Val.undef

/-- Pointers are compared by their addresses. -/
def icmp (addr : Obj → Int) (op : ICmpCode) : Val → Val → Val
  | .int bits a, .int bits' b =>
    if bits = bits' then .ofBool (evalICmp op a b (arithSignedOf bits a) (arithSignedOf bits b))
    else .undef
  | .ptr o off, .ptr o' off' =>
    .ofBool (evalICmp op (addr o + off) (addr o' + off') (addr o + off) (addr o' + off'))
  | _, _ => .undef

def select : Val → Val → Val → Val
  | .int _ n, v, w => if n ≠ 0 then v else w
  | _, _, _ => .undef

def ptrToInt (addr : Obj → Int) (bits : Nat) : Val → Val
  | .ptr o off => .ofInt bits (addr o + off)
  | _ => .undef

def trunc (bits : Nat) : Val → Val
  | .int _ n => .ofNat bits n
  | _ => .undef

def zext (bits : Nat) : Val → Val
  | .int _ n => .ofNat bits n
  | _ => .undef

def sext (bits : Nat) : Val → Val
  | .int bits' n => .ofInt bits (signedOf bits' n)
  | _ => Val.undef

/-- The reading of an index. -/
def asIndex : Val → Option Int
  | .int bits n => some (signedOf bits n)
  | _ => none

end Val

/-! ## Addresses -/

variable (t : TargetDataLayout)

/-- One step of an index path: along whole objects of a type, or into an aggregate. -/
inductive PathTy where
  | along (ty : Ty)
  | into (ty : Ty)
  deriving DecidableEq

/-- The offset and the type a step reaches with an index. -/
def PathTy.step (p : PathTy) (i : Int) : Option (Int × Ty) :=
  match p with
  | .along ty => do
    let stride ← strideOf t ty
    some (i * stride, ty)
  | .into (.array elemTy _) => do
    let stride ← strideOf t elemTy
    some (i * stride, elemTy)
  | .into (.struct fieldTys packed) => do
    let l ← layoutOf t (.struct fieldTys packed)
    match l.shape, i with
    | .struct s, .ofNat i => do
      let f ← s.fields[i]?
      let ty ← fieldTys[i]?
      some (f.offset, ty)
    | _, _ => none
  | .into _ => none

/-- The offset of a list of indices into a type, after the first. -/
def gepInto : Ty → List Int → Option Int
  | _, [] => some 0
  | ty, i :: is => do
    let (off, ty) ← (PathTy.into ty).step t i
    let rest ← gepInto ty is
    some (off + rest)

/-- The offset a `GetElementPtr` adds to its base. -/
def gepOffset (baseTy : Ty) : List Int → Option Int
  | [] => some 0
  | i :: is => do
    let (off, ty) ← (PathTy.along baseTy).step t i
    let rest ← gepInto t ty is
    some (off + rest)

def Val.gep (baseTy : Ty) (base : Val) (indices : List Val) : Val :=
  match base, indices.mapM Val.asIndex with
  | .ptr o off, some is =>
    match gepOffset t baseTy is with
    | some d => .ptr o (off + d)
    | none => .undef
  | _, _ => Val.undef

/-! ## Operands and pure instructions -/

/-- The value of a constant that stands as an operand. Aggregates have none. -/
def evalConst (d : ConstData) : Option Val :=
  match d.kind with
  | .int c => some (.int c.bitWidth c.value)
  | .null => some (.ptr .null 0)
  | .undef => some .undef
  | .array _ | .struct _ | .string _ => none

/-- The values of the instructions that have been executed. -/
abbrev Regs := InstRef → Option Val

/-- What an execution of one call of a function does not change: the address of every object and
the arguments. -/
structure Env where
  target : TargetDataLayout
  addr : Obj → Int
  args : ArgRef → Option Val

def ModuleCore.evalOperand (m : ModuleCore) (E : Env) (regs : Regs) : ValueId → Option Val
  | .inst r => regs r
  | .arg a => E.args a
  | .global g => some (.ptr (.global g) 0)
  | .const c => (m.constData c).bind evalConst

def widthOf (ty : Ty) : Nat := ty.asInt.getD 0

/-- The value of an instruction that only computes one, from the values of its operands; `none`
for the other instructions and for an operand without a value. -/
def evalPure (E : Env) (ty : Ty) (k : InstKind) (val : ValueId → Option Val) : Option Val :=
  match k with
  | .binary op lhs rhs => do
    some (.binary op (← val lhs) (← val rhs))
  | .icmp op lhs rhs => do
    some (.icmp E.addr op (← val lhs) (← val rhs))
  | .getElementPtr baseTy base indices => do
    let base ← val base
    let indices ← indices.mapM val
    some (.gep E.target baseTy base indices)
  | .select cond thenVal elseVal => do
    some (.select (← val cond) (← val thenVal) (← val elseVal))
  | .ptrToInt ptr => do
    some (.ptrToInt E.addr (widthOf ty) (← val ptr))
  | .trunc value => do
    some (.trunc (widthOf ty) (← val value))
  | .zext value => do
    some (.zext (widthOf ty) (← val value))
  | .sext value => do
    some (.sext (widthOf ty) (← val value))
  | _ => none

end Ir
