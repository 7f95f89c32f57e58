import C0mpiler.Data.HashMap
import C0mpiler.Ir.IrType
import C0mpiler.Ir.CoreInt
import Mathlib

/-!
# Instructions and their operands

The instruction kinds of the IR (`core_inst.rs`), the keys that name functions, blocks,
instructions, arguments, globals and constants (`core.rs`), and the operand traversals every
edit of the module is built from: `valueOperands` and `blockOperands` list the operands of an
instruction with the slots they stand in, `replaceOperand` and `replaceBlockOperand` overwrite
one slot and return what stood there. A slot the kind does not have is a panic (`none`).
-/

namespace Ir

/-- Keys of the arena of functions. -/
abbrev FunctionId := Nat
/-- Keys of a function's arena of blocks. -/
abbrev BlockId := Nat
/-- Keys of a function's arena of instructions. -/
abbrev InstId := Nat
/-- Keys of a function's arena of arguments. -/
abbrev ArgId := Nat
/-- Keys of the arena of globals. -/
abbrev GlobalId := Nat
/-- Keys of the arena of constants. -/
abbrev ConstId := Nat

/-- A block of a function. -/
structure BlockRef where
  func : FunctionId
  block : BlockId
  deriving DecidableEq, Repr

/-- An instruction of a function. -/
structure InstRef where
  func : FunctionId
  inst : InstId
  deriving DecidableEq, Repr

/-- An argument of a function. -/
structure ArgRef where
  func : FunctionId
  arg : ArgId
  deriving DecidableEq, Repr

/-- What an operand can name. -/
inductive ValueId where
  | inst (r : InstRef)
  | arg (r : ArgRef)
  | global (g : GlobalId)
  | const (c : ConstId)
  deriving DecidableEq, Repr

/-- The places of an instruction that hold a value. -/
inductive OperandSlot where
  | binaryLhs
  | binaryRhs
  | callArg (i : Nat)
  | branchCond
  | gepBase
  | gepIndex (i : Nat)
  | loadPtr
  | retVal
  | storePtr
  | storeVal
  | icmpLhs
  | icmpRhs
  | phiIncomingVal (i : Nat)
  | selectCond
  | selectThenVal
  | selectElseVal
  | ptrToIntPtr
  | truncVal
  | zextVal
  | sextVal
  deriving DecidableEq, Repr

/-- The places of an instruction that hold a block. -/
inductive BlockOperandSlot where
  | branchThen
  | branchElse
  | phiIncomingBlock (i : Nat)
  deriving DecidableEq, Repr

/-- The binary operations. -/
inductive BinaryOpcode where
  | add | sub | mul | udiv | sdiv | urem | srem
  | shl | lshr | ashr | and | or | xor
  deriving DecidableEq, Repr

/-- The comparisons. -/
inductive ICmpCode where
  | eq | ne | ugt | uge | ult | ule | sgt | sge | slt | sle
  deriving DecidableEq, Repr

/-- The condition of a branch and the block for the case that it is false. -/
structure CondBranch where
  cond : ValueId
  elseBlock : BlockId
  deriving DecidableEq, Repr

/-- The value that a phi takes from a predecessor. -/
structure PhiIncoming where
  block : BlockId
  value : ValueId
  deriving DecidableEq, Repr

/-- The instructions. The incomings of a phi are numbered, and the counter is the next number. -/
inductive InstKind where
  | binary (op : BinaryOpcode) (lhs rhs : ValueId)
  | call (func : FunctionId) (args : List ValueId)
  | branch (thenBlock : BlockId) (cond : Option CondBranch)
  | getElementPtr (baseTy : Ty) (base : ValueId) (indices : List ValueId)
  | alloca (ty : Ty)
  | load (ptr : ValueId)
  | ret (value : Option ValueId)
  | store (value ptr : ValueId)
  | icmp (op : ICmpCode) (lhs rhs : ValueId)
  | phi (incomings : HashMap Nat PhiIncoming) (idx : Nat)
  | select (cond thenVal elseVal : ValueId)
  | ptrToInt (ptr : ValueId)
  | trunc (value : ValueId)
  | zext (value : ValueId)
  | sext (value : ValueId)
  | unreachable

namespace InstKind

/-- A terminator ends a block. -/
def isTerminator : InstKind → Bool
  | branch _ _ | ret _ | unreachable => true
  | _ => false

/-- A phi stands before the other instructions of a block. -/
def isPhi : InstKind → Bool
  | phi _ _ => true
  | _ => false

/-- The incomings of a phi and its counter. -/
def asPhi : InstKind → Option (HashMap Nat PhiIncoming × Nat)
  | phi incomings idx => some (incomings, idx)
  | _ => none

/-- The callee and the arguments of a call. -/
def asCall : InstKind → Option (FunctionId × List ValueId)
  | call func args => some (func, args)
  | _ => none

/-- `for_each_block_operand`: the block operands in the order they are visited. -/
def blockOperands : InstKind → List (BlockId × BlockOperandSlot)
  | branch thenBlock none => [(thenBlock, .branchThen)]
  | branch thenBlock (some c) => [(thenBlock, .branchThen), (c.elseBlock, .branchElse)]
  | phi incomings _ => incomings.entries.map fun e => (e.2.block, .phiIncomingBlock e.1)
  | _ => []

/-- `for_each_value_operand`: the value operands in the order they are visited. -/
def valueOperands : InstKind → List (ValueId × OperandSlot)
  | binary _ lhs rhs => [(lhs, .binaryLhs), (rhs, .binaryRhs)]
  | call _ args => args.zipIdx.map fun a => (a.1, .callArg a.2)
  | branch _ none => []
  | branch _ (some c) => [(c.cond, .branchCond)]
  | getElementPtr _ base indices =>
      (base, .gepBase) :: indices.zipIdx.map fun a => (a.1, .gepIndex a.2)
  | alloca _ => []
  | load ptr => [(ptr, .loadPtr)]
  | ret none => []
  | ret (some value) => [(value, .retVal)]
  | store value ptr => [(value, .storeVal), (ptr, .storePtr)]
  | icmp _ lhs rhs => [(lhs, .icmpLhs), (rhs, .icmpRhs)]
  | phi incomings _ => incomings.entries.map fun e => (e.2.value, .phiIncomingVal e.1)
  | select cond thenVal elseVal =>
      [(cond, .selectCond), (thenVal, .selectThenVal), (elseVal, .selectElseVal)]
  | ptrToInt ptr => [(ptr, .ptrToIntPtr)]
  | trunc value => [(value, .truncVal)]
  | zext value => [(value, .zextVal)]
  | sext value => [(value, .sextVal)]
  | unreachable => []

/-- `replace_block_operand`: the old operand and the kind with the slot overwritten. -/
def replaceBlockOperand (k : InstKind) (slot : BlockOperandSlot) (newBlock : BlockId) :
    Option (BlockId × InstKind) :=
  match k, slot with
  | branch thenBlock cond, .branchThen => some (thenBlock, branch newBlock cond)
  | branch thenBlock (some c), .branchElse =>
      some (c.elseBlock, branch thenBlock (some { c with elseBlock := newBlock }))
  | phi incomings idx, .phiIncomingBlock i => do
      let old ← incomings.lookup i
      some (old.block, phi (incomings.modify i fun p => { p with block := newBlock }) idx)
  | _, _ => none

/-- `replace_operand`: the old operand and the kind with the slot overwritten. -/
def replaceOperand (k : InstKind) (slot : OperandSlot) (newValue : ValueId) :
    Option (ValueId × InstKind) :=
  match k, slot with
  | binary op lhs rhs, .binaryLhs => some (lhs, binary op newValue rhs)
  | binary op lhs rhs, .binaryRhs => some (rhs, binary op lhs newValue)
  | call func args, .callArg i => do
      let old ← args[i]?
      some (old, call func (args.set i newValue))
  | branch thenBlock (some c), .branchCond =>
      some (c.cond, branch thenBlock (some { c with cond := newValue }))
  | getElementPtr baseTy base indices, .gepBase =>
      some (base, getElementPtr baseTy newValue indices)
  | getElementPtr baseTy base indices, .gepIndex i => do
      let old ← indices[i]?
      some (old, getElementPtr baseTy base (indices.set i newValue))
  | load ptr, .loadPtr => some (ptr, load newValue)
  | ret (some value), .retVal => some (value, ret (some newValue))
  | store value ptr, .storePtr => some (ptr, store value newValue)
  | store value ptr, .storeVal => some (value, store newValue ptr)
  | icmp op lhs rhs, .icmpLhs => some (lhs, icmp op newValue rhs)
  | icmp op lhs rhs, .icmpRhs => some (rhs, icmp op lhs newValue)
  | phi incomings idx, .phiIncomingVal i => do
      let old ← incomings.lookup i
      some (old.value, phi (incomings.modify i fun p => { p with value := newValue }) idx)
  | select cond thenVal elseVal, .selectCond => some (cond, select newValue thenVal elseVal)
  | select cond thenVal elseVal, .selectThenVal => some (thenVal, select cond newValue elseVal)
  | select cond thenVal elseVal, .selectElseVal => some (elseVal, select cond thenVal newValue)
  | ptrToInt ptr, .ptrToIntPtr => some (ptr, ptrToInt newValue)
  | trunc value, .truncVal => some (value, trunc newValue)
  | zext value, .zextVal => some (value, zext newValue)
  | sext value, .sextVal => some (value, sext newValue)
  | _, _ => none

end InstKind

/-! ## Constants and globals -/

/-- The kinds of constants. -/
inductive ConstKind where
  | int (value : CoreInt)
  | array (values : List ConstId)
  | struct (values : List ConstId)
  | string (value : String)
  | null
  | undef
  deriving DecidableEq, Repr

/-- The kinds of globals. -/
inductive GlobalKind where
  | function (func : FunctionId)
  | globalVariable (isConstant : Bool) (initializer : Option ConstId)
  deriving DecidableEq, Repr

end Ir
