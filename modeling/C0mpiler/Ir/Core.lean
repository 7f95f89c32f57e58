import C0mpiler.Data.SlotMap
import C0mpiler.Ir.CoreInst
import Mathlib

/-!
# The module and its edits

`ModuleCore` (`core.rs`): functions with their arguments, blocks and instructions, the globals
and the constants, and the reverse maps (`uses`) from every value and every block to the
operand slots it stands in. The edits below are the source's own, one definition each. An
assertion that fails, an `unwrap` of nothing or an index with a dead key is `none`; a
`debug_assert!` is left out, as in a release build, so that a result about a run that does not
panic covers both builds. Attributes, named structs and the target layout are not part of the
model: no modelled edit reads them.
-/

namespace Ir

/-- An entry of a value's use list: `user` has the value in `slot`. -/
structure Use where
  user : InstRef
  slot : OperandSlot
  deriving DecidableEq, Repr

/-- An entry of a block's use list: `user` has the block in `slot`. -/
structure BlockUse where
  user : InstRef
  slot : BlockOperandSlot
  deriving DecidableEq, Repr

/-- The type of a function: what it returns and what it takes. -/
structure FunctionType where
  returnType : Ty
  paramTypes : List Ty

/-- A block: its phis, its instructions in their order and its terminator, and the uses of it as an
operand. -/
structure BlockData where
  name : Option String
  phis : List InstId
  insts : List InstId
  terminator : Option InstId
  parent : FunctionId
  uses : List BlockUse

/-- An instruction of the arena. One without a parent is in the arena only. -/
structure InstData where
  parent : Option BlockRef
  ty : Ty
  kind : InstKind
  uses : List Use
  name : Option String

/-- An argument of a function. -/
structure ArgData where
  name : Option String
  ty : Ty
  parent : FunctionId
  uses : List Use

/-- A global: a function or a variable. -/
structure GlobalData where
  name : String
  ty : Ty
  kind : GlobalKind
  uses : List Use

/-- A constant. Two equal constants are two entries. -/
structure ConstData where
  ty : Ty
  kind : ConstKind
  uses : List Use

/-- A function with its arenas. `blockOrder` lists the blocks that are in the function; an erased
block stays in the arena. -/
structure FunctionData where
  name : String
  ty : FunctionType
  args : SlotMap ArgData
  blocks : SlotMap BlockData
  insts : SlotMap InstData
  blockOrder : List BlockId
  entry : BlockId
  isDeclare : Bool

/-- A module: the arenas of functions, globals and constants. -/
structure ModuleCore where
  functions : SlotMap FunctionData
  globals : SlotMap GlobalData
  consts : SlotMap ConstData
  functionGlobals : HashMap FunctionId GlobalId

namespace ModuleCore

/-- A module with nothing in it. -/
def new : ModuleCore := ⟨.empty, .empty, .empty, ∅⟩

/-! ## Reading -/

/-- A function by its key. -/
def func (m : ModuleCore) (f : FunctionId) : Option FunctionData := m.functions.get? f

/-- A block by its reference. -/
def block (m : ModuleCore) (b : BlockRef) : Option BlockData := do
  let fd ← m.func b.func
  fd.blocks.get? b.block

/-- An instruction by its reference, wherever it stands. -/
def inst (m : ModuleCore) (i : InstRef) : Option InstData := do
  let fd ← m.func i.func
  fd.insts.get? i.inst

/-- An argument by its reference. -/
def arg (m : ModuleCore) (a : ArgRef) : Option ArgData := do
  let fd ← m.func a.func
  fd.args.get? a.arg

/-- A global by its key. -/
def global (m : ModuleCore) (g : GlobalId) : Option GlobalData := m.globals.get? g

/-- A constant by its key. -/
def constData (m : ModuleCore) (c : ConstId) : Option ConstData := m.consts.get? c

/-- The arguments of a function, in the order in which they were appended. -/
def argsInOrder (m : ModuleCore) (f : FunctionId) : Option (List ArgRef) := do
  let fd ← m.func f
  some (fd.args.keys.map fun a => ⟨f, a⟩)

/-- The blocks of a function in their order, erased ones left out. -/
def blocksInOrder (m : ModuleCore) (f : FunctionId) : Option (List BlockRef) := do
  let fd ← m.func f
  some (fd.blockOrder.map fun b => ⟨f, b⟩)

/-- The phis of a block. -/
def phisInOrder (m : ModuleCore) (b : BlockRef) : Option (List InstRef) := do
  let bd ← m.block b
  some (bd.phis.map fun i => ⟨b.func, i⟩)

/-- The instructions of a block between its phis and its terminator. -/
def instsInOrder (m : ModuleCore) (b : BlockRef) : Option (List InstRef) := do
  let bd ← m.block b
  some (bd.insts.map fun i => ⟨b.func, i⟩)

/-- The terminator of a block, if it has one. -/
def terminator (m : ModuleCore) (b : BlockRef) : Option (Option InstRef) := do
  let bd ← m.block b
  some (bd.terminator.map fun i => ⟨b.func, i⟩)

/-- The type of a value. -/
def valueTy (m : ModuleCore) : ValueId → Option Ty
  | .inst r => (m.inst r).map InstData.ty
  | .arg a => (m.arg a).map ArgData.ty
  | .global g => (m.global g).map GlobalData.ty
  | .const c => (m.constData c).map ConstData.ty

/-- The use list of a value. -/
def valueUses (m : ModuleCore) : ValueId → Option (List Use)
  | .inst r => (m.inst r).map InstData.uses
  | .arg a => (m.arg a).map ArgData.uses
  | .global g => (m.global g).map GlobalData.uses
  | .const c => (m.constData c).map ConstData.uses

/-- The use list of a block. -/
def blockUses (m : ModuleCore) (b : BlockRef) : Option (List BlockUse) :=
  (m.block b).map BlockData.uses

/-! ## Writing one record -/

/-- Change a function that exists. -/
def updFunc (m : ModuleCore) (f : FunctionId) (g : FunctionData → FunctionData) : ModuleCore :=
  { m with functions := m.functions.modify f g }

/-- Change a block that exists. -/
def updBlock (m : ModuleCore) (b : BlockRef) (g : BlockData → BlockData) : ModuleCore :=
  m.updFunc b.func fun fd => { fd with blocks := fd.blocks.modify b.block g }

/-- Change an instruction that exists. -/
def updInst (m : ModuleCore) (i : InstRef) (g : InstData → InstData) : ModuleCore :=
  m.updFunc i.func fun fd => { fd with insts := fd.insts.modify i.inst g }

/-- Change an argument that exists. -/
def updArg (m : ModuleCore) (a : ArgRef) (g : ArgData → ArgData) : ModuleCore :=
  m.updFunc a.func fun fd => { fd with args := fd.args.modify a.arg g }

/-- Change a global that exists. -/
def updGlobal (m : ModuleCore) (c : GlobalId) (g : GlobalData → GlobalData) : ModuleCore :=
  { m with globals := m.globals.modify c g }

/-- Change a constant that exists. -/
def updConst (m : ModuleCore) (c : ConstId) (g : ConstData → ConstData) : ModuleCore :=
  { m with consts := m.consts.modify c g }

/-- Update through `value_uses_mut`, which panics on a dead value. -/
def updValueUses (m : ModuleCore) (v : ValueId) (g : List Use → List Use) : Option ModuleCore := do
  let _ ← m.valueUses v
  match v with
  | .inst r => some (m.updInst r fun d => { d with uses := g d.uses })
  | .arg a => some (m.updArg a fun d => { d with uses := g d.uses })
  | .global c => some (m.updGlobal c fun d => { d with uses := g d.uses })
  | .const c => some (m.updConst c fun d => { d with uses := g d.uses })

/-- Update through `block_uses_mut`, which panics on a dead block. -/
def updBlockUses (m : ModuleCore) (b : BlockRef) (g : List BlockUse → List BlockUse) :
    Option ModuleCore := do
  let _ ← m.blockUses b
  some (m.updBlock b fun d => { d with uses := g d.uses })

/-! ## Creating -/

/-- Add a function with no block yet. -/
def defineFunction (m : ModuleCore) (name : String) (ty : FunctionType) :
    FunctionId × ModuleCore :=
  (m.functions.next,
    { m with functions := m.functions.insert ⟨name, ty, .empty, .empty, .empty, [], 0, false⟩ })

/-- Add a function that is declared only. -/
def declareFunction (m : ModuleCore) (name : String) (ty : FunctionType) :
    FunctionId × ModuleCore :=
  (m.functions.next,
    { m with functions := m.functions.insert ⟨name, ty, .empty, .empty, .empty, [], 0, true⟩ })

/-- Add an empty block at the end of the function. -/
def appendBlock (m : ModuleCore) (f : FunctionId) (name : Option String) :
    Option (BlockRef × ModuleCore) := do
  let fd ← m.func f
  let b := fd.blocks.next
  some (⟨f, b⟩, m.updFunc f fun fd =>
    { fd with
      blocks := fd.blocks.insert ⟨name, [], [], none, f, []⟩
      blockOrder := fd.blockOrder ++ [b] })

/-- Add a function with its entry block. -/
def createFunction (m : ModuleCore) (name : String) (ty : FunctionType) :
    Option (FunctionId × ModuleCore) := do
  let (f, m) := m.defineFunction name ty
  let (entry, m) ← m.appendBlock f (some "entry")
  some (f, m.updFunc f fun fd => { fd with entry := entry.block })

/-- Add an argument at the end of the arguments. -/
def appendArg (m : ModuleCore) (f : FunctionId) (ty : Ty) (name : Option String) :
    Option (ArgRef × ModuleCore) := do
  let fd ← m.func f
  some (⟨f, fd.args.next⟩, m.updFunc f fun fd =>
    { fd with args := fd.args.insert ⟨name, ty, f, []⟩ })

/-- Add a global; the one of a function is noted under the function's key. -/
def addGlobal (m : ModuleCore) (name : String) (ty : Ty) (kind : GlobalKind) :
    GlobalId × ModuleCore :=
  let g := m.globals.next
  let m := { m with globals := m.globals.insert ⟨name, ty, kind, []⟩ }
  match kind with
  | .function f => (g, { m with functionGlobals := m.functionGlobals.insert f g })
  | .globalVariable _ _ => (g, m)

/-- Add a constant. -/
def addConst (m : ModuleCore) (ty : Ty) (kind : ConstKind) : ConstId × ModuleCore :=
  (m.consts.next, { m with consts := m.consts.insert ⟨ty, kind, []⟩ })

/-- Add an undefined value of a type. -/
def addUndefConst (m : ModuleCore) (ty : Ty) : ConstId × ModuleCore :=
  m.addConst ty ConstKind.undef

/-- Make an instruction that stands in no block. -/
def newInst (m : ModuleCore) (f : FunctionId) (ty : Ty) (kind : InstKind) (name : Option String) :
    Option (InstRef × ModuleCore) := do
  let fd ← m.func f
  some (⟨f, fd.insts.next⟩, m.updFunc f fun fd =>
    { fd with insts := fd.insts.insert ⟨none, ty, kind, [], name⟩ })

/-! ## Use lists -/

/-- Enter the operands of an instruction into the use lists of what they name. -/
def registerInstUse (m : ModuleCore) (user : InstRef) : Option ModuleCore := do
  let d ← m.inst user
  let m ← d.kind.valueOperands.foldlM
    (fun m (op : ValueId × OperandSlot) => m.updValueUses op.1 (· ++ [⟨user, op.2⟩])) m
  d.kind.blockOperands.foldlM
    (fun m (op : BlockId × BlockOperandSlot) =>
      m.updBlockUses ⟨user.func, op.1⟩ (· ++ [⟨user, op.2⟩])) m

/-- Each operand slot removes the first entry that names it. -/
def unregisterInstUse (m : ModuleCore) (user : InstRef) : Option ModuleCore := do
  let d ← m.inst user
  let m ← d.kind.valueOperands.foldlM
    (fun m (op : ValueId × OperandSlot) => m.updValueUses op.1 (·.erase ⟨user, op.2⟩)) m
  d.kind.blockOperands.foldlM
    (fun m (op : BlockId × BlockOperandSlot) =>
      m.updBlockUses ⟨user.func, op.1⟩ (·.erase ⟨user, op.2⟩)) m

/-! ## Inserting -/

/-- An instruction can be inserted if it is of the function of the block and stands nowhere yet. -/
def assertCanInsert (m : ModuleCore) (block : BlockRef) (inst : InstRef) : Option InstData := do
  guard (block.func = inst.func)
  let d ← m.inst inst
  guard d.parent.isNone
  some d

/-- `parent = Some(block)` followed by the registration of the operands: the common end of
every insertion. -/
def attachInst (m : ModuleCore) (block : BlockRef) (inst : InstRef) : Option ModuleCore :=
  (m.updInst inst fun d => { d with parent := some block }).registerInstUse inst

/-- Insert at the end of the instructions of the block. Phis and terminators have places of their
own. -/
def appendInst (m : ModuleCore) (block : BlockRef) (inst : InstRef) : Option ModuleCore := do
  let d ← m.assertCanInsert block inst
  guard (!d.kind.isPhi && !d.kind.isTerminator)
  let _ ← m.block block
  (m.updBlock block fun b => { b with insts := b.insts ++ [inst.inst] }).attachInst block inst

/-- Insert before the instructions of the block. -/
def pushFrontInst (m : ModuleCore) (block : BlockRef) (inst : InstRef) : Option ModuleCore := do
  let d ← m.assertCanInsert block inst
  guard (!d.kind.isPhi && !d.kind.isTerminator)
  let _ ← m.block block
  (m.updBlock block fun b => { b with insts := inst.inst :: b.insts }).attachInst block inst

/-- Where an instruction stands in its block. -/
inductive InstPosition where
  | phi (pos : Nat)
  | inst (pos : Nat)
  | terminator
  deriving DecidableEq, Repr

/-- Find an instruction in its block. -/
def locateInst (m : ModuleCore) (i : InstRef) : Option InstPosition := do
  let d ← m.inst i
  let parent ← d.parent
  let b ← m.block parent
  match b.insts.findIdx? (· == i.inst) with
  | some pos => some (.inst pos)
  | none =>
    match b.phis.findIdx? (· == i.inst) with
    | some pos => some (.phi pos)
    | none => if b.terminator = some i.inst then some .terminator else none

/-- Insert before an instruction that stands in a block; before a terminator means at the end. -/
def insertBefore (m : ModuleCore) (anchor inst : InstRef) : Option ModuleCore := do
  let parent ← (← m.inst anchor).parent
  let _ ← m.assertCanInsert parent inst
  match ← m.locateInst anchor with
  | .phi i =>
    (m.updBlock parent fun b => { b with phis := b.phis.insertIdx i inst.inst }).attachInst parent inst
  | .inst i =>
    (m.updBlock parent fun b => { b with insts := b.insts.insertIdx i inst.inst }).attachInst parent inst
  | .terminator =>
    (m.updBlock parent fun b => { b with insts := b.insts ++ [inst.inst] }).attachInst parent inst

/-- Insert after an instruction that stands in a block; nothing can come after a terminator. -/
def insertAfter (m : ModuleCore) (anchor inst : InstRef) : Option ModuleCore := do
  let parent ← (← m.inst anchor).parent
  let _ ← m.assertCanInsert parent inst
  match ← m.locateInst anchor with
  | .phi i =>
    (m.updBlock parent fun b => { b with phis := b.phis.insertIdx (i + 1) inst.inst }).attachInst
      parent inst
  | .inst i =>
    (m.updBlock parent fun b => { b with insts := b.insts.insertIdx (i + 1) inst.inst }).attachInst
      parent inst
  | .terminator => none

/-- Insert a phi at the end of the phis of the block. -/
def appendPhi (m : ModuleCore) (block : BlockRef) (inst : InstRef) : Option ModuleCore := do
  let d ← m.assertCanInsert block inst
  guard d.kind.isPhi
  let _ ← m.block block
  (m.updBlock block fun b => { b with phis := b.phis ++ [inst.inst] }).attachInst block inst

/-- Set the terminator of a block that has none. -/
def setTerminator (m : ModuleCore) (block : BlockRef) (inst : InstRef) : Option ModuleCore := do
  let d ← m.assertCanInsert block inst
  guard d.kind.isTerminator
  let b ← m.block block
  guard b.terminator.isNone
  (m.updBlock block fun b => { b with terminator := some inst.inst }).attachInst block inst

/-- `append_to_block`: the insertion that fits the kind of the instruction. -/
def appendToBlock (m : ModuleCore) (block : BlockRef) (inst : InstRef) : Option ModuleCore := do
  let d ← m.inst inst
  guard d.parent.isNone
  guard (block.func = inst.func)
  let b ← m.block block
  guard b.terminator.isNone
  if d.kind.isPhi then do
    guard b.insts.isEmpty
    m.appendPhi block inst
  else if d.kind.isTerminator then m.setTerminator block inst
  else m.appendInst block inst

/-! ## Replacing operands -/

/-- Put a value into an operand slot, and move the use from the old value to the new one. -/
def replaceInstOperand (m : ModuleCore) (inst : InstRef) (slot : OperandSlot) (newValue : ValueId) :
    Option ModuleCore := do
  let d ← m.inst inst
  let (oldValue, kind) ← d.kind.replaceOperand slot newValue
  let m := m.updInst inst fun d => { d with kind := kind }
  let m ← m.updValueUses oldValue (·.filter fun u => u ≠ ⟨inst, slot⟩)
  m.updValueUses newValue (· ++ [⟨inst, slot⟩])

/-- Replace a value by another in every use of it. -/
def replaceAllUsesWith (m : ModuleCore) (old new : ValueId) : Option ModuleCore := do
  guard (old ≠ new)
  let uses ← m.valueUses old
  uses.foldlM (fun m u => m.replaceInstOperand u.user u.slot new) m

/-- Put a block into a block operand slot, and move the use. -/
def replaceBlockOperand (m : ModuleCore) (inst : InstRef) (slot : BlockOperandSlot)
    (newBlock : BlockRef) : Option ModuleCore := do
  guard (inst.func = newBlock.func)
  let d ← m.inst inst
  let (oldBlock, kind) ← d.kind.replaceBlockOperand slot newBlock.block
  let m := m.updInst inst fun d => { d with kind := kind }
  let m ← m.updBlockUses ⟨inst.func, oldBlock⟩ (·.filter fun u => u ≠ ⟨inst, slot⟩)
  m.updBlockUses newBlock (· ++ [⟨inst, slot⟩])

/-- Replace a block by another in every use of it. -/
def replaceAllBlockUsesWith (m : ModuleCore) (old new : BlockRef) : Option ModuleCore := do
  guard (old ≠ new)
  let uses ← m.blockUses old
  uses.foldlM (fun m u => m.replaceBlockOperand u.user u.slot new) m

/-- Add an incoming to a phi, under the next index of the phi. -/
def phiAddIncoming (m : ModuleCore) (phi : InstRef) (block : BlockRef) (value : ValueId) :
    Option ModuleCore := do
  guard (phi.func = block.func)
  let d ← m.inst phi
  let (incomings, idx) ← d.kind.asPhi
  let m := m.updInst phi fun d =>
    { d with kind := .phi (incomings.insert idx ⟨block.block, value⟩) (idx + 1) }
  let m ← m.updValueUses value (· ++ [⟨phi, .phiIncomingVal idx⟩])
  m.updBlockUses block (· ++ [⟨phi, .phiIncomingBlock idx⟩])

/-- Remove the incoming with an index from a phi. -/
def phiRemoveIncomingFrom (m : ModuleCore) (phi : InstRef) (incomingIndex : Nat) :
    Option ModuleCore := do
  let d ← m.inst phi
  let (incomings, idx) ← d.kind.asPhi
  let incoming ← incomings.lookup incomingIndex
  let m := m.updInst phi fun d => { d with kind := .phi (incomings.erase incomingIndex) idx }
  let m ← m.updValueUses incoming.value
    (·.filter fun u => u ≠ ⟨phi, .phiIncomingVal incomingIndex⟩)
  m.updBlockUses ⟨phi.func, incoming.block⟩
    (·.filter fun u => u ≠ ⟨phi, .phiIncomingBlock incomingIndex⟩)

/-! ## Detaching and erasing -/

/-- Take an instruction out of its block and out of the use lists of its operands. -/
def detachInst (m : ModuleCore) (inst : InstRef) : Option ModuleCore := do
  let m ← m.unregisterInstUse inst
  let d ← m.inst inst
  match d.parent with
  | none => some m
  | some parent =>
    let m ← match ← m.locateInst inst with
      | .inst pos => some (m.updBlock parent fun b => { b with insts := b.insts.eraseIdx pos })
      | .phi pos => some (m.updBlock parent fun b => { b with phis := b.phis.eraseIdx pos })
      | .terminator => some (m.updBlock parent fun b => { b with terminator := none })
    some (m.updInst inst fun d => { d with parent := none })

/-- Detach an instruction that nothing uses and remove it from the arena. -/
def eraseInstFromParent (m : ModuleCore) (inst : InstRef) : Option ModuleCore := do
  let uses ← m.valueUses (.inst inst)
  guard uses.isEmpty
  let m ← m.detachInst inst
  some (m.updFunc inst.func fun fd => { fd with insts := fd.insts.remove inst.inst })

/-- As `erase_inst_from_parent`, after every use has been replaced by an undefined value. -/
def eraseInstFromParentForcely (m : ModuleCore) (inst : InstRef) : Option ModuleCore := do
  let uses ← m.valueUses (.inst inst)
  let m ← uses.foldlM (fun m (u : Use) => do
    let ty ← m.valueTy (.inst inst)
    let (undef, m) := m.addUndefConst ty
    m.replaceInstOperand u.user u.slot (.const undef)) m
  m.eraseInstFromParent inst

/-- The instructions of one dying block: phis, then instructions, then the terminator. -/
def eraseBlockInsts (m : ModuleCore) (block : BlockRef) : Option ModuleCore := do
  let m ← (← m.phisInOrder block).foldlM eraseInstFromParentForcely m
  let m ← (← m.instsInOrder block).foldlM eraseInstFromParentForcely m
  match ← m.terminator block with
  | some term => m.eraseInstFromParentForcely term
  | none => some m

/-- The phis that still name a dying block lose that incoming; any other use is a panic. -/
def eraseBlockUses (m : ModuleCore) (block : BlockRef) : Option ModuleCore := do
  let m ← (← m.blockUses block).foldlM (fun m (u : BlockUse) =>
    match u.slot with
    | .phiIncomingBlock idx => m.phiRemoveIncomingFrom u.user idx
    | _ => none) m
  some (m.updFunc block.func fun fd => { fd with blocks := fd.blocks.remove block.block })

/-- Erase blocks: first their instructions, then what is left of the uses of them, then their places
in the order. -/
def eraseBlocksFromParent (m : ModuleCore) (blocks : List BlockRef) : Option ModuleCore := do
  let m ← blocks.foldlM eraseBlockInsts m
  let m ← blocks.foldlM eraseBlockUses m
  some (blocks.foldl (fun m b => m.updFunc b.func fun fd =>
    { fd with blockOrder := fd.blockOrder.filter (· ≠ b.block) }) m)

/-! ## Replacing an instruction -/

/-- The new instruction takes the place of the old one in its block. The operands of the new
instruction are not registered. -/
def replaceInst (m : ModuleCore) (old new : InstRef) : Option ModuleCore := do
  guard (old.func = new.func)
  let oldData ← m.inst old
  let parent ← oldData.parent
  let newData ← m.inst new
  guard newData.parent.isNone
  guard (oldData.ty = newData.ty)
  let m ← match ← m.locateInst old with
    | .inst pos => do
      guard (!newData.kind.isPhi && !newData.kind.isTerminator)
      some (m.updBlock parent fun b => { b with insts := b.insts.set pos new.inst })
    | .phi pos => do
      guard newData.kind.isPhi
      some (m.updBlock parent fun b => { b with phis := b.phis.set pos new.inst })
    | .terminator => do
      guard newData.kind.isTerminator
      some (m.updBlock parent fun b => { b with terminator := some new.inst })
  let m := m.updInst new fun d => { d with parent := some parent }
  let m := m.updInst old fun d => { d with parent := none }
  m.replaceAllUsesWith (.inst old) (.inst new)

/-- Replace an instruction by another one and erase it. -/
def overwriteInst (m : ModuleCore) (old new : InstRef) : Option ModuleCore := do
  let m ← m.replaceInst old new
  m.eraseInstFromParent old

/-! ## Successors -/

/-- The targets of a terminator, the else target of a conditional branch first. -/
def successors (m : ModuleCore) (i : InstRef) : Option (List BlockRef) := do
  let d ← m.inst i
  match d.kind with
  | .branch thenBlock (some c) => some [⟨i.func, c.elseBlock⟩, ⟨i.func, thenBlock⟩]
  | .branch thenBlock none => some [⟨i.func, thenBlock⟩]
  | _ => some []

/-- The blocks that the terminator of a block names; a block without a terminator has none. -/
def blockSuccessors (m : ModuleCore) (b : BlockRef) : Option (List BlockRef) := do
  match ← m.terminator b with
  | some term => m.successors term
  | none => some []

end ModuleCore

end Ir
