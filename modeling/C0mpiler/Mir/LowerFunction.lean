import C0mpiler.Mir.Lower
import Mathlib

/-!
# Lowering functions: blocks, phis and branches

`lower_function` up to register allocation, with `lower/phi.rs`: the machine blocks, the registers
of the phis, of the arguments and of the other values, and the code of the branches, which copies
the incoming values of the target's phis at the end of the block or in a transit block of its own.

The code of the remaining instructions is a parameter (`OtherLowering`): whatever they emit, the
lowering of such an instruction allocates virtual registers and stack slots and does not touch the
blocks.
-/

namespace Mir

open Ir (ModuleCore ValueId BlockRef InstRef ArgRef FunctionId ConstKind InstKind ICmpCode CondBranch)

variable {R I : Type} [DecidableEq R] [EmitTarget R I]

/-! ## Machine functions under construction -/

namespace MachineFunction

/-- `get_block_mut(id).unwrap()` with the instructions appended to it. -/
def extendBlock (F : MachineFunction R I) (id : BlockId) (insts : List I) :
    Option (MachineFunction R I) := do
  let k ← F.blocks.findIdx? (·.id = id)
  some { F with
    blocks := F.blocks.modify k fun b => { b with instructions := b.instructions ++ insts } }

/-- Append a block. -/
def pushBlock (F : MachineFunction R I) (b : MachineBlock I) : MachineFunction R I :=
  { F with blocks := F.blocks ++ [b] }

/-- `get_block`. -/
def getBlock (F : MachineFunction R I) (id : BlockId) : Option (MachineBlock I) :=
  F.blocks.find? (·.id = id)

end MachineFunction

/-! ## Phis -/

namespace PhiInfo

/-- `filter_pred`: the value that comes from a block. -/
def filterPred (info : PhiInfo) (pred : BlockId) : Option ValueId :=
  info.incomings.findSome? fun incoming =>
    if incoming.pred = pred then some incoming.value else none

end PhiInfo

section Model

variable (m : ModuleCore) (symbols : HashMap String SymbolId)
  (order : KeyOrder (Register R) (List (Register R)))

/-- The incoming values of a phi of a function, with the machine blocks they come from. -/
def collectIncomings (S : FunctionLoweringState) (phi : InstRef) : Option (List PhiIncoming) := do
  let d ← m.inst phi
  let (incomings, _) ← d.kind.asPhi
  incomings.entries.mapM fun e => do
    let pred ← S.blockId ⟨phi.func, e.2.block⟩
    some ⟨pred, e.2.value⟩

/-- One phi: its register, its incoming values, and the state and the counter behind it. -/
def collectPhi (st : List PhiInfo × FunctionLoweringState × Nat) (phi : InstRef) :
    Option (List PhiInfo × FunctionLoweringState × Nat) := do
  let (infos, S, vregCounter) := st
  let incomings ← collectIncomings m S phi
  some (infos ++ [⟨vregCounter, incomings⟩], S.recordVreg (.inst phi) vregCounter, vregCounter + 1)

/-- `collect_phis` for one block. -/
def collectBlockPhis (st : FunctionLoweringState × Nat) (block : BlockRef) :
    Option (FunctionLoweringState × Nat) := do
  let blockId ← st.1.blockId block
  let phis ← m.phisInOrder block
  let (infos, S, vregCounter) ← phis.foldlM (collectPhi m) ([], st)
  some ({ S with phiInfos := S.phiInfos.insert blockId infos }, vregCounter)

/-- `collect_phis`, in the order of the blocks. -/
def collectPhis (st : FunctionLoweringState × Nat) : Option (FunctionLoweringState × Nat) :=
  st.1.blockOrder.foldlM (collectBlockPhis m) st

/-! ## Branches -/

/-- `icmp_is_only_branch_cond`. -/
def icmpIsOnlyBranchCond (inst : InstRef) : Option Bool := do
  let uses ← m.valueUses (.inst inst)
  some (uses.all (·.slot = .branchCond))

/-- `branch_cond_icmp`: a comparison whose only use is the branch. -/
def branchCondIcmp (value : ValueId) : Option (Option (ICmpCode × ValueId × ValueId)) :=
  match value with
  | .inst inst => do
    if ← icmpIsOnlyBranchCond m inst then
      let d ← m.inst inst
      match d.kind with
      | .icmp op lhs rhs => some (some (op, lhs, rhs))
      | _ => some none
    else some none
  | _ => some none

/-- `emit_icmp_branch`. -/
def emitIcmpBranch (icmpCode : ICmpCode) (rs1 rs2 : Register R) (label : BlockId) : I :=
  match icmpCode with
  | .eq => emitBranchEq rs1 rs2 label
  | .ne => emitBranchNe rs1 rs2 label
  | .ugt => emitBranchLtu rs2 rs1 label
  | .uge => emitBranchGeu rs1 rs2 label
  | .ult => emitBranchLtu rs1 rs2 label
  | .ule => emitBranchGeu rs2 rs1 label
  | .sgt => emitBranchLt rs2 rs1 label
  | .sge => emitBranchGe rs1 rs2 label
  | .slt => emitBranchLt rs1 rs2 label
  | .sle => emitBranchGe rs2 rs1 label

/-- `icmp_operands_are_signed`. -/
def icmpOperandsAreSigned : ICmpCode → Bool
  | .sgt | .sge | .slt | .sle => true
  | _ => false

/-- An operand of a comparison, normalised where it is an integer. -/
def normalizeIcmpOperand (icmpCode : ICmpCode) (value : ValueId) (rs : Register R)
    (e : Emitter I) : Option (Register R × Emitter I) := do
  match ← intBitsForValue m value with
  | some bits => emitNormalizedIntOperand m value rs bits (icmpOperandsAreSigned icmpCode) e
  | none => some (rs, e)

/-- `lower_icmp_operands`. -/
def lowerIcmpOperands (S : FunctionLoweringState) (lhs rhs : ValueId) (icmpCode : ICmpCode)
    (e : Emitter I) : Option (Register R × Register R × Emitter I) := do
  let (rs1, e) ← lowerOperand m symbols S lhs e
  let (rs2, e) ← lowerOperand m symbols S rhs e
  let (rs1, e) ← normalizeIcmpOperand m icmpCode lhs rs1 e
  let (rs2, e) ← normalizeIcmpOperand m icmpCode rhs rs2 e
  some (rs1, rs2, e)

/-- The copies an edge from `blockId` to `target` has to make. -/
def edgePhis (S : FunctionLoweringState) (blockId target : BlockId) : List (VRegId × ValueId) :=
  ((S.phiInfos.lookup target).getD []).filterMap fun info =>
    (info.filterPred blockId).map fun value => (info.dst, value)

/-- The copies of an unconditional branch. -/
def copyPhis (S : FunctionLoweringState) (phis : List (VRegId × ValueId)) (e : Emitter I) :
    Option (Emitter I) :=
  if phis.isEmpty then some e else parallelCopy m symbols S order phis e

/-- `add_transit_block`: the copies of an edge in a block of their own. -/
def addTransitBlock (S : FunctionLoweringState) (target : BlockId)
    (phis : List (VRegId × ValueId)) (F : MachineFunction R I) :
    Option (BlockId × MachineFunction R I) := do
  let transit := F.blocks.length
  let e ← parallelCopy m symbols S order phis ⟨[], F.vregCounter⟩
  let block := ⟨transit, e.out ++ [emitJump target]⟩
  some (transit, { F with vregCounter := e.vregCounter }.pushBlock block)

/-- The block a conditional branch goes to for an edge: the target itself, or a transit block if
there are phis to copy. -/
def edgeBlock (S : FunctionLoweringState) (blockId target : BlockId) (F : MachineFunction R I) :
    Option (BlockId × MachineFunction R I) :=
  let phis := edgePhis S blockId target
  if phis.isEmpty then some (target, F) else addTransitBlock m symbols order S target phis F

/-- The test of a conditional branch and the branch to `label`. -/
def lowerTest (S : FunctionLoweringState) (cond : ValueId) (label : BlockId) (e : Emitter I) :
    Option (Emitter I) := do
  match ← branchCondIcmp m cond with
  | some (icmpCode, lhs, rhs) =>
    let (rs1, rs2, e) ← lowerIcmpOperands m symbols S lhs rhs icmpCode e
    some (e.push (emitIcmpBranch icmpCode rs1 rs2 label))
  | none =>
    let (cond, e) ← lowerOperand m symbols S cond e
    some (e.push (emitBranchNe cond (zeroOperand I) label))

/-- `lower_instruction` for a branch of the block `block`, lowered to `blockId`. -/
def lowerBranch (S : FunctionLoweringState) (block : BlockRef) (blockId : BlockId)
    (thenBlock : Ir.BlockId) (cond : Option CondBranch) (F : MachineFunction R I) :
    Option (List I × MachineFunction R I) :=
  match cond with
  | some c => do
    let trueId ← S.blockId ⟨block.func, thenBlock⟩
    let falseId ← S.blockId ⟨block.func, c.elseBlock⟩
    let (trueId, F) ← edgeBlock m symbols order S blockId trueId F
    let (falseId, F) ← edgeBlock m symbols order S blockId falseId F
    let e ← lowerTest m symbols S c.cond trueId ⟨[], F.vregCounter⟩
    some (e.out ++ [emitJump falseId], { F with vregCounter := e.vregCounter })
  | none => do
    let target ← S.blockId ⟨block.func, thenBlock⟩
    let e ← copyPhis m symbols order S (edgePhis S blockId target) ⟨[], F.vregCounter⟩
    some (e.out ++ [emitJump target], { F with vregCounter := e.vregCounter })

/-! ## Functions -/

/-- What the lowering of another instruction emits and allocates. -/
structure OtherCode (R I : Type) where
  insts : List I
  newVregs : Nat
  frameInfo : FrameInfo R

/-- The lowering of the other instructions. -/
abbrev OtherLowering (R I : Type) :=
  FunctionLoweringState → InstRef → Nat → FrameInfo R → Option (OtherCode R I)

variable (others : OtherLowering R I)

/-- `lower_instruction`: a phi emits nothing, a branch does its copies. -/
def lowerInstruction (S : FunctionLoweringState) (block : BlockRef) (blockId : BlockId)
    (inst : InstRef) (F : MachineFunction R I) : Option (List I × MachineFunction R I) := do
  let d ← m.inst inst
  match d.kind with
  | .branch thenBlock cond => lowerBranch m symbols order S block blockId thenBlock cond F
  | .phi _ _ => do
    guard (S.vregForValue (.inst inst)).isSome
    some ([], F)
  | _ => do
    let code ← others S inst F.vregCounter F.frameInfo
    some (code.insts,
      { F with vregCounter := F.vregCounter + code.newVregs, frameInfo := code.frameInfo })

/-- One instruction, with its code appended to the block. -/
def lowerInto (S : FunctionLoweringState) (block : BlockRef) (blockId : BlockId)
    (F : MachineFunction R I) (inst : InstRef) : Option (MachineFunction R I) := do
  let (insts, F) ← lowerInstruction m symbols order others S block blockId inst F
  F.extendBlock blockId insts

/-- `lower_block`. -/
def lowerBlock (S : FunctionLoweringState) (F : MachineFunction R I) (block : BlockRef) :
    Option (MachineFunction R I) := do
  let blockId ← S.blockId block
  let phis ← m.phisInOrder block
  let F ← phis.foldlM (lowerInto m symbols order others S block blockId) F
  let insts ← m.instsInOrder block
  let F ← insts.foldlM (lowerInto m symbols order others S block blockId) F
  match ← m.terminator block with
  | some inst => lowerInto m symbols order others S block blockId F inst
  | none => some F

/-- `initialize_blocks`, in a function that is still empty. -/
def initializeBlocks (blocks : List BlockRef) (F : MachineFunction R I) :
    FunctionLoweringState × MachineFunction R I :=
  blocks.zipIdx.foldl (fun st b => (st.1.recordBlock b.1 b.2, st.2.pushBlock ⟨b.2, []⟩))
    (.new, F)

/-- The instruction that fetches an argument. -/
def argInst (index : Nat) (rd : Register R) : I :=
  if index < EmitTarget.numArgRegs I then mv rd (.physical (EmitTarget.argReg I index))
  else emitLoadIncomingArg rd (EmitTarget.stackArgOffset I (index - EmitTarget.numArgRegs I))

/-- The register of an argument. -/
def recordArg (st : FunctionLoweringState × Emitter I) (param : ArgRef × Nat) :
    FunctionLoweringState × Emitter I :=
  let vreg := st.2.vregCounter
  (st.1.recordVreg (.arg param.1) vreg, st.2.newVreg.push (argInst param.2 (.virtual vreg)))

/-- `initialize_func_arguments`. -/
def initializeFuncArguments (f : FunctionId) (S : FunctionLoweringState)
    (F : MachineFunction R I) : Option (FunctionLoweringState × MachineFunction R I) := do
  let params ← m.argsInOrder f
  let (S, e) := params.zipIdx.foldl recordArg (S, (⟨[], F.vregCounter⟩ : Emitter I))
  let F ← { F with vregCounter := e.vregCounter }.extendBlock F.entry e.out
  some (S, F)

/-- `ensure_inst_vreg`, for an instruction that has a value. -/
def collectInst (st : FunctionLoweringState × Nat) (inst : InstRef) :
    Option (FunctionLoweringState × Nat) := do
  let ty ← m.valueTy (.inst inst)
  if ty.isVoid then some st
  else match st.1.vregForValue (.inst inst) with
    | some _ => some st
    | none => some (st.1.recordVreg (.inst inst) st.2, st.2 + 1)

/-- `collect_value` for one block. -/
def collectValue (st : FunctionLoweringState × Nat) (block : BlockRef) :
    Option (FunctionLoweringState × Nat) := do
  let phis ← m.phisInOrder block
  let st ← phis.foldlM (collectInst m) st
  let insts ← m.instsInOrder block
  let st ← insts.foldlM (collectInst m) st
  match ← m.terminator block with
  | some inst => collectInst m st inst
  | none => some st

/-- The entry of a function that has a body. -/
def entryBlock (f : FunctionId) : Option BlockRef := do
  let fd ← m.func f
  if fd.isDeclare then none else some ⟨f, fd.entry⟩

/-- `empty_machine_function`. -/
def emptyMachineFunction : MachineFunction R I where
  blocks := []
  vregCounter := 0
  entry := 0
  frameInfo := ⟨[], 1, [], false⟩

/-- `lower_function` as far as the lowering of the blocks: the registers of the values and the
code. -/
def lowerFunction (f : FunctionId) : Option (FunctionLoweringState × MachineFunction R I) := do
  let blocks ← m.blocksInOrder f
  let entry ← entryBlock m f
  let (S, F) := initializeBlocks blocks (emptyMachineFunction : MachineFunction R I)
  let (S, vregCounter) ← collectPhis m (S, F.vregCounter)
  let (S, F) ← initializeFuncArguments m f S { F with vregCounter }
  let entryId ← S.blockId entry
  let (S, vregCounter) ← blocks.foldlM (collectValue m) (S, F.vregCounter)
  let F ← blocks.foldlM (lowerBlock m symbols order others S)
    { F with entry := entryId, vregCounter }
  some (S, F)

end Model

end Mir
