import C0mpiler.Data.WordMemory
import C0mpiler.Mir.FrameLayout
import Mathlib

/-!
# Prologues, epilogues and frame accesses

`insert_logue` (`lower/logue.rs`) and `expand_pseudo` of both targets, which have the same text for
their words. The prologue moves the stack pointer and stores the registers that have slots; in front
of each return the epilogue loads them again and moves the stack pointer back.
-/

namespace Mir

/-! ## What is emitted -/

section Emit

variable {R I : Type} {w : Nat} [FrameTarget R w I]

/-- The stack pointer, as an operand. -/
abbrev spOperand (I : Type) [FrameTarget R w I] : Register R :=
  .physical (spReg I)

/-- `emit_adjust_sp`. -/
def emitAdjustSp (offset : Int) : List I :=
  if offset = 0 then []
  else if FitsImm12 offset then [emitAddi (spOperand I) (spOperand I) (asI32 offset)]
  else
    [loadImm (.physical (scratchReg I)) (asI32 offset),
      emitAdd (spOperand I) (spOperand I) (.physical (scratchReg I))]

/-- The load of the word at an offset from the stack pointer. -/
def loadAt (rd : Register R) (offset : Int) : List I :=
  if FitsImm12 offset then [emitLoadWord rd (spOperand I) (asI32 offset)]
  else [loadImm rd (asI32 offset), emitAdd rd (spOperand I) rd, emitLoadWord rd rd 0]

/-- The store to the word at an offset from the stack pointer. -/
def storeAt (rs : Register R) (offset : Int) (rt : Register R) : List I :=
  if FitsImm12 offset then [emitStoreWord (spOperand I) rs (asI32 offset)]
  else [loadImm rt (asI32 offset), emitAdd rt (spOperand I) rt, emitStoreWord rt rs 0]

/-- The address at an offset from the stack pointer. -/
def addrAt (rd : Register R) (offset : Int) : List I :=
  if FitsImm12 offset then [emitAddi rd (spOperand I) (asI32 offset)]
  else [loadImm rd (asI32 offset), emitAdd rd (spOperand I) rd]

/-- `expand_pseudo`. -/
def expandPseudo (layout : FrameLayout R) (inst : I) : Option (List I) :=
  match framePseudo inst with
  | some (.loadStack rd slot) => do
    let offset ← layout.slotOffsets.lookup slot
    some (loadAt rd offset)
  | some (.saveStack rs slot rt) => do
    let offset ← layout.slotOffsets.lookup slot
    some (storeAt rs offset rt)
  | some (.storeOutgoingArg rs offset rt) =>
    some (storeAt rs (asI32 (asI32 layout.outgoingArgOffset + offset)) rt)
  | some (.loadIncomingArg rd offset) =>
    some (loadAt rd (asI32 (asI32 layout.incomingArgOffset + offset)))
  | some (.getStackAddr rd slot) => do
    let offset ← layout.slotOffsets.lookup slot
    some (addrAt rd (asI32 offset))
  | none => some [inst]

end Emit

namespace FramedFunction

variable {R I : Type} {w : Nat} [DecidableEq R] [Ord R] [FrameTarget R w I]
  (f : FramedFunction R I)

/-- The prologue. -/
def prologueInsts (saved : List (R × StackSlotId)) : List I :=
  emitAdjustSp (-f.frameLayout.frameSize) ++ saved.map fun p =>
    emitStoreStackSlot (.physical p.1) p.2 (.physical (scratchReg I))

/-- The pieces of the epilogue are collected in the order of the prologue and reversed. -/
def epilogueInsts (saved : List (R × StackSlotId)) : List I :=
  (emitAdjustSp (f.frameLayout.frameSize : Int) ::
    saved.map fun p => [emitLoadStackSlot (.physical p.1) p.2]).reverse.flatten

/-- The first block with this id is changed, as `get_block_mut` finds it. -/
def modifyBlock (id : BlockId) (g : List I → List I) :
    List (MachineBlock I) → Option (List (MachineBlock I))
  | [] => none
  | block :: blocks =>
    if block.id = id then some ({ block with instructions := g block.instructions } :: blocks)
    else (modifyBlock id g blocks).map (block :: ·)

/-- The epilogue in front of each return. -/
def withEpilogue (epilogue insts : List I) : List I :=
  insts.flatMap fun inst => if LoweringTarget.isRet inst then epilogue ++ [inst] else [inst]

/-- `insert_logue`. -/
def insertLogue : Option (FramedFunction R I) := do
  let saved ← f.saves
  let blocks ← modifyBlock f.entry (f.prologueInsts saved ++ ·) f.blocks
  some { f with
    blocks := blocks.map fun block =>
      { block with instructions := withEpilogue (f.epilogueInsts saved) block.instructions } }

/-- `expand_pseudo_instructions`. -/
def expandPseudoInstructions : Option (FramedFunction R I) := do
  let blocks ← f.blocks.mapM fun block => do
    let insts ← block.instructions.mapM (expandPseudo f.frameLayout)
    some { block with instructions := insts.flatten }
  some { f with blocks }

end FramedFunction

/-! ## What the code does -/

/-- An access to a word of the memory. -/
inductive WordAccess (R : Type) where
  | load (rd rs1 : Register R) (imm : Int)
  | store (rs1 rs2 : Register R) (imm : Int)

/-- The instructions that access a word. -/
class FrameSemantics (R : outParam Type) (w : outParam Nat) (I : Type) extends
    FrameTarget R w I where
  wordAccess : I → Option (WordAccess R)

export FrameSemantics (wordAccess)

instance : FrameSemantics RV64Reg 64 RV64Inst where
  wordAccess
    | .ld rd rs1 imm => some (.load rd rs1 imm)
    | .sd rs1 rs2 imm => some (.store rs1 rs2 imm)
    | _ => none

instance : FrameSemantics RV32Reg 32 RV32Inst where
  wordAccess
    | .lw rd rs1 imm => some (.load rd rs1 imm)
    | .sw rs1 rs2 imm => some (.store rs1 rs2 imm)
    | _ => none

/-- The instructions of a list one after the other. -/
inductive InSequence {I S : Type} (step : I → S → S → Prop) : List I → S → S → Prop
  | nil (s : S) : InSequence step [] s s
  | cons {inst : I} {insts : List I} {s s₁ s' : S} (hinst : step inst s s₁)
      (hrest : InSequence step insts s₁ s') : InSequence step (inst :: insts) s s'

namespace InSequence

variable {I S : Type} {step : I → S → S → Prop} {insts insts' : List I} {s s₁ s' : S}

/-- One sequence behind another. -/
theorem append (h : InSequence step insts s s₁) (h' : InSequence step insts' s₁ s') :
    InSequence step (insts ++ insts') s s' := by
  induction h with
  | nil => exact h'
  | cons hinst _ ih => exact .cons hinst (ih h')

/-- The first step. -/
theorem cons_inv {inst : I} (h : InSequence step (inst :: insts) s s') :
    ∃ s₁, step inst s s₁ ∧ InSequence step insts s₁ s' := by
  cases h with
  | cons hinst hrest => exact ⟨_, hinst, hrest⟩

/-- Where the first sequence ends. -/
theorem append_inv (h : InSequence step (insts ++ insts') s s') :
    ∃ s₁, InSequence step insts s s₁ ∧ InSequence step insts' s₁ s' := by
  induction insts generalizing s with
  | nil => exact ⟨s, .nil s, h⟩
  | cons inst insts ih =>
    obtain ⟨s₁, hinst, hrest⟩ := h.cons_inv
    obtain ⟨s₂, hfirst, hlast⟩ := ih hrest
    exact ⟨s₂, .cons hinst hfirst, hlast⟩

/-- A single step. -/
theorem single {inst : I} (h : step inst s s') : InSequence step [inst] s s' :=
  .cons h (.nil s')

/-- A single step. -/
theorem single_inv {inst : I} (h : InSequence step [inst] s s') : step inst s s' := by
  obtain ⟨s₁, hinst, hrest⟩ := h.cons_inv
  cases hrest
  exact hinst

end InSequence

section Run

variable {R I : Type} {w : Nat} [DecidableEq R] [FrameSemantics R w I]

/-- The registers and the memory. -/
structure MachineState (R I : Type) (w : Nat) [MachineSemantics R w I] where
  regs : Regs R I w
  mem : ByteMemory w

variable (sym : SymbolId → BitVec w)

/-- What an instruction may do to the state. Of an instruction that is neither an access to a word
nor computes on registers, a call for example, only the registers it may write are known. -/
inductive ExecInst (inst : I) (s : MachineState R I w) : MachineState R I w → Prop
  | load {rd rs1 : Register R} {imm : Int} (h : wordAccess inst = some (.load rd rs1 imm)) :
      ExecInst inst s { s with
        regs := s.regs.set rd
          (s.mem.read (LoweringTarget.wordSize I) (s.regs.get rs1 + .ofInt w imm)) }
  | store {rs1 rs2 : Register R} {imm : Int} (h : wordAccess inst = some (.store rs1 rs2 imm)) :
      ExecInst inst s { s with
        mem := s.mem.write (LoweringTarget.wordSize I) (s.regs.get rs1 + .ofInt w imm)
          (s.regs.get rs2) }
  | alu {rd : Register R} {x : BitVec w}
      (h : MachineSemantics.alu inst s.regs.get sym = some (rd, x)) :
      ExecInst inst s { s with regs := s.regs.set rd x }
  | other (s' : MachineState R I w) (haccess : wordAccess inst = none)
      (halu : MachineSemantics.alu inst s.regs.get sym = none)
      (h : ∀ r, r ∉ defRegs inst → s'.regs.get r = s.regs.get r) : ExecInst inst s s'

variable (layout : FrameLayout R)

/-- An instruction is executed by what it expands to. -/
def Executes (inst : I) (s s' : MachineState R I w) : Prop :=
  ∃ insts, expandPseudo layout inst = some insts ∧ InSequence (ExecInst sym) insts s s'

/-- The address of a slot at an offset. -/
def MachineState.slotAddr (s : MachineState R I w) (offset : Int) : BitVec w :=
  s.regs.get (spOperand I) + .ofInt w (asI32 offset)

/-- The bytes of the words that hold the saved registers are the same. -/
def SameSaved (saved : List (R × StackSlotId)) (s s' : MachineState R I w) : Prop :=
  ∀ p ∈ saved, ∀ offset, layout.slotOffsets.lookup p.2 = some offset →
    ∀ j < LoweringTarget.wordSize I,
      s'.mem (s.slotAddr offset + .ofNat w j) = s.mem (s.slotAddr offset + .ofNat w j)

variable [Ord R] (f g : FramedFunction R I)

/-- The bytes of the frame of `g` that the code of `f` was given: the outgoing arguments and the
slots of the lowering and the register allocator. The rest is for the prologue. -/
def FramedFunction.Given (d : Nat) : Prop :=
  d < g.maxOutgoingArgSize ∨ ∃ slot ∈ f.frameInfo.stackSlots, ∃ offset, g.Placed slot offset ∧
    offset ≤ d ∧ d < offset + slot.size

/-- What an instruction that is no frame access promises, a call above all: between the stack
pointer and the end of the frame it writes only what was given. Below the stack pointer is the stack
of the callee, and behind the frame are those of the callers. -/
def FramedFunction.KeepsFrame (s s' : MachineState R I w) : Prop :=
  ∀ a, ByteMemory.dist (s.regs.get (spOperand I)) a < g.frameLayout.frameSize →
    ¬f.Given g (ByteMemory.dist (s.regs.get (spOperand I)) a) → s'.mem a = s.mem a

end Run

end Mir
