import C0mpiler.Data.HashMap
import Mathlib

/-!
# Machine functions

The machine intermediate representation: virtual and physical registers, what the passes ask of
the instructions of a target, and machine functions. A target is its type `R` of physical
registers and its type `I` of instructions; the passes are generic in it. Names of functions and
blocks and the frame layout, which no pass here reads, are left out.
-/

namespace Mir

/-- A virtual register. -/
abbrev VRegId := Nat

/-- A symbol of the module. -/
abbrev SymbolId := Nat

/-- A machine block. -/
abbrev BlockId := Nat

/-- A slot of the stack frame. -/
abbrev StackSlotId := Nat

/-- A register before the allocation. -/
inductive Register (R : Type) where
  | virtual (v : VRegId)
  | physical (r : R)
  deriving DecidableEq

namespace Register

variable {R : Type}

/-- `rewrite_field!` on a field of type `Reg`. -/
def rewrite (rewrites : HashMap VRegId (Register R)) : Register R → Register R
  | virtual v => (rewrites.lookup v).getD (virtual v)
  | physical r => physical r

@[simp] theorem rewrite_physical (m : HashMap VRegId (Register R)) (r : R) :
    rewrite m (physical r) = physical r := rfl

/-- Renaming leaves physical registers alone. -/
theorem map_rewrite_physical (m : HashMap VRegId (Register R)) (l : List R) :
    (l.map physical).map (rewrite m) = l.map physical := by
  rw [List.map_map]
  rfl

/-- A virtual register with a new name. -/
theorem rewrite_virtual_some {m : HashMap VRegId (Register R)} {v : VRegId} {r : Register R}
    (h : m.lookup v = some r) : rewrite m (virtual v) = r := by
  simp [rewrite, h]

/-- A virtual register without one. -/
theorem rewrite_virtual_none {m : HashMap VRegId (Register R)} {v : VRegId}
    (h : m.lookup v = none) : rewrite m (virtual v) = virtual v := by
  simp [rewrite, h]

end Register

/-- What the passes use of `TargetInst`, `TargetArch` and `LoweringTarget`. `get_successors` is
`none` where the source panics. -/
class LoweringTarget (R : outParam Type) (I : Type) where
  defRegs : I → List (Register R)
  useRegs : I → List (Register R)
  defConflictRegs : I → HashMap (Register R) (List (Register R))
  isTerminator : I → Bool
  isRet : I → Bool
  getSuccessors : I → Option (List BlockId)
  rewriteVreg (useRewrites defRewrites : HashMap VRegId (Register R)) : I → I
  isCall : I → Bool
  asMove : I → Option (Register R × Register R)
  allocatableRegs : List R
  isCalleeSaved : R → Bool
  wordSize : Nat
  emitLoadStackSlot (rd : Register R) (slot : StackSlotId) : I
  emitStoreStackSlot (rs : Register R) (slot : StackSlotId) (rt : Register R) : I

export LoweringTarget (defRegs useRegs defConflictRegs isTerminator getSuccessors rewriteVreg
  isCall asMove emitLoadStackSlot emitStoreStackSlot)

/-- What every target of the source satisfies: rewriting a register field by field acts on the
registers read and written, and leaves the kind of the instruction; a reload writes its register
and a spill store reads its first register and writes its scratch register. -/
class LawfulTarget (R : outParam Type) (I : Type) [DecidableEq R] [LoweringTarget R I] :
    Prop where
  defRegs_rewrite (u d : HashMap VRegId (Register R)) (i : I) :
    defRegs (rewriteVreg u d i) = (defRegs i).map (Register.rewrite d)
  useRegs_rewrite (u d : HashMap VRegId (Register R)) (i : I) :
    useRegs (rewriteVreg u d i) = (useRegs i).map (Register.rewrite u)
  mem_defConflictRegs {i : I} {d : Register R} {l : List (Register R)}
    (h : (defConflictRegs i).lookup d = some l) : l ⊆ useRegs i
  defConflictRegs_rewrite (u d : HashMap VRegId (Register R)) {i : I} (h : defConflictRegs i = ∅) :
    defConflictRegs (rewriteVreg u d i) = ∅
  isTerminator_rewrite (u d : HashMap VRegId (Register R)) (i : I) :
    isTerminator (rewriteVreg u d i) = isTerminator i
  getSuccessors_rewrite (u d : HashMap VRegId (Register R)) (i : I) :
    getSuccessors (rewriteVreg u d i) = getSuccessors i
  defRegs_load (rd : Register R) (slot : StackSlotId) :
    defRegs (emitLoadStackSlot rd slot : I) = [rd]
  useRegs_load (rd : Register R) (slot : StackSlotId) :
    ∃ sp, useRegs (emitLoadStackSlot rd slot : I) = [Register.physical sp]
  defRegs_store (rs : Register R) (slot : StackSlotId) (rt : Register R) :
    defRegs (emitStoreStackSlot rs slot rt : I) = [rt]
  useRegs_store (rs : Register R) (slot : StackSlotId) (rt : Register R) :
    ∃ sp, useRegs (emitStoreStackSlot rs slot rt : I) = [Register.physical sp, rs]
  isTerminator_load (rd : Register R) (slot : StackSlotId) :
    isTerminator (emitLoadStackSlot rd slot : I) = false
  isTerminator_store (rs : Register R) (slot : StackSlotId) (rt : Register R) :
    isTerminator (emitStoreStackSlot rs slot rt : I) = false
  getSuccessors_load (rd : Register R) (slot : StackSlotId) :
    getSuccessors (emitLoadStackSlot rd slot : I) = some []
  getSuccessors_store (rs : Register R) (slot : StackSlotId) (rt : Register R) :
    getSuccessors (emitStoreStackSlot rs slot rt : I) = some []
  allocatableRegs_nodup : (LoweringTarget.allocatableRegs I).Nodup

/-- A target that reaches its stack through registers that are never allocated. -/
class ReservedStack (R : outParam Type) (I : Type) [LoweringTarget R I] : Prop where
  useRegs_load (rd : VRegId) (slot : StackSlotId) {q : R}
    (h : .physical q ∈ useRegs (emitLoadStackSlot (.virtual rd) slot : I)) :
    q ∉ LoweringTarget.allocatableRegs I
  useRegs_store (rs : VRegId) (slot : StackSlotId) (rt : Register R) {q : R}
    (h : .physical q ∈ useRegs (emitStoreStackSlot (.virtual rs) slot rt : I)) :
    q ∉ LoweringTarget.allocatableRegs I

/-- What a stack slot is for. -/
inductive StackSlotKind where
  | alloca
  | spill
  | calleeSaved
  | localTemp
  deriving DecidableEq

/-- A stack slot; its offset is known after the layout of the frame. -/
structure StackSlot where
  id : StackSlotId
  size : Nat
  align : Nat
  kind : StackSlotKind

/-- A block of machine code. -/
structure MachineBlock (I : Type) where
  id : BlockId
  instructions : List I

/-- What is known of the frame while code is selected. -/
structure FrameInfo (R : Type) where
  stackSlots : List StackSlot
  maxAlign : Nat
  usedCalleeSaved : HashSet R
  needSaveRa : Bool

/-- A function of machine code. -/
structure MachineFunction (R I : Type) where
  blocks : List (MachineBlock I)
  vregCounter : Nat
  entry : BlockId
  frameInfo : FrameInfo R

namespace MachineFunction

variable {R I : Type}

/-- `new_stack_slot`; the slot's id is the number of slots before. -/
def newStackSlot (f : MachineFunction R I) (size align : Nat) (kind : StackSlotKind) :
    MachineFunction R I :=
  { f with
    frameInfo :=
      { f.frameInfo with
        maxAlign := max f.frameInfo.maxAlign align
        stackSlots := f.frameInfo.stackSlots ++
          [{ id := f.frameInfo.stackSlots.length, size, align, kind }] } }

@[simp] theorem newStackSlot_blocks (f : MachineFunction R I) (s a : Nat) (k : StackSlotKind) :
    (f.newStackSlot s a k).blocks = f.blocks := rfl

@[simp] theorem newStackSlot_vregCounter (f : MachineFunction R I) (s a : Nat)
    (k : StackSlotKind) : (f.newStackSlot s a k).vregCounter = f.vregCounter := rfl

@[simp] theorem newStackSlot_entry (f : MachineFunction R I) (s a : Nat) (k : StackSlotKind) :
    (f.newStackSlot s a k).entry = f.entry := rfl

/-- The instructions of the function, block after block. -/
def insts (f : MachineFunction R I) : List I :=
  f.blocks.flatMap (·.instructions)

variable [LoweringTarget R I]

/-- The registers an instruction reads or writes. -/
def instRegs (i : I) : List (Register R) :=
  useRegs i ++ defRegs i

/-- The virtual register `v` occurs in the function. -/
def Occurs (f : MachineFunction R I) (v : VRegId) : Prop :=
  ∃ i ∈ f.insts, Register.virtual v ∈ instRegs i

/-- What the lowering guarantees of the functions it hands to the register allocator: virtual
registers come from the function's counter, blocks have distinct ids, and every instruction has
known successors, which are blocks of the function. -/
structure Wf (f : MachineFunction R I) : Prop where
  vreg_lt : ∀ v, f.Occurs v → v < f.vregCounter
  nodup : (f.blocks.map (·.id)).Nodup
  succs : ∀ i ∈ f.insts, ∃ l, getSuccessors i = some l ∧ ∀ b ∈ l, b ∈ f.blocks.map (·.id)

end MachineFunction

end Mir
