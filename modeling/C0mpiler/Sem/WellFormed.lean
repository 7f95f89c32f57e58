import C0mpiler.Flow.Path
import C0mpiler.Sem.Flow
import Mathlib

/-!
# Well-formed functions

A function of the IR is well formed when its blocks and instructions own each other, every block
ends in a terminator, every target is a block of the function, every operand has a value and is
computed before it is used, and every return fits the function's type. Whether the phis have one
incoming for each edge is a property of one phi (`PhiMatches`). Nothing is asked of an instruction
of the arena that stands in no block: passes leave such instructions behind.
-/

namespace Ir

/-- The instruction stands where one of its kind stands in a block, and nowhere else. -/
def BlockData.HoldsAs (bd : BlockData) (i : InstId) (k : InstKind) : Prop :=
  (i ∈ bd.phis ↔ k.isPhi = true) ∧
    (i ∈ bd.insts ↔ k.isPhi = false ∧ k.isTerminator = false) ∧
    (bd.terminator = some i ↔ k.isTerminator = true)

/-- The instruction stands somewhere in the block. -/
def BlockData.Holds (bd : BlockData) (i : InstId) : Prop :=
  i ∈ bd.phis ∨ i ∈ bd.insts ∨ bd.terminator = some i

/-- `j` is executed before `i` in the block. -/
def BlockData.Before (bd : BlockData) (j i : InstId) : Prop :=
  (i ∈ bd.insts ∧ j ∈ bd.phis) ∨ [j, i].Sublist bd.insts ∨
    (bd.terminator = some i ∧ (j ∈ bd.phis ∨ j ∈ bd.insts))

namespace Code

variable (C : Code) (f : FunctionId)

/-- An edge of the control flow graph: a slot of a terminator. -/
def EdgeAt (p : BlockId) (slot : BlockOperandSlot) (b : BlockId) : Prop :=
  ∃ k, C.TerminatorIs f p k ∧ (b, slot) ∈ k.blockOperands

def Edge (p b : BlockId) : Prop := ∃ slot, C.EdgeAt f p slot b

/-- Where `v` is computed, in the function. -/
def ComputedIn (v : InstRef) (a : BlockId) : Prop :=
  v.func = f ∧ ∃ d, C.inst v = some d ∧ d.parent = some ⟨f, a⟩

/-- `v` is computed before the instruction `i` of `b`. -/
def AvailableAt (entry : BlockId) (v : ValueId) (b : BlockId) (i : InstId) : Prop :=
  ∀ j, v = .inst j → ∃ a, C.ComputedIn f j a ∧
    (a = b ∧ (∃ bd, C.block ⟨f, b⟩ = some bd ∧ bd.Before j.inst i) ∨
      a ≠ b ∧ Flow.Dominates (C.Edge f) entry a b)

/-- `v` is computed by the end of `p`. -/
def AvailableAfter (entry : BlockId) (v : ValueId) (p : BlockId) : Prop :=
  ∀ j, v = .inst j → ∃ a, C.ComputedIn f j a ∧ Flow.Dominates (C.Edge f) entry a p

/-- Each incoming of a phi of `b` belongs to exactly one edge to `b`, from its block. -/
def PhiMatches (b : BlockId) (incomings : HashMap Nat PhiIncoming) : Prop :=
  ∃ slot : Nat → BlockOperandSlot,
    (∀ k incoming, incomings.lookup k = some incoming → C.EdgeAt f incoming.block (slot k) b) ∧
    ∀ p s, C.EdgeAt f p s b →
      ∃! k, ∃ incoming, incomings.lookup k = some incoming ∧ incoming.block = p ∧ slot k = s

/-- A well-formed function; `fd` is its header. -/
structure WellFormed (fd : FunctionData) : Prop where
  func : C.func f = some fd
  isDefined : fd.isDeclare = false
  nodup : fd.blockOrder.Nodup
  entry : fd.entry ∈ fd.blockOrder
  blocks : ∀ b, b ∈ fd.blockOrder ↔ (C.block ⟨f, b⟩).isSome
  terminated : ∀ b bd, C.block ⟨f, b⟩ = some bd → ∃ t, bd.terminator = some t
  distinct : ∀ b bd, C.block ⟨f, b⟩ = some bd → bd.phis.Nodup ∧ bd.insts.Nodup
  owned : ∀ b bd i, C.block ⟨f, b⟩ = some bd → bd.Holds i →
    ∃ d, C.inst ⟨f, i⟩ = some d ∧ d.parent = some ⟨f, b⟩ ∧ bd.HoldsAs i d.kind
  placed : ∀ i d b, C.inst ⟨f, i⟩ = some d → d.parent = some b →
    b.func = f ∧ ∃ bd, C.block b = some bd ∧ bd.HoldsAs i d.kind
  targets : ∀ i d, C.inst ⟨f, i⟩ = some d → d.parent.isSome →
    ∀ op ∈ d.kind.blockOperands, (C.block ⟨f, op.1⟩).isSome
  operands : ∀ i d, C.inst ⟨f, i⟩ = some d → d.parent.isSome →
    ∀ op ∈ d.kind.valueOperands, ∃ ty, C.valueTy op.1 = some ty ∧ ty ≠ .void
  available : ∀ i d b, C.inst ⟨f, i⟩ = some d → d.parent = some ⟨f, b⟩ → d.kind.isPhi = false →
    ∀ op ∈ d.kind.valueOperands, C.AvailableAt f fd.entry op.1 b i
  incoming : ∀ i d incomings idx, C.inst ⟨f, i⟩ = some d → d.parent.isSome →
    d.kind = .phi incomings idx → ∀ k incoming, incomings.lookup k = some incoming →
      C.AvailableAfter f fd.entry incoming.value incoming.block
  returns : ∀ i d value, C.inst ⟨f, i⟩ = some d → d.parent.isSome → d.kind = .ret value →
    d.ty = .void ∧
      value.elim (fd.ty.returnType = .void) fun v => C.valueTy v = some fd.ty.returnType

end Code

end Ir
