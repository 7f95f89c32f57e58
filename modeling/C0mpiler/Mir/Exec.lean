import C0mpiler.Mir.Machine
import Mathlib

/-!
# Instructions the lowering emits, and what they do

What the lowering asks of a target (`LoweringTarget` in the source, its `emit_*` functions), the
registers of a running machine, and the execution of straight-line code: an instruction that only
computes on registers writes one of them, a branch goes to its label or falls through. Memory
accesses, calls and returns are not executed here.
-/

namespace Mir

/-- The instructions the lowering emits beside those of the register allocator. -/
class EmitTarget (R : outParam Type) (I : Type) extends LoweringTarget R I where
  zeroReg : R
  numArgRegs : Nat
  argReg (index : Nat) : R
  stackArgOffset (stackIndex : Nat) : Int
  mv (rd rs : Register R) : I
  loadImm (rd : Register R) (imm : Int) : I
  emitLoadSymbolAddr (rd : Register R) (symbol : SymbolId) : I
  emitLoadIncomingArg (rd : Register R) (offset : Int) : I
  emitAdd (rd rs1 rs2 : Register R) : I
  emitMul (rd rs1 rs2 : Register R) : I
  emitAnd (rd rs1 rs2 : Register R) : I
  emitAddi (rd rs1 : Register R) (imm : Int) : I
  emitAndi (rd rs1 : Register R) (imm : Int) : I
  emitSlli (rd rs1 : Register R) (imm : Int) : I
  emitSrli (rd rs1 : Register R) (imm : Int) : I
  emitSrai (rd rs1 : Register R) (imm : Int) : I
  emitBranchEq (rs1 rs2 : Register R) (label : BlockId) : I
  emitBranchNe (rs1 rs2 : Register R) (label : BlockId) : I
  emitBranchLt (rs1 rs2 : Register R) (label : BlockId) : I
  emitBranchGe (rs1 rs2 : Register R) (label : BlockId) : I
  emitBranchLtu (rs1 rs2 : Register R) (label : BlockId) : I
  emitBranchGeu (rs1 rs2 : Register R) (label : BlockId) : I
  emitJump (label : BlockId) : I

export EmitTarget (zeroReg mv loadImm emitLoadSymbolAddr emitLoadIncomingArg emitAdd emitMul emitAnd
  emitAddi emitAndi emitSlli emitSrli emitSrai emitBranchEq emitBranchNe emitBranchLt emitBranchGe
  emitBranchLtu emitBranchGeu emitJump)

/-- The register that reads as zero, as an operand. -/
abbrev zeroOperand {R : Type} (I : Type) [EmitTarget R I] : Register R :=
  .physical (zeroReg I)

/-- What the instructions of a target with `w`-bit registers do: the register an instruction
writes and the value it gets from the registers and the addresses of the symbols, and the block a
branch goes to, which is `none` where it falls through. An immediate the instruction cannot hold
gives no result. -/
class MachineSemantics (R : outParam Type) (w : outParam Nat) (I : Type) extends
    EmitTarget R I where
  alu : I → (Register R → BitVec w) → (SymbolId → BitVec w) → Option (Register R × BitVec w)
  branch : I → (Register R → BitVec w) → Option (Option BlockId)

/-- The range of a 12-bit immediate. -/
def FitsImm12 (imm : Int) : Prop :=
  -2048 ≤ imm ∧ imm ≤ 2047

instance (imm : Int) : Decidable (FitsImm12 imm) :=
  inferInstanceAs (Decidable (_ ∧ _))

/-- Each `emit_*` function gives the instruction it is named after. -/
class LawfulMachine (R : outParam Type) (w : outParam Nat) (I : Type) [MachineSemantics R w I] :
    Prop where
  width : w = 8 * LoweringTarget.wordSize I
  width_le : 32 ≤ w
  alu_mv (rd rs : Register R) (g : Register R → BitVec w) (sym : SymbolId → BitVec w) :
    MachineSemantics.alu (mv rd rs : I) g sym = some (rd, g rs)
  alu_loadImm (rd : Register R) (imm : Int) (g : Register R → BitVec w)
      (sym : SymbolId → BitVec w) :
    MachineSemantics.alu (loadImm rd imm : I) g sym = some (rd, .ofInt w imm)
  alu_loadSymbolAddr (rd : Register R) (s : SymbolId) (g : Register R → BitVec w)
      (sym : SymbolId → BitVec w) :
    MachineSemantics.alu (emitLoadSymbolAddr rd s : I) g sym = some (rd, sym s)
  alu_add (rd a b : Register R) (g : Register R → BitVec w) (sym : SymbolId → BitVec w) :
    MachineSemantics.alu (emitAdd rd a b : I) g sym = some (rd, g a + g b)
  alu_mul (rd a b : Register R) (g : Register R → BitVec w) (sym : SymbolId → BitVec w) :
    MachineSemantics.alu (emitMul rd a b : I) g sym = some (rd, g a * g b)
  alu_and (rd a b : Register R) (g : Register R → BitVec w) (sym : SymbolId → BitVec w) :
    MachineSemantics.alu (emitAnd rd a b : I) g sym = some (rd, g a &&& g b)
  alu_addi (rd a : Register R) {imm : Int} (h : FitsImm12 imm) (g : Register R → BitVec w)
      (sym : SymbolId → BitVec w) :
    MachineSemantics.alu (emitAddi rd a imm : I) g sym = some (rd, g a + .ofInt w imm)
  alu_andi (rd a : Register R) {imm : Int} (h : FitsImm12 imm) (g : Register R → BitVec w)
      (sym : SymbolId → BitVec w) :
    MachineSemantics.alu (emitAndi rd a imm : I) g sym = some (rd, g a &&& .ofInt w imm)
  alu_slli (rd a : Register R) {n : Nat} (h : n < w) (g : Register R → BitVec w)
      (sym : SymbolId → BitVec w) :
    MachineSemantics.alu (emitSlli rd a n : I) g sym = some (rd, g a <<< n)
  alu_srli (rd a : Register R) {n : Nat} (h : n < w) (g : Register R → BitVec w)
      (sym : SymbolId → BitVec w) :
    MachineSemantics.alu (emitSrli rd a n : I) g sym = some (rd, g a >>> n)
  alu_srai (rd a : Register R) {n : Nat} (h : n < w) (g : Register R → BitVec w)
      (sym : SymbolId → BitVec w) :
    MachineSemantics.alu (emitSrai rd a n : I) g sym = some (rd, (g a).sshiftRight n)
  branch_eq (a b : Register R) (l : BlockId) (g : Register R → BitVec w) :
    MachineSemantics.branch (emitBranchEq a b l : I) g = some (if g a = g b then some l else none)
  branch_ne (a b : Register R) (l : BlockId) (g : Register R → BitVec w) :
    MachineSemantics.branch (emitBranchNe a b l : I) g = some (if g a = g b then none else some l)
  branch_lt (a b : Register R) (l : BlockId) (g : Register R → BitVec w) :
    MachineSemantics.branch (emitBranchLt a b l : I) g =
      some (if (g a).slt (g b) then some l else none)
  branch_ge (a b : Register R) (l : BlockId) (g : Register R → BitVec w) :
    MachineSemantics.branch (emitBranchGe a b l : I) g =
      some (if (g a).slt (g b) then none else some l)
  branch_ltu (a b : Register R) (l : BlockId) (g : Register R → BitVec w) :
    MachineSemantics.branch (emitBranchLtu a b l : I) g =
      some (if (g a).ult (g b) then some l else none)
  branch_geu (a b : Register R) (l : BlockId) (g : Register R → BitVec w) :
    MachineSemantics.branch (emitBranchGeu a b l : I) g =
      some (if (g a).ult (g b) then none else some l)
  branch_jump (l : BlockId) (g : Register R → BitVec w) :
    MachineSemantics.branch (emitJump l : I) g = some (some l)
  alu_branch {i : I} {g : Register R → BitVec w} {t : Option BlockId} (sym : SymbolId → BitVec w)
    (h : MachineSemantics.branch i g = some t) : MachineSemantics.alu i g sym = none

/-! ## Registers -/

/-- The contents of the registers; the zero register holds zero. -/
structure RegFile (R : Type) (zero : R) (w : Nat) where
  get : Register R → BitVec w
  get_zero : get (.physical zero) = 0

namespace RegFile

variable {R : Type} [DecidableEq R] {zero : R} {w : Nat}

/-- A write to the zero register has no effect. -/
def set (ρ : RegFile R zero w) (r : Register R) (x : BitVec w) : RegFile R zero w where
  get := fun r' => if r' = r ∧ r ≠ .physical zero then x else ρ.get r'
  get_zero := by
    split
    · next h => exact absurd h.1.symm h.2
    · exact ρ.get_zero

/-- A write to any other register is a write. -/
theorem get_set (ρ : RegFile R zero w) {r : Register R} (hr : r ≠ .physical zero) (x : BitVec w) :
    (ρ.set r x).get = Function.update ρ.get r x := by
  funext r'
  by_cases h : r' = r
  · subst h
    simp [set, hr]
  · simp [set, h]

/-- The zero register stays zero. -/
theorem get_set_zero (ρ : RegFile R zero w) (x : BitVec w) :
    (ρ.set (.physical zero) x).get = ρ.get := by
  funext r'
  simp [set]

@[simp] theorem get_set_virtual (ρ : RegFile R zero w) (v : VRegId) (x : BitVec w) :
    (ρ.set (.virtual v) x).get (.virtual v) = x := by
  simp [set]

/-- Other registers stay. -/
theorem get_set_ne (ρ : RegFile R zero w) {r r' : Register R} (h : r' ≠ r) (x : BitVec w) :
    (ρ.set r x).get r' = ρ.get r' := by
  simp [set, h]

end RegFile

/-! ## Straight-line code -/

section

variable {R I : Type} {w : Nat} [DecidableEq R] [MachineSemantics R w I]
  (sym : SymbolId → BitVec w)

/-- The registers of a machine that runs instructions of type `I`. -/
abbrev Regs (R I : Type) (w : Nat) [MachineSemantics R w I] : Type :=
  RegFile R (zeroReg I) w

/-- One instruction: the registers after it and the block it goes to, if it is a branch that is
taken. -/
def stepInst (i : I) (ρ : Regs R I w) : Option (Regs R I w × Option BlockId) :=
  match MachineSemantics.alu i ρ.get sym with
  | some (rd, x) => some (ρ.set rd x, none)
  | none => (MachineSemantics.branch i ρ.get).map fun t => (ρ, t)

/-- Instructions in sequence, up to the first branch that is taken. -/
def runInsts : List I → Regs R I w → Option (Regs R I w × Option BlockId)
  | [], ρ => some (ρ, none)
  | i :: is, ρ => do
    let (ρ, target) ← stepInst sym i ρ
    match target with
    | some l => some (ρ, some l)
    | none => runInsts is ρ

variable {sym}

/-- An arithmetic instruction steps to the next. -/
theorem stepInst_alu {i : I} {ρ : Regs R I w} {rd : Register R} {x : BitVec w}
    (h : MachineSemantics.alu i ρ.get sym = some (rd, x)) :
    stepInst sym i ρ = some (ρ.set rd x, none) := by
  simp only [stepInst, h]

/-- Two stretches of code. -/
theorem runInsts_append {l l' : List I} {ρ ρ' : Regs R I w}
    (h : runInsts sym l ρ = some (ρ', none)) : runInsts sym (l ++ l') ρ = runInsts sym l' ρ' := by
  induction l generalizing ρ with
  | nil =>
    cases h
    rfl
  | cons i l ih =>
    simp only [runInsts, List.cons_append] at h ⊢
    cases hstep : stepInst sym i ρ with
    | none => rw [hstep] at h; cases h
    | some p =>
      obtain ⟨ρ₁, target⟩ := p
      rw [hstep] at h
      cases target with
      | none => exact ih h
      | some label => cases h

/-- Arithmetic is run. -/
theorem runInsts_alu {i : I} {ρ : Regs R I w} {rd : Register R} {x : BitVec w}
    (h : MachineSemantics.alu i ρ.get sym = some (rd, x)) :
    runInsts sym [i] ρ = some (ρ.set rd x, none) := by
  simp only [runInsts, stepInst_alu h]
  rfl

variable [LawfulMachine R w I]

/-- A branch leaves the registers. -/
theorem stepInst_branch {i : I} {ρ : Regs R I w} {target : Option BlockId}
    (h : MachineSemantics.branch i ρ.get = some target) : stepInst sym i ρ = some (ρ, target) := by
  simp only [stepInst, LawfulMachine.alu_branch sym h, h, Option.map_some]

/-- A branch that is taken ends the run. -/
theorem runInsts_taken {i : I} {ρ : Regs R I w} {l : BlockId} (is : List I)
    (h : MachineSemantics.branch i ρ.get = some (some l)) :
    runInsts sym (i :: is) ρ = some (ρ, some l) := by
  simp only [runInsts, stepInst_branch h]
  rfl

/-- A branch that is not taken. -/
theorem runInsts_fall {i : I} {ρ : Regs R I w} (is : List I)
    (h : MachineSemantics.branch i ρ.get = some none) :
    runInsts sym (i :: is) ρ = runInsts sym is ρ := by
  simp only [runInsts, stepInst_branch h]
  rfl

end

end Mir
