import C0mpiler.Mir.ArithSound
import Mathlib

/-!
# Comparisons

A comparison brings its operands to the width of a register, with or without the sign, and then
compares registers: into a register that is then 0 or 1, or in a branch. Both decide as the
comparison of the values at their width, but for signed 32-bit operands in registers of 64 bits,
which may pass for extended.
-/

namespace Mir

open Ir (ModuleCore ValueId InstRef ICmpCode intICmp)
open LowBits

variable {R I : Type} {w : Nat} [DecidableEq R] [MachineSemantics R w I] [LawfulMachine R w I]
  {m : ModuleCore} {symbols : HashMap String SymbolId} {S : FunctionLoweringState}
  {sym : SymbolId → BitVec w} {e e' : Emitter I} {ρ ρ' : Regs R I w} {b c : Nat}
  {icmpCode : ICmpCode} {lhs rhs : ValueId} {x y : BitVec b}

/-! ## Comparing extended values -/

/-- Extending both sides compares as before. -/
theorem intICmp_extend (hb : b ≤ w) :
    intICmp icmpCode (extend w (icmpOperandsAreSigned icmpCode) x)
      (extend w (icmpOperandsAreSigned icmpCode) y) = intICmp icmpCode x y := by
  cases icmpCode with
  | eq => exact decide_eq_decide.mpr (extend_inj _ hb)
  | ne => exact decide_eq_decide.mpr (not_congr (extend_inj _ hb))
  | ugt | uge | ult | ule =>
    simp only [intICmp, icmpOperandsAreSigned, extend, Bool.false_eq_true, if_false,
      ult_setWidth _ _ hb]
  | sgt | sge | slt | sle =>
    simp only [intICmp, icmpOperandsAreSigned, extend, if_true, slt_signExtend _ _ hb]

/-- The operands are compared as integers of `b` bits, or as pointers. -/
def ComparedAt (m : ModuleCore) (w b : Nat) (v : ValueId) : Prop :=
  m.valueTy v = some (.int b) ∨ m.valueTy v = some .ptr ∧ b = w

/-- A signed comparison of 32 bits in a register of 64 relies on the sign extension of its
operands. -/
def ReliesOnExtension (w : Nat) (icmpCode : ICmpCode) (b : Nat) : Prop :=
  icmpOperandsAreSigned icmpCode = true ∧ b = 32 ∧ w ≠ 32

variable (sym) in
/-- An operand of a comparison is extended as the comparison needs. -/
theorem normalizeIcmpOperand_yields (hm : WellTyped m) {v : ValueId} {src : Register R}
    (hty : ComparedAt m w b v) (hb : b ≤ w) (hrely : ¬ReliesOnExtension w icmpCode b)
    (hsrc : OldReg e.vregCounter src) (hx : (ρ.get src).setWidth b = x) :
    ∃ r e', normalizeIcmpOperand m icmpCode v src e = some (r, e') ∧
      Yields sym e ρ r (extend w (icmpOperandsAreSigned icmpCode) x) e' := by
  unfold normalizeIcmpOperand
  rcases hty with hint | ⟨hptr, rfl⟩
  · obtain ⟨r, e', u, hcode, hyields, -, hext⟩ :=
      emitNormalizedIntOperand_yields sym hm (icmpOperandsAreSigned icmpCode) hint hb hsrc hx
    rw [hext hrely] at hyields
    exact ⟨r, e', by simp [intBitsForValue_of_ty hint, hcode], hyields⟩
  · refine ⟨src, e, by simp [intBitsForValue, hptr], ?_⟩
    rw [← hx, extend_of_full le_rfl le_rfl]
    exact .same hsrc

/-- The registers that are compared. -/
theorem lowerIcmpOperands_spec (hm : WellTyped m) (hlhsTy : ComparedAt m w b lhs)
    (hrhsTy : ComparedAt m w b rhs) (hlhs : StandsFor m symbols S sym ρ lhs x)
    (hrhs : StandsFor m symbols S sym ρ rhs y) (hlhsFits : ConstFits m lhs)
    (hrhsFits : ConstFits m rhs) (hrely : ¬ReliesOnExtension w icmpCode b)
    (hS : S.Below e.vregCounter) :
    ∃ rs1 rs2 e' ρ', lowerIcmpOperands m symbols S lhs rhs icmpCode e = some (rs1, rs2, e') ∧
      Emits sym [] e e' ρ ρ' ∧
      intICmp icmpCode (ρ'.get rs1) (ρ'.get rs2) = intICmp icmpCode x y := by
  have hb : b ≤ w := hlhs.1
  obtain ⟨r1, e₁, ρ₁, hlower₁, hemits₁, hold₁, hlow₁⟩ :=
    lowerOperand_standsFor hlhs hm hlhsFits hS (.refl e ρ)
  obtain ⟨r2, e₂, ρ₂, hlower₂, hemits₂, hold₂, hlow₂⟩ :=
    lowerOperand_standsFor hrhs hm hrhsFits hS hemits₁
  have hlow₁' : (ρ₂.get r1).setWidth b = x := by rw [hemits₂.get_oldReg hold₁, hlow₁]
  obtain ⟨s1, e₃, hnorm₁, ρ₃, hemits₃, hold₃, hget₃⟩ :=
    normalizeIcmpOperand_yields sym hm hlhsTy hb hrely (hold₁.mono hemits₂.counter_le) hlow₁'
  have hlow₂' : (ρ₃.get r2).setWidth b = y := by rw [hemits₃.get_oldReg hold₂, hlow₂]
  obtain ⟨s2, e₄, hnorm₂, ρ₄, hemits₄, -, hget₄⟩ :=
    normalizeIcmpOperand_yields sym hm hrhsTy hb hrely (hold₂.mono hemits₃.counter_le) hlow₂'
  refine ⟨s1, s2, e₄, ρ₄, ?_, ((hemits₁.trans hemits₂).trans hemits₃).trans hemits₄, ?_⟩
  · simp only [lowerIcmpOperands, hlower₁, hlower₂, hnorm₁, hnorm₂, Option.bind_eq_bind,
      Option.bind_some]
  · rw [hemits₄.get_oldReg hold₃, hget₃, hget₄, intICmp_extend hb]

/-! ## Comparisons fused into branches -/

omit [DecidableEq R] in
/-- The branch of a comparison is taken where that holds. -/
theorem branch_emitIcmpBranch_eq (icmpCode : ICmpCode) (rs1 rs2 : Register R) (label : BlockId)
    (g : Register R → BitVec w) :
    MachineSemantics.branch (emitIcmpBranch icmpCode rs1 rs2 label : I) g =
      some (if intICmp icmpCode (g rs1) (g rs2) then some label else none) := by
  cases icmpCode with
  | eq => simp [emitIcmpBranch, intICmp, LawfulMachine.branch_eq]
  | ne => simp [emitIcmpBranch, intICmp, LawfulMachine.branch_ne]
  | ugt | uge | ult | ule =>
    simp only [emitIcmpBranch, intICmp, LawfulMachine.branch_ltu, LawfulMachine.branch_geu]
    split <;> simp_all
  | sgt | sge | slt | sle =>
    simp only [emitIcmpBranch, intICmp, LawfulMachine.branch_lt, LawfulMachine.branch_ge]
    split <;> simp_all

/-- The test of a conditional branch on a comparison that only branches use. -/
theorem lowerTest_fused (hm : WellTyped m) {cond : ValueId} (label : BlockId)
    (hcond : branchCondIcmp m cond = some (some (icmpCode, lhs, rhs)))
    (hlhsTy : ComparedAt m w b lhs) (hrhsTy : ComparedAt m w b rhs)
    (hlhs : StandsFor m symbols S sym ρ lhs x) (hrhs : StandsFor m symbols S sym ρ rhs y)
    (hlhsFits : ConstFits m lhs) (hrhsFits : ConstFits m rhs)
    (hrely : ¬ReliesOnExtension w icmpCode b) (hS : S.Below e.vregCounter) :
    ∃ e₁ i ρ₁, lowerTest m symbols S cond label e = some (e₁.push i) ∧
      Emits sym [] e e₁ ρ ρ₁ ∧
      MachineSemantics.branch i ρ₁.get =
        some (if intICmp icmpCode x y then some label else none) := by
  obtain ⟨rs1, rs2, e₁, ρ₁, hcode, hemits, heval⟩ :=
    lowerIcmpOperands_spec hm hlhsTy hrhsTy hlhs hrhs hlhsFits hrhsFits hrely hS
  refine ⟨e₁, emitIcmpBranch icmpCode rs1 rs2 label, ρ₁, ?_, hemits, ?_⟩
  · simp only [lowerTest, hcond, hcode, Option.bind_eq_bind, Option.bind_some]
  · rw [branch_emitIcmpBranch_eq, heval]

/-! ## Comparisons in registers -/

/-- Flipping the bit negates. -/
theorem boolToReg_not (k : Bool) :
    (boolToReg k : BitVec w) ^^^ BitVec.ofInt w 1 = boolToReg (!k) := by
  cases k <;> simp [boolToReg]

/-- Below one is zero. -/
theorem ult_one (r : BitVec w) (hw : 0 < w) : r.ult (BitVec.ofInt w 1) = decide (r = 0) := by
  have hone : (BitVec.ofInt w 1).toNat = 1 := by
    show (BitVec.ofNat w 1).toNat = 1
    rw [BitVec.toNat_ofNat]
    exact Nat.mod_eq_of_lt (Nat.one_lt_two_pow hw.ne')
  rw [BitVec.ult_eq_decide, hone]
  refine decide_eq_decide.mpr ?_
  rw [Nat.lt_one_iff, ← BitVec.toNat_inj]
  simp

/-- Above zero is not zero. -/
theorem zero_ult (r : BitVec w) : (0 : BitVec w).ult r = decide (r ≠ 0) := by
  rw [BitVec.ult_eq_decide]
  refine decide_eq_decide.mpr ?_
  rw [Ne, ← BitVec.toNat_inj]
  simp [Nat.pos_iff_ne_zero]

/-- One fits an immediate. -/
theorem fitsImm12_one : FitsImm12 1 := by
  decide

variable [ArithTarget R I] [LawfulArith R w I] {rd : VRegId} {rs1 rs2 : Register R}

omit [LawfulMachine R w I] in
/-- A test with its bit flipped. -/
theorem emitNegated_puts {test : Register R → I} {k : Bool}
    (htest : ∀ tmp, MachineSemantics.alu (test tmp) ρ.get sym = some (tmp, boolToReg k)) :
    Puts sym e ρ rd (boolToReg (!k) : BitVec w) (emitNegated (.virtual rd) test e) := by
  have hrefl : Emits sym [.virtual rd] e e ρ ρ := .refl e ρ
  refine .push (hrefl.newVreg.push (Or.inr (allocated_newVreg le_rfl)) (htest _))
    (LawfulArith.alu_xori _ _ fitsImm12_one _ _) ?_
  rw [RegFile.get_set_virtual, boolToReg_not, BitVec.setWidth_eq]

/-- The register gets 0 or 1. -/
theorem emitIcmp_puts :
    Puts sym e ρ rd (boolToReg (intICmp icmpCode (ρ.get rs1) (ρ.get rs2)) : BitVec w)
      (emitIcmp icmpCode (.virtual rd) rs1 rs2 e) := by
  have hrefl : Emits sym [.virtual rd] e e ρ ρ := .refl e ρ
  have hw : 0 < w := Nat.lt_of_lt_of_le (by decide) (LawfulMachine.width_le I)
  have hxor := hrefl.newVreg.push (Or.inr (allocated_newVreg le_rfl))
    (LawfulArith.alu_xor (I := I) (.virtual e.vregCounter) rs1 rs2 ρ.get sym)
  cases icmpCode with
  -- equality: the difference is zero, with a copy where one side is
  | eq =>
    simp only [emitIcmp]
    split
    · next hzero =>
      refine .push hrefl (LawfulArith.alu_sltiu _ _ fitsImm12_one _ _) ?_
      rw [ult_one _ hw, BitVec.setWidth_eq, hzero, ρ.get_zero]
      simp [intICmp, eq_comm]
    · split
      · next hzero =>
        refine .push hrefl (LawfulArith.alu_sltiu _ _ fitsImm12_one _ _) ?_
        rw [ult_one _ hw, BitVec.setWidth_eq, hzero, ρ.get_zero]
        rfl
      · refine .push hxor (LawfulArith.alu_sltiu _ _ fitsImm12_one _ _) ?_
        rw [ult_one _ hw, BitVec.setWidth_eq, RegFile.get_set_virtual]
        simp [intICmp, BitVec.xor_eq_zero_iff]
  | ne =>
    simp only [emitIcmp]
    split
    · next hzero =>
      refine .push hrefl (LawfulArith.alu_sltu ..) ?_
      rw [ρ.get_zero, zero_ult, BitVec.setWidth_eq, hzero, ρ.get_zero]
      simp [intICmp, eq_comm]
    · split
      · next hzero =>
        refine .push hrefl (LawfulArith.alu_sltu ..) ?_
        rw [ρ.get_zero, zero_ult, BitVec.setWidth_eq, hzero, ρ.get_zero]
        rfl
      · refine .push hxor (LawfulArith.alu_sltu ..) ?_
        rw [RegFile.get_zero, zero_ult, BitVec.setWidth_eq, RegFile.get_set_virtual]
        simp [intICmp, BitVec.xor_eq_zero_iff]
  | ugt => exact .push hrefl (LawfulArith.alu_sltu ..) (BitVec.setWidth_eq _)
  | ult => exact .push hrefl (LawfulArith.alu_sltu ..) (BitVec.setWidth_eq _)
  | sgt => exact .push hrefl (LawfulArith.alu_slt ..) (BitVec.setWidth_eq _)
  | slt => exact .push hrefl (LawfulArith.alu_slt ..) (BitVec.setWidth_eq _)
  -- the other four are the negations of these
  | uge => exact emitNegated_puts fun tmp => LawfulArith.alu_sltu ..
  | ule => exact emitNegated_puts fun tmp => LawfulArith.alu_sltu ..
  | sge => exact emitNegated_puts fun tmp => LawfulArith.alu_slt ..
  | sle => exact emitNegated_puts fun tmp => LawfulArith.alu_slt ..

/-- A comparison that is not left to the branches. -/
theorem lowerIcmp_puts (hm : WellTyped m) {inst : InstRef}
    (hused : icmpIsOnlyBranchCond m inst = some false) (hlhsTy : ComparedAt m w b lhs)
    (hrhsTy : ComparedAt m w b rhs) (hlhs : StandsFor m symbols S sym ρ lhs x)
    (hrhs : StandsFor m symbols S sym ρ rhs y) (hlhsFits : ConstFits m lhs)
    (hrhsFits : ConstFits m rhs) (hrely : ¬ReliesOnExtension w icmpCode b)
    (hS : S.Below e.vregCounter) :
    ∃ rd S' e', lowerIcmp m symbols S inst icmpCode lhs rhs e = some (some rd, S', e') ∧
      S'.vregForValue (.inst inst) = some rd ∧
      Puts sym e ρ rd (boolToReg (intICmp icmpCode x y) : BitVec w) e' := by
  obtain ⟨rs1, rs2, e₁, ρ₁, hcode, hemits, heval⟩ :=
    lowerIcmpOperands_spec hm hlhsTy hrhsTy hlhs hrhs hlhsFits hrhsFits hrely hS
  obtain ⟨rd, S', e₂, hensure, hemits₂, -, hrd⟩ :=
    ensureInstVreg_spec sym inst (hS.mono hemits.counter_le) ρ₁
  have hputs : Puts sym e₂ ρ₁ rd (boolToReg (intICmp icmpCode (ρ₁.get rs1) (ρ₁.get rs2)))
      (emitIcmp icmpCode (.virtual rd) rs1 rs2 e₂) := emitIcmp_puts
  rw [heval] at hputs
  refine ⟨rd, S', _, ?_, hrd, .after (hemits.trans hemits₂) hputs⟩
  simp only [lowerIcmp, hused, hcode, hensure, Option.bind_eq_bind, Option.bind_some,
    Bool.false_eq_true, if_false]

end Mir
