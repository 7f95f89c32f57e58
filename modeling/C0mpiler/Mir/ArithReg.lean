import C0mpiler.Mir.ArithConst
import Mathlib

/-!
# Arithmetic on registers

The single instructions that the arithmetic lowering picks, with both operands in registers or the
right one an immediate: on operands in the form that the instruction reads, they leave the result of
the operation in the low bits of their register.
-/

namespace Mir

open Ir (BinaryOpcode intArith intShift intBinary)
open LowBits

variable {R I : Type} {w : Nat} [DecidableEq R] [MachineSemantics R w I] [LawfulMachine R w I]
  [ArithTarget R I] [LawfulArith R w I] {b c n : Nat} {op : BinaryOpcode} {x y z : BitVec b}
  {g : Register R → BitVec w} {rs1 rs2 : Register R}

/-- The instruction `i` leaves a word whose low bits are `z` in `rd`. -/
def Sets (sym : SymbolId → BitVec w) (g : Register R → BitVec w) (i : I) (rd : Register R)
    (z : BitVec b) : Prop :=
  ∃ r, MachineSemantics.alu i g sym = some (rd, r) ∧ r.setWidth b = z

/-- The operations whose result depends on more than the low bits of the operands. -/
def readsHighBits : BinaryOpcode → Bool
  | .udiv | .sdiv | .urem | .srem | .lshr | .ashr => true
  | _ => false

/-- A register that stands for `x` as an operand: its low bits are `x`, and where the operation reads
more than that, the rest extends it. -/
structure Ready (op : BinaryOpcode) (r : BitVec w) (x : BitVec b) : Prop where
  low : r.setWidth b = x
  extended : readsHighBits op = true → binaryOpHas32BitMachineResult op b = false →
    r = extend w (binaryOperandsAreSigned op) x

/-! ## The operations on whole registers -/

omit [DecidableEq R] in
/-- An arithmetic instruction on full registers, the operands of which are extended as it needs. -/
theorem sets_arith (hb : b ≤ w) (hz : intArith op x y = some z)
    (hplain : binaryOpHas32BitMachineResult op b = false) (h1 : Ready op (g rs1) x)
    (h2 : Ready op (g rs2) y) (sym : SymbolId → BitVec w)
    (rd : Register R) : Sets sym g (emitBinaryReg op false rd rs1 rs2 : I) rd z := by
  have hx := h1.low
  have hy := h2.low
  have hnz : y ≠ 0 → g rs2 ≠ 0 := fun hne hzero => hne (by rw [← hy, hzero]; simp)
  cases op with
  | add =>
    cases hz
    exact ⟨_, LawfulMachine.alu_add .., by rw [BitVec.setWidth_add _ _ hb, hx, hy]⟩
  | sub =>
    cases hz
    exact ⟨_, LawfulArith.alu_sub .., by rw [setWidth_sub _ _ hb, hx, hy]⟩
  | mul =>
    cases hz
    exact ⟨_, LawfulMachine.alu_mul .., by rw [BitVec.setWidth_mul _ _ hb, hx, hy]⟩
  -- the register divides by zero where the operand does, which has no value
  | udiv =>
    simp only [intArith] at hz
    split at hz
    · cases hz
    · next hne =>
      cases hz
      refine ⟨_, LawfulArith.alu_divu .., ?_⟩
      rw [divUnsigned, if_neg (hnz hne), h1.extended rfl hplain, h2.extended rfl hplain]
      exact setWidth_udiv x y hb
  | sdiv =>
    simp only [intArith] at hz
    split at hz
    · cases hz
    · next hne =>
      cases hz
      refine ⟨_, LawfulArith.alu_div .., ?_⟩
      rw [divSigned, if_neg (hnz hne), h1.extended rfl hplain, h2.extended rfl hplain]
      exact setWidth_sdiv x y hb
  | urem =>
    simp only [intArith] at hz
    split at hz
    · cases hz
    · next hne =>
      cases hz
      refine ⟨_, LawfulArith.alu_remu .., ?_⟩
      rw [remUnsigned, if_neg (hnz hne), h1.extended rfl hplain, h2.extended rfl hplain]
      exact setWidth_umod x y hb
  | srem =>
    simp only [intArith] at hz
    split at hz
    · cases hz
    · next hne =>
      cases hz
      refine ⟨_, LawfulArith.alu_rem .., ?_⟩
      rw [remSigned, if_neg (hnz hne), h1.extended rfl hplain, h2.extended rfl hplain]
      exact setWidth_srem x y hb
  | and =>
    cases hz
    exact ⟨_, LawfulMachine.alu_and .., by rw [BitVec.setWidth_and, hx, hy]⟩
  | or =>
    cases hz
    exact ⟨_, LawfulArith.alu_or .., by rw [BitVec.setWidth_or, hx, hy]⟩
  | xor =>
    cases hz
    exact ⟨_, LawfulArith.alu_xor .., by rw [BitVec.setWidth_xor, hx, hy]⟩
  | shl | lshr | ashr => cases hz

/-- A shift by `n` does what the shift by `k` does: the amounts agree, or both leave nothing but the
sign. -/
def ShiftsBy (op : BinaryOpcode) (b n k : Nat) : Prop :=
  n = k ∨ op = .ashr ∧ b ≤ k + 1 ∧ k ≤ n

/-- A shift that is not arithmetic shifts by its amount. -/
theorem ShiftsBy.eq_of_ne {n k : Nat} (h : ShiftsBy op b n k) (hop : op ≠ .ashr) : n = k :=
  h.resolve_right fun hsign => hop hsign.1

/-- An arithmetic one shifts by at least as much as fills the word. -/
theorem ShiftsBy.sshiftRight_eq {n k : Nat} (h : ShiftsBy op b n k) (x : BitVec b) :
    x.sshiftRight n = x.sshiftRight k := by
  rcases h with rfl | ⟨-, hk, hn⟩
  · rfl
  · exact sshiftRight_of_sign x hk hn

omit [DecidableEq R] [LawfulMachine R w I] in
/-- A shift on full registers. -/
theorem sets_shift (hb : b ≤ w) (hz : intShift op x n = some z)
    (hplain : binaryOpHas32BitMachineResult op b = false) (h1 : Ready op (g rs1) x)
    (h2 : ShiftsBy op b ((g rs2).toNat % w) n) (sym : SymbolId → BitVec w) (rd : Register R) :
    Sets sym g (emitBinaryReg op false rd rs1 rs2 : I) rd z := by
  unfold intShift at hz
  split at hz
  · cases op with
    | shl =>
      cases hz
      refine ⟨_, LawfulArith.alu_sll .., ?_⟩
      rw [h2.eq_of_ne (by decide), BitVec.setWidth_shiftLeft_of_le hb, h1.low]
    | lshr =>
      cases hz
      refine ⟨_, LawfulArith.alu_srl .., ?_⟩
      rw [h2.eq_of_ne (by decide), h1.extended rfl hplain]
      exact setWidth_ushiftRight x n hb
    | ashr =>
      cases hz
      refine ⟨_, LawfulArith.alu_sra .., ?_⟩
      rw [h1.extended rfl hplain, ← h2.sshiftRight_eq x]
      exact setWidth_sshiftRight x _ hb
    | _ => cases hz
  · cases hz

/-! ## The operations on the lower word -/

section Word

variable {x y z : BitVec 32}

omit [DecidableEq R] [LawfulMachine R w I] in
/-- The word form reads the low 32 bits only. -/
theorem sets_arith_word (hw : 32 ≤ w) (hz : intArith op x y = some z)
    (hop : binaryOpHas32BitMachineResult op 32 = true) (h1 : (g rs1).setWidth 32 = x)
    (h2 : (g rs2).setWidth 32 = y) (sym : SymbolId → BitVec w) (rd : Register R) :
    Sets sym g (emitBinaryReg op true rd rs1 rs2 : I) rd z := by
  cases op with
  | add =>
    cases hz
    exact ⟨_, LawfulArith.alu_addw .., by rw [setWidth_signExtend _ hw, h1, h2]⟩
  | sub =>
    cases hz
    exact ⟨_, LawfulArith.alu_subw .., by rw [setWidth_signExtend _ hw, h1, h2]⟩
  | mul =>
    cases hz
    exact ⟨_, LawfulArith.alu_mulw .., by rw [setWidth_signExtend _ hw, h1, h2]⟩
  | udiv =>
    simp only [intArith] at hz
    split at hz
    · cases hz
    · next hne =>
      cases hz
      refine ⟨_, LawfulArith.alu_divuw .., ?_⟩
      rw [setWidth_signExtend _ hw, h1, h2, divUnsigned, if_neg hne]
  | sdiv =>
    simp only [intArith] at hz
    split at hz
    · cases hz
    · next hne =>
      cases hz
      refine ⟨_, LawfulArith.alu_divw .., ?_⟩
      rw [setWidth_signExtend _ hw, h1, h2, divSigned, if_neg hne]
  | urem =>
    simp only [intArith] at hz
    split at hz
    · cases hz
    · next hne =>
      cases hz
      refine ⟨_, LawfulArith.alu_remuw .., ?_⟩
      rw [setWidth_signExtend _ hw, h1, h2, remUnsigned, if_neg hne]
  | srem =>
    simp only [intArith] at hz
    split at hz
    · cases hz
    · next hne =>
      cases hz
      refine ⟨_, LawfulArith.alu_remw .., ?_⟩
      rw [setWidth_signExtend _ hw, h1, h2, remSigned, if_neg hne]
  | and | or | xor => cases hop
  | shl | lshr | ashr => cases hz

omit [DecidableEq R] [LawfulMachine R w I] in
/-- So do the shifts. -/
theorem sets_shift_word (hw : 32 ≤ w) (hz : intShift op x n = some z)
    (h1 : (g rs1).setWidth 32 = x) (h2 : (g rs2).toNat % 32 = n) (sym : SymbolId → BitVec w)
    (rd : Register R) : Sets sym g (emitBinaryReg op true rd rs1 rs2 : I) rd z := by
  unfold intShift at hz
  split at hz
  · cases op with
    | shl =>
      cases hz
      exact ⟨_, LawfulArith.alu_sllw .., by rw [setWidth_signExtend _ hw, h1, h2]⟩
    | lshr =>
      cases hz
      exact ⟨_, LawfulArith.alu_srlw .., by rw [setWidth_signExtend _ hw, h1, h2]⟩
    | ashr =>
      cases hz
      exact ⟨_, LawfulArith.alu_sraw .., by rw [setWidth_signExtend _ hw, h1, h2]⟩
    | _ => cases hz
  · cases hz

end Word

/-! ## Both forms -/

/-- The right operand: for a shift, the amount that the instruction takes from the register. -/
def ReadyRight (op : BinaryOpcode) (b : Nat) (r : BitVec w) (y : BitVec c) : Prop :=
  if op.isShift then
    if binaryOpHas32BitMachineResult op b then r.toNat % 32 = y.toNat
    else ShiftsBy op b (r.toNat % w) y.toNat
  else Ready op r (y.setWidth b)

/-- Only operations on 32 bits have a word form. -/
theorem eq_32_of_has32 (h : binaryOpHas32BitMachineResult op b = true) : b = 32 := by
  simp only [binaryOpHas32BitMachineResult, Bool.and_eq_true, decide_eq_true_eq] at h
  exact h.1

omit [DecidableEq R] in
/-- Either form puts the result into its low bits. -/
theorem sets_binary (hb : b ≤ w) {y : BitVec c} (hz : intBinary op x y = some z)
    (h1 : Ready op (g rs1) x) (h2 : ReadyRight op b (g rs2) y) (sym : SymbolId → BitVec w)
    (rd : Register R) :
    Sets sym g (emitBinaryReg op (binaryOpHas32BitMachineResult op b) rd rs1 rs2 : I) rd z := by
  unfold intBinary at hz
  unfold ReadyRight at h2
  cases hword : binaryOpHas32BitMachineResult op b with
  | false =>
    rw [hword] at h2
    split at hz
    · next hshift =>
      rw [if_pos hshift] at h2
      exact sets_shift hb hz hword h1 h2 sym rd
    · next hshift =>
      rw [if_neg hshift] at h2
      split at hz
      · exact sets_arith hb hz hword h1 h2 sym rd
      · cases hz
  | true =>
    rw [hword] at h2
    obtain rfl := eq_32_of_has32 hword
    split at hz
    · next hshift =>
      rw [if_pos hshift] at h2
      exact sets_shift_word hb hz h1.low h2 sym rd
    · next hshift =>
      rw [if_neg hshift] at h2
      split at hz
      · exact sets_arith_word hb hz hword h1.low h2.low sym rd
      · cases hz

end Mir
