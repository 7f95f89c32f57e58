import C0mpiler.Mir.TargetExec
import Mathlib

/-!
# Instructions for arithmetic

The rest of what the lowering of arithmetic asks of a target (`emit_*` of `LoweringTarget`), and
what the instructions do. The `w` forms work on the low 32 bits of their operands and extend the
sign of the result; a 32-bit target emits the plain instruction for them (the default of the trait).
-/

namespace Mir

/-- The instructions that the lowering of arithmetic emits. -/
class ArithTarget (R : outParam Type) (I : Type) [EmitTarget R I] where
  shiftAmtBits : Nat
  emitSub (rd rs1 rs2 : Register R) : I
  emitXor (rd rs1 rs2 : Register R) : I
  emitOr (rd rs1 rs2 : Register R) : I
  emitSll (rd rs1 rs2 : Register R) : I
  emitSrl (rd rs1 rs2 : Register R) : I
  emitSra (rd rs1 rs2 : Register R) : I
  emitSlt (rd rs1 rs2 : Register R) : I
  emitSltu (rd rs1 rs2 : Register R) : I
  emitDiv (rd rs1 rs2 : Register R) : I
  emitDivu (rd rs1 rs2 : Register R) : I
  emitRem (rd rs1 rs2 : Register R) : I
  emitRemu (rd rs1 rs2 : Register R) : I
  emitAddw (rd rs1 rs2 : Register R) : I
  emitSubw (rd rs1 rs2 : Register R) : I
  emitSllw (rd rs1 rs2 : Register R) : I
  emitSrlw (rd rs1 rs2 : Register R) : I
  emitSraw (rd rs1 rs2 : Register R) : I
  emitMulw (rd rs1 rs2 : Register R) : I
  emitDivw (rd rs1 rs2 : Register R) : I
  emitDivuw (rd rs1 rs2 : Register R) : I
  emitRemw (rd rs1 rs2 : Register R) : I
  emitRemuw (rd rs1 rs2 : Register R) : I
  emitXori (rd rs1 : Register R) (imm : Int) : I
  emitOri (rd rs1 : Register R) (imm : Int) : I
  emitSltiu (rd rs1 : Register R) (imm : Int) : I
  emitAddiw (rd rs1 : Register R) (imm : Int) : I
  emitSlliw (rd rs1 : Register R) (imm : Int) : I
  emitSrliw (rd rs1 : Register R) (imm : Int) : I
  emitSraiw (rd rs1 : Register R) (imm : Int) : I

export ArithTarget (shiftAmtBits emitSub emitXor emitOr emitSll emitSrl emitSra emitSlt emitSltu
  emitDiv emitDivu emitRem emitRemu emitAddw emitSubw emitSllw emitSrlw emitSraw emitMulw emitDivw
  emitDivuw emitRemw emitRemuw emitXori emitOri emitSltiu emitAddiw emitSlliw emitSrliw emitSraiw)

/-- Each of these `emit_*` functions gives the instruction it is named after. -/
class LawfulArith (R : outParam Type) (w : outParam Nat) (I : Type) [MachineSemantics R w I]
    [ArithTarget R I] : Prop where
  shiftAmt : 2 ^ shiftAmtBits I = w
  width_cases : w = 32 ∨ w = 64
  alu_sub (rd a b : Register R) (g : Register R → BitVec w) (sym : SymbolId → BitVec w) :
    MachineSemantics.alu (emitSub rd a b : I) g sym = some (rd, g a - g b)
  alu_xor (rd a b : Register R) (g : Register R → BitVec w) (sym : SymbolId → BitVec w) :
    MachineSemantics.alu (emitXor rd a b : I) g sym = some (rd, g a ^^^ g b)
  alu_or (rd a b : Register R) (g : Register R → BitVec w) (sym : SymbolId → BitVec w) :
    MachineSemantics.alu (emitOr rd a b : I) g sym = some (rd, g a ||| g b)
  alu_sll (rd a b : Register R) (g : Register R → BitVec w) (sym : SymbolId → BitVec w) :
    MachineSemantics.alu (emitSll rd a b : I) g sym = some (rd, g a <<< ((g b).toNat % w))
  alu_srl (rd a b : Register R) (g : Register R → BitVec w) (sym : SymbolId → BitVec w) :
    MachineSemantics.alu (emitSrl rd a b : I) g sym = some (rd, g a >>> ((g b).toNat % w))
  alu_sra (rd a b : Register R) (g : Register R → BitVec w) (sym : SymbolId → BitVec w) :
    MachineSemantics.alu (emitSra rd a b : I) g sym = some (rd, (g a).sshiftRight ((g b).toNat % w))
  alu_slt (rd a b : Register R) (g : Register R → BitVec w) (sym : SymbolId → BitVec w) :
    MachineSemantics.alu (emitSlt rd a b : I) g sym = some (rd, boolToReg ((g a).slt (g b)))
  alu_sltu (rd a b : Register R) (g : Register R → BitVec w) (sym : SymbolId → BitVec w) :
    MachineSemantics.alu (emitSltu rd a b : I) g sym = some (rd, boolToReg ((g a).ult (g b)))
  alu_div (rd a b : Register R) (g : Register R → BitVec w) (sym : SymbolId → BitVec w) :
    MachineSemantics.alu (emitDiv rd a b : I) g sym = some (rd, divSigned (g a) (g b))
  alu_divu (rd a b : Register R) (g : Register R → BitVec w) (sym : SymbolId → BitVec w) :
    MachineSemantics.alu (emitDivu rd a b : I) g sym = some (rd, divUnsigned (g a) (g b))
  alu_rem (rd a b : Register R) (g : Register R → BitVec w) (sym : SymbolId → BitVec w) :
    MachineSemantics.alu (emitRem rd a b : I) g sym = some (rd, remSigned (g a) (g b))
  alu_remu (rd a b : Register R) (g : Register R → BitVec w) (sym : SymbolId → BitVec w) :
    MachineSemantics.alu (emitRemu rd a b : I) g sym = some (rd, remUnsigned (g a) (g b))
  alu_xori (rd a : Register R) {imm : Int} (h : FitsImm12 imm) (g : Register R → BitVec w)
      (sym : SymbolId → BitVec w) :
    MachineSemantics.alu (emitXori rd a imm : I) g sym = some (rd, g a ^^^ .ofInt w imm)
  alu_ori (rd a : Register R) {imm : Int} (h : FitsImm12 imm) (g : Register R → BitVec w)
      (sym : SymbolId → BitVec w) :
    MachineSemantics.alu (emitOri rd a imm : I) g sym = some (rd, g a ||| .ofInt w imm)
  alu_sltiu (rd a : Register R) {imm : Int} (h : FitsImm12 imm) (g : Register R → BitVec w)
      (sym : SymbolId → BitVec w) :
    MachineSemantics.alu (emitSltiu rd a imm : I) g sym =
      some (rd, boolToReg ((g a).ult (.ofInt w imm)))
  alu_addw (rd a b : Register R) (g : Register R → BitVec w) (sym : SymbolId → BitVec w) :
    MachineSemantics.alu (emitAddw rd a b : I) g sym =
      some (rd, ((g a).setWidth 32 + (g b).setWidth 32).signExtend w)
  alu_subw (rd a b : Register R) (g : Register R → BitVec w) (sym : SymbolId → BitVec w) :
    MachineSemantics.alu (emitSubw rd a b : I) g sym =
      some (rd, ((g a).setWidth 32 - (g b).setWidth 32).signExtend w)
  alu_sllw (rd a b : Register R) (g : Register R → BitVec w) (sym : SymbolId → BitVec w) :
    MachineSemantics.alu (emitSllw rd a b : I) g sym =
      some (rd, ((g a).setWidth 32 <<< ((g b).toNat % 32)).signExtend w)
  alu_srlw (rd a b : Register R) (g : Register R → BitVec w) (sym : SymbolId → BitVec w) :
    MachineSemantics.alu (emitSrlw rd a b : I) g sym =
      some (rd, ((g a).setWidth 32 >>> ((g b).toNat % 32)).signExtend w)
  alu_sraw (rd a b : Register R) (g : Register R → BitVec w) (sym : SymbolId → BitVec w) :
    MachineSemantics.alu (emitSraw rd a b : I) g sym =
      some (rd, (((g a).setWidth 32).sshiftRight ((g b).toNat % 32)).signExtend w)
  alu_mulw (rd a b : Register R) (g : Register R → BitVec w) (sym : SymbolId → BitVec w) :
    MachineSemantics.alu (emitMulw rd a b : I) g sym =
      some (rd, ((g a).setWidth 32 * (g b).setWidth 32).signExtend w)
  alu_divw (rd a b : Register R) (g : Register R → BitVec w) (sym : SymbolId → BitVec w) :
    MachineSemantics.alu (emitDivw rd a b : I) g sym =
      some (rd, (divSigned ((g a).setWidth 32) ((g b).setWidth 32)).signExtend w)
  alu_divuw (rd a b : Register R) (g : Register R → BitVec w) (sym : SymbolId → BitVec w) :
    MachineSemantics.alu (emitDivuw rd a b : I) g sym =
      some (rd, (divUnsigned ((g a).setWidth 32) ((g b).setWidth 32)).signExtend w)
  alu_remw (rd a b : Register R) (g : Register R → BitVec w) (sym : SymbolId → BitVec w) :
    MachineSemantics.alu (emitRemw rd a b : I) g sym =
      some (rd, (remSigned ((g a).setWidth 32) ((g b).setWidth 32)).signExtend w)
  alu_remuw (rd a b : Register R) (g : Register R → BitVec w) (sym : SymbolId → BitVec w) :
    MachineSemantics.alu (emitRemuw rd a b : I) g sym =
      some (rd, (remUnsigned ((g a).setWidth 32) ((g b).setWidth 32)).signExtend w)
  alu_addiw (rd a : Register R) {imm : Int} (h : FitsImm12 imm) (g : Register R → BitVec w)
      (sym : SymbolId → BitVec w) :
    MachineSemantics.alu (emitAddiw rd a imm : I) g sym =
      some (rd, ((g a).setWidth 32 + .ofInt 32 imm).signExtend w)
  alu_slliw (rd a : Register R) {n : Nat} (h : n < 32) (g : Register R → BitVec w)
      (sym : SymbolId → BitVec w) :
    MachineSemantics.alu (emitSlliw rd a n : I) g sym =
      some (rd, ((g a).setWidth 32 <<< n).signExtend w)
  alu_srliw (rd a : Register R) {n : Nat} (h : n < 32) (g : Register R → BitVec w)
      (sym : SymbolId → BitVec w) :
    MachineSemantics.alu (emitSrliw rd a n : I) g sym =
      some (rd, ((g a).setWidth 32 >>> n).signExtend w)
  alu_sraiw (rd a : Register R) {n : Nat} (h : n < 32) (g : Register R → BitVec w)
      (sym : SymbolId → BitVec w) :
    MachineSemantics.alu (emitSraiw rd a n : I) g sym =
      some (rd, (((g a).setWidth 32).sshiftRight n).signExtend w)

/-! ## The two targets -/

instance : ArithTarget RV64Reg RV64Inst where
  shiftAmtBits := 6
  emitSub := .sub
  emitXor := .xor
  emitOr := .or
  emitSll := .sll
  emitSrl := .srl
  emitSra := .sra
  emitSlt := .slt
  emitSltu := .sltu
  emitDiv := .div
  emitDivu := .divu
  emitRem := .rem
  emitRemu := .remu
  emitAddw := .addw
  emitSubw := .subw
  emitSllw := .sllw
  emitSrlw := .srlw
  emitSraw := .sraw
  emitMulw := .mulw
  emitDivw := .divw
  emitDivuw := .divuw
  emitRemw := .remw
  emitRemuw := .remuw
  emitXori := .xori
  emitOri := .ori
  emitSltiu := .sltiu
  emitAddiw := .addiw
  emitSlliw := .slliw
  emitSrliw := .srliw
  emitSraiw := .sraiw

/-- A target without the `w` forms: the plain instruction stands for each of them. -/
instance : ArithTarget RV32Reg RV32Inst where
  shiftAmtBits := 5
  emitSub := .sub
  emitXor := .xor
  emitOr := .or
  emitSll := .sll
  emitSrl := .srl
  emitSra := .sra
  emitSlt := .slt
  emitSltu := .sltu
  emitDiv := .div
  emitDivu := .divu
  emitRem := .rem
  emitRemu := .remu
  emitXori := .xori
  emitOri := .ori
  emitSltiu := .sltiu
  emitAddw := .add
  emitSubw := .sub
  emitSllw := .sll
  emitSrlw := .srl
  emitSraw := .sra
  emitMulw := .mul
  emitDivw := .div
  emitDivuw := .divu
  emitRemw := .rem
  emitRemuw := .remu
  emitAddiw := .addi
  emitSlliw := .slli
  emitSrliw := .srli
  emitSraiw := .srai

instance : LawfulArith RV64Reg 64 RV64Inst where
  shiftAmt := rfl
  width_cases := Or.inr rfl
  alu_sub _ _ _ _ _ := rfl
  alu_xor _ _ _ _ _ := rfl
  alu_or _ _ _ _ _ := rfl
  alu_sll _ _ _ _ _ := rfl
  alu_srl _ _ _ _ _ := rfl
  alu_sra _ _ _ _ _ := rfl
  alu_slt _ _ _ _ _ := rfl
  alu_sltu _ _ _ _ _ := rfl
  alu_div _ _ _ _ _ := rfl
  alu_divu _ _ _ _ _ := rfl
  alu_rem _ _ _ _ _ := rfl
  alu_remu _ _ _ _ _ := rfl
  alu_xori _ _ _ h _ _ := if_pos h
  alu_ori _ _ _ h _ _ := if_pos h
  alu_sltiu _ _ _ h _ _ := if_pos h
  alu_addw _ _ _ _ _ := rfl
  alu_subw _ _ _ _ _ := rfl
  alu_sllw _ _ _ _ _ := rfl
  alu_srlw _ _ _ _ _ := rfl
  alu_sraw _ _ _ _ _ := rfl
  alu_mulw _ _ _ _ _ := rfl
  alu_divw _ _ _ _ _ := rfl
  alu_divuw _ _ _ _ _ := rfl
  alu_remw _ _ _ _ _ := rfl
  alu_remuw _ _ _ _ _ := rfl
  alu_addiw _ _ _ h _ _ := if_pos h
  alu_slliw _ _ _ h _ _ := if_pos (fitsShamt_natCast h)
  alu_srliw _ _ _ h _ _ := if_pos (fitsShamt_natCast h)
  alu_sraiw _ _ _ h _ _ := if_pos (fitsShamt_natCast h)

instance : LawfulArith RV32Reg 32 RV32Inst where
  shiftAmt := rfl
  width_cases := Or.inl rfl
  alu_sub _ _ _ _ _ := rfl
  alu_xor _ _ _ _ _ := rfl
  alu_or _ _ _ _ _ := rfl
  alu_sll _ _ _ _ _ := rfl
  alu_srl _ _ _ _ _ := rfl
  alu_sra _ _ _ _ _ := rfl
  alu_slt _ _ _ _ _ := rfl
  alu_sltu _ _ _ _ _ := rfl
  alu_div _ _ _ _ _ := rfl
  alu_divu _ _ _ _ _ := rfl
  alu_rem _ _ _ _ _ := rfl
  alu_remu _ _ _ _ _ := rfl
  alu_xori _ _ _ h _ _ := if_pos h
  alu_ori _ _ _ h _ _ := if_pos h
  alu_sltiu _ _ _ h _ _ := if_pos h
  alu_addw _ _ _ _ _ := by simp only [BitVec.setWidth_eq, BitVec.signExtend_eq]; rfl
  alu_subw _ _ _ _ _ := by simp only [BitVec.setWidth_eq, BitVec.signExtend_eq]; rfl
  alu_sllw _ _ _ _ _ := by simp only [BitVec.setWidth_eq, BitVec.signExtend_eq]; rfl
  alu_srlw _ _ _ _ _ := by simp only [BitVec.setWidth_eq, BitVec.signExtend_eq]; rfl
  alu_sraw _ _ _ _ _ := by simp only [BitVec.setWidth_eq, BitVec.signExtend_eq]; rfl
  alu_mulw _ _ _ _ _ := by simp only [BitVec.setWidth_eq, BitVec.signExtend_eq]; rfl
  alu_divw _ _ _ _ _ := by simp only [BitVec.setWidth_eq, BitVec.signExtend_eq]; rfl
  alu_divuw _ _ _ _ _ := by simp only [BitVec.setWidth_eq, BitVec.signExtend_eq]; rfl
  alu_remw _ _ _ _ _ := by simp only [BitVec.setWidth_eq, BitVec.signExtend_eq]; rfl
  alu_remuw _ _ _ _ _ := by simp only [BitVec.setWidth_eq, BitVec.signExtend_eq]; rfl
  alu_addiw _ _ _ h _ _ := by
    simp only [BitVec.setWidth_eq, BitVec.signExtend_eq]
    exact if_pos h
  alu_slliw _ _ _ h _ _ := by
    simp only [BitVec.setWidth_eq, BitVec.signExtend_eq]
    exact if_pos (fitsShamt_natCast h)
  alu_srliw _ _ _ h _ _ := by
    simp only [BitVec.setWidth_eq, BitVec.signExtend_eq]
    exact if_pos (fitsShamt_natCast h)
  alu_sraiw _ _ _ h _ _ := by
    simp only [BitVec.setWidth_eq, BitVec.signExtend_eq]
    exact if_pos (fitsShamt_natCast h)

end Mir
