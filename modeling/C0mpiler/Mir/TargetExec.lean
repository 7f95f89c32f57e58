import C0mpiler.Mir.Exec
import C0mpiler.Mir.Rv64i
import C0mpiler.Mir.Rv32im
import Mathlib

/-!
# The two targets as machines

What the instructions of RV64IM and RV32IM that compute on registers do, after the instruction
set: a shift takes the low bits of its second register as its amount, a division by zero gives
all ones and a remainder by zero its first operand, and the `w` instructions of RV64 work on the
low halves and extend the sign of the result.
-/

namespace Mir

/-- `div`, at any width. -/
def divSigned {w : Nat} (a b : BitVec w) : BitVec w :=
  if b = 0 then BitVec.allOnes w else a.sdiv b

/-- `divu` by zero gives all ones. -/
def divUnsigned {w : Nat} (a b : BitVec w) : BitVec w :=
  if b = 0 then BitVec.allOnes w else a / b

/-- `rem` by zero gives the dividend. -/
def remSigned {w : Nat} (a b : BitVec w) : BitVec w :=
  if b = 0 then a else a.srem b

/-- `remu` by zero gives the dividend. -/
def remUnsigned {w : Nat} (a b : BitVec w) : BitVec w :=
  if b = 0 then a else a % b

/-- The bit that a comparison writes. -/
def boolToReg {w : Nat} (b : Bool) : BitVec w :=
  if b then 1 else 0

/-- The operand of a `w` instruction. -/
def low32 (x : BitVec 64) : BitVec 32 :=
  x.setWidth 32

/-- The result of a `w` instruction. -/
def sext32 (x : BitVec 32) : BitVec 64 :=
  x.signExtend 64

/-- A shift amount that the immediate field of a `w`-bit shift can hold. -/
def FitsShamt (w : Nat) (imm : Int) : Prop :=
  0 ≤ imm ∧ imm < w

instance (w : Nat) (imm : Int) : Decidable (FitsShamt w imm) :=
  inferInstanceAs (Decidable (_ ∧ _))

/-- Amounts below the width fit. -/
theorem fitsShamt_natCast {w n : Nat} (h : n < w) : FitsShamt w (n : Int) :=
  ⟨Int.natCast_nonneg n, by exact_mod_cast h⟩

namespace RV64Inst

/-- The arithmetic of RV64: immediates out of range have no meaning. -/
def alu (i : RV64Inst) (g : Reg → BitVec 64) (sym : SymbolId → BitVec 64) :
    Option (Reg × BitVec 64) :=
  match i with
  | .add rd a b => some (rd, g a + g b)
  | .sub rd a b => some (rd, g a - g b)
  | .addw rd a b => some (rd, sext32 (low32 (g a) + low32 (g b)))
  | .subw rd a b => some (rd, sext32 (low32 (g a) - low32 (g b)))
  | .xor rd a b => some (rd, g a ^^^ g b)
  | .or rd a b => some (rd, g a ||| g b)
  | .and rd a b => some (rd, g a &&& g b)
  | .sll rd a b => some (rd, g a <<< ((g b).toNat % 64))
  | .srl rd a b => some (rd, g a >>> ((g b).toNat % 64))
  | .sra rd a b => some (rd, (g a).sshiftRight ((g b).toNat % 64))
  | .sllw rd a b => some (rd, sext32 (low32 (g a) <<< ((g b).toNat % 32)))
  | .srlw rd a b => some (rd, sext32 (low32 (g a) >>> ((g b).toNat % 32)))
  | .sraw rd a b => some (rd, sext32 ((low32 (g a)).sshiftRight ((g b).toNat % 32)))
  | .slt rd a b => some (rd, boolToReg ((g a).slt (g b)))
  | .sltu rd a b => some (rd, boolToReg ((g a).ult (g b)))
  | .addi rd a imm => if FitsImm12 imm then some (rd, g a + .ofInt 64 imm) else none
  | .addiw rd a imm =>
    if FitsImm12 imm then some (rd, sext32 (low32 (g a) + .ofInt 32 imm)) else none
  | .xori rd a imm => if FitsImm12 imm then some (rd, g a ^^^ .ofInt 64 imm) else none
  | .ori rd a imm => if FitsImm12 imm then some (rd, g a ||| .ofInt 64 imm) else none
  | .andi rd a imm => if FitsImm12 imm then some (rd, g a &&& .ofInt 64 imm) else none
  | .slli rd a imm => if FitsShamt 64 imm then some (rd, g a <<< imm.toNat) else none
  | .srli rd a imm => if FitsShamt 64 imm then some (rd, g a >>> imm.toNat) else none
  | .srai rd a imm => if FitsShamt 64 imm then some (rd, (g a).sshiftRight imm.toNat) else none
  | .slliw rd a imm =>
    if FitsShamt 32 imm then some (rd, sext32 (low32 (g a) <<< imm.toNat)) else none
  | .srliw rd a imm =>
    if FitsShamt 32 imm then some (rd, sext32 (low32 (g a) >>> imm.toNat)) else none
  | .sraiw rd a imm =>
    if FitsShamt 32 imm then some (rd, sext32 ((low32 (g a)).sshiftRight imm.toNat)) else none
  | .slti rd a imm =>
    if FitsImm12 imm then some (rd, boolToReg ((g a).slt (.ofInt 64 imm))) else none
  | .sltiu rd a imm =>
    if FitsImm12 imm then some (rd, boolToReg ((g a).ult (.ofInt 64 imm))) else none
  | .mul rd a b => some (rd, g a * g b)
  | .mulw rd a b => some (rd, sext32 (low32 (g a) * low32 (g b)))
  | .div rd a b => some (rd, divSigned (g a) (g b))
  | .divu rd a b => some (rd, divUnsigned (g a) (g b))
  | .rem rd a b => some (rd, remSigned (g a) (g b))
  | .remu rd a b => some (rd, remUnsigned (g a) (g b))
  | .divw rd a b => some (rd, sext32 (divSigned (low32 (g a)) (low32 (g b))))
  | .divuw rd a b => some (rd, sext32 (divUnsigned (low32 (g a)) (low32 (g b))))
  | .remw rd a b => some (rd, sext32 (remSigned (low32 (g a)) (low32 (g b))))
  | .remuw rd a b => some (rd, sext32 (remUnsigned (low32 (g a)) (low32 (g b))))
  | .mv rd a => some (rd, g a)
  | .li rd imm => some (rd, .ofInt 64 imm)
  | .la rd s => some (rd, sym s)
  | _ => none

/-- Its branches; `jal zero` is always taken. -/
def branch (i : RV64Inst) (g : Reg → BitVec 64) : Option (Option BlockId) :=
  match i with
  | .beq a b l => some (if g a = g b then some l else none)
  | .bne a b l => some (if g a = g b then none else some l)
  | .blt a b l => some (if (g a).slt (g b) then some l else none)
  | .bge a b l => some (if (g a).slt (g b) then none else some l)
  | .bltu a b l => some (if (g a).ult (g b) then some l else none)
  | .bgeu a b l => some (if (g a).ult (g b) then none else some l)
  | .jal (.physical .zero) l => some (some l)
  | _ => none

instance : MachineSemantics RV64Reg 64 RV64Inst where
  zeroReg := .zero
  numArgRegs := 8
  argReg index := argRegs.getD index .a7
  stackArgOffset stackIndex := stackIndex * 8
  mv := .mv
  loadImm := .li
  emitLoadSymbolAddr := .la
  emitLoadIncomingArg := .loadIncomingArg
  emitAdd := .add
  emitMul := .mul
  emitAnd := .and
  emitAddi := .addi
  emitAndi := .andi
  emitSlli := .slli
  emitSrli := .srli
  emitSrai := .srai
  emitBranchEq := .beq
  emitBranchNe := .bne
  emitBranchLt := .blt
  emitBranchGe := .bge
  emitBranchLtu := .bltu
  emitBranchGeu := .bgeu
  emitJump := .jal (.physical .zero)
  alu := alu
  branch := branch

instance : LawfulMachine RV64Reg 64 RV64Inst where
  width := rfl
  width_le := by decide
  alu_mv _ _ _ _ := rfl
  alu_loadImm _ _ _ _ := rfl
  alu_loadSymbolAddr _ _ _ _ := rfl
  alu_add _ _ _ _ _ := rfl
  alu_mul _ _ _ _ _ := rfl
  alu_and _ _ _ _ _ := rfl
  alu_addi _ _ _ h _ _ := if_pos h
  alu_andi _ _ _ h _ _ := if_pos h
  alu_slli _ _ _ h _ _ := if_pos (fitsShamt_natCast h)
  alu_srli _ _ _ h _ _ := if_pos (fitsShamt_natCast h)
  alu_srai _ _ _ h _ _ := if_pos (fitsShamt_natCast h)
  branch_eq _ _ _ _ := rfl
  branch_ne _ _ _ _ := rfl
  branch_lt _ _ _ _ := rfl
  branch_ge _ _ _ _ := rfl
  branch_ltu _ _ _ _ := rfl
  branch_geu _ _ _ _ := rfl
  branch_jump _ _ := rfl
  alu_branch {i g t} sym h := by
    cases i with
    | beq | bne | blt | bge | bltu | bgeu | jal => rfl
    | _ => cases h

end RV64Inst

namespace RV32Inst

/-- The arithmetic of RV32. -/
def alu (i : RV32Inst) (g : Reg → BitVec 32) (sym : SymbolId → BitVec 32) :
    Option (Reg × BitVec 32) :=
  match i with
  | .add rd a b => some (rd, g a + g b)
  | .sub rd a b => some (rd, g a - g b)
  | .xor rd a b => some (rd, g a ^^^ g b)
  | .or rd a b => some (rd, g a ||| g b)
  | .and rd a b => some (rd, g a &&& g b)
  | .sll rd a b => some (rd, g a <<< ((g b).toNat % 32))
  | .srl rd a b => some (rd, g a >>> ((g b).toNat % 32))
  | .sra rd a b => some (rd, (g a).sshiftRight ((g b).toNat % 32))
  | .slt rd a b => some (rd, boolToReg ((g a).slt (g b)))
  | .sltu rd a b => some (rd, boolToReg ((g a).ult (g b)))
  | .addi rd a imm => if FitsImm12 imm then some (rd, g a + .ofInt 32 imm) else none
  | .xori rd a imm => if FitsImm12 imm then some (rd, g a ^^^ .ofInt 32 imm) else none
  | .ori rd a imm => if FitsImm12 imm then some (rd, g a ||| .ofInt 32 imm) else none
  | .andi rd a imm => if FitsImm12 imm then some (rd, g a &&& .ofInt 32 imm) else none
  | .slli rd a imm => if FitsShamt 32 imm then some (rd, g a <<< imm.toNat) else none
  | .srli rd a imm => if FitsShamt 32 imm then some (rd, g a >>> imm.toNat) else none
  | .srai rd a imm => if FitsShamt 32 imm then some (rd, (g a).sshiftRight imm.toNat) else none
  | .slti rd a imm =>
    if FitsImm12 imm then some (rd, boolToReg ((g a).slt (.ofInt 32 imm))) else none
  | .sltiu rd a imm =>
    if FitsImm12 imm then some (rd, boolToReg ((g a).ult (.ofInt 32 imm))) else none
  | .mul rd a b => some (rd, g a * g b)
  | .div rd a b => some (rd, divSigned (g a) (g b))
  | .divu rd a b => some (rd, divUnsigned (g a) (g b))
  | .rem rd a b => some (rd, remSigned (g a) (g b))
  | .remu rd a b => some (rd, remUnsigned (g a) (g b))
  | .mv rd a => some (rd, g a)
  | .li rd imm => some (rd, .ofInt 32 imm)
  | .la rd s => some (rd, sym s)
  | _ => none

/-- Its branches. -/
def branch (i : RV32Inst) (g : Reg → BitVec 32) : Option (Option BlockId) :=
  match i with
  | .beq a b l => some (if g a = g b then some l else none)
  | .bne a b l => some (if g a = g b then none else some l)
  | .blt a b l => some (if (g a).slt (g b) then some l else none)
  | .bge a b l => some (if (g a).slt (g b) then none else some l)
  | .bltu a b l => some (if (g a).ult (g b) then some l else none)
  | .bgeu a b l => some (if (g a).ult (g b) then none else some l)
  | .jal (.physical .zero) l => some (some l)
  | _ => none

instance : MachineSemantics RV32Reg 32 RV32Inst where
  zeroReg := .zero
  numArgRegs := 8
  argReg index := argRegs.getD index .a7
  stackArgOffset stackIndex := stackIndex * 4
  mv := .mv
  loadImm := .li
  emitLoadSymbolAddr := .la
  emitLoadIncomingArg := .loadIncomingArg
  emitAdd := .add
  emitMul := .mul
  emitAnd := .and
  emitAddi := .addi
  emitAndi := .andi
  emitSlli := .slli
  emitSrli := .srli
  emitSrai := .srai
  emitBranchEq := .beq
  emitBranchNe := .bne
  emitBranchLt := .blt
  emitBranchGe := .bge
  emitBranchLtu := .bltu
  emitBranchGeu := .bgeu
  emitJump := .jal (.physical .zero)
  alu := alu
  branch := branch

instance : LawfulMachine RV32Reg 32 RV32Inst where
  width := rfl
  width_le := by decide
  alu_mv _ _ _ _ := rfl
  alu_loadImm _ _ _ _ := rfl
  alu_loadSymbolAddr _ _ _ _ := rfl
  alu_add _ _ _ _ _ := rfl
  alu_mul _ _ _ _ _ := rfl
  alu_and _ _ _ _ _ := rfl
  alu_addi _ _ _ h _ _ := if_pos h
  alu_andi _ _ _ h _ _ := if_pos h
  alu_slli _ _ _ h _ _ := if_pos (fitsShamt_natCast h)
  alu_srli _ _ _ h _ _ := if_pos (fitsShamt_natCast h)
  alu_srai _ _ _ h _ _ := if_pos (fitsShamt_natCast h)
  branch_eq _ _ _ _ := rfl
  branch_ne _ _ _ _ := rfl
  branch_lt _ _ _ _ := rfl
  branch_ge _ _ _ _ := rfl
  branch_ltu _ _ _ _ := rfl
  branch_geu _ _ _ _ := rfl
  branch_jump _ _ := rfl
  alu_branch {i g t} sym h := by
    cases i with
    | beq | bne | blt | bge | bltu | bgeu | jal => rfl
    | _ => cases h

end RV32Inst

end Mir
