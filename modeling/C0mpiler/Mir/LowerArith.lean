import C0mpiler.Mir.ArithTarget
import C0mpiler.Mir.LowerFunction
import C0mpiler.Mir.LowerGep
import C0mpiler.Ir.IntArith
import Mathlib

/-!
# Lowering arithmetic

`lower_instruction` for binary operations, comparisons, selects and conversions (`lower.rs`), with
the helpers that expand a multiplication, a division or a remainder by a constant. A helper that
does not apply is `none` (`false` in the source) and has emitted nothing.
-/

namespace Mir

open Ir (ModuleCore ValueId InstRef BinaryOpcode ICmpCode CoreInt Ty)

section Model

variable {R I : Type} [DecidableEq R] [EmitTarget R I] [ArithTarget R I] (m : ModuleCore)
  (symbols : HashMap String SymbolId) (S : FunctionLoweringState)

/-- `emit_copy_or_move`. -/
def emitCopyOrMove (dst src : Register R) (e : Emitter I) : Emitter I :=
  if dst ≠ src then e.push (mv dst src) else e

/-- `emit_const_int`. -/
def emitConstInt (rd : Register R) (value : Int) (e : Emitter I) : Emitter I :=
  if value = 0 then emitCopyOrMove rd (zeroOperand I) e else e.push (loadImm rd value)

/-- Whether a 32-bit operation has a `w` form on the target. -/
def usesWordForm (I : Type) [EmitTarget R I] (resultBits : Nat) : Bool :=
  resultBits = 32 && LoweringTarget.wordSize I = 8

/-- `emit_shl`, in words where the target has such a form. -/
def emitShl (resultBits : Nat) (rd rs : Register R) (shift : Int) : I :=
  if usesWordForm I resultBits then emitSlliw rd rs shift else emitSlli rd rs shift

/-- `emit_lshr`. -/
def emitLshr (resultBits : Nat) (rd rs : Register R) (shift : Int) : I :=
  if usesWordForm I resultBits then emitSrliw rd rs shift else emitSrli rd rs shift

/-- `emit_ashr`. -/
def emitAshr (resultBits : Nat) (rd rs : Register R) (shift : Int) : I :=
  if usesWordForm I resultBits then emitSraiw rd rs shift else emitSrai rd rs shift

/-- `emit_mul_const`: powers of two become shifts. -/
def emitMulConst (rd rs : Register R) (imm : Int) (resultBits : Nat) (e : Emitter I) :
    Option (Emitter I) :=
  if imm = 0 then some (emitConstInt rd 0 e)
  else if imm = 1 then some (emitCopyOrMove rd rs e)
  else if imm = -1 then some (e.push (emitSub rd (zeroOperand I) rs))
  else if isPowerOfTwo imm.natAbs then
    let shift : Nat := imm.natAbs.log2
    if imm < 0 then
      let tmp := .virtual e.vregCounter
      some ((e.newVreg.push (emitShl resultBits tmp rs shift)).push (emitSub rd (zeroOperand I) tmp))
    else some (e.push (emitShl resultBits rd rs shift))
  else none

/-- `imm as u32`. -/
def asU32 (imm : Int) : Nat :=
  (imm % 2 ^ 32).toNat

/-- `emit_udiv_const`. -/
def emitUdivConst (rd rs : Register R) (imm resultBits : Nat) (e : Emitter I) :
    Option (Emitter I) :=
  if imm = 0 then none
  else if imm = 1 then some (emitCopyOrMove rd rs e)
  else if isPowerOfTwo imm then some (e.push (emitLshr resultBits rd rs imm.log2))
  else none

/-- `emit_urem_const`. -/
def emitUremConst (rd rs : Register R) (imm : Nat) (e : Emitter I) : Option (Emitter I) :=
  if imm = 0 then none
  else if imm = 1 then some (emitConstInt rd 0 e)
  else if isPowerOfTwo imm then
    let (masked, e) := emitMaskedValue rs imm.log2 e
    some (emitCopyOrMove rd masked e)
  else none

/-- The quotient by `2 ^ shift`: the dividend plus the bias, shifted to the right. -/
def emitBiasedShift (quotient rs sign biased : Register R) (shift resultBits : Nat)
    (e : Emitter I) : Emitter I :=
  let e := e.push (emitAshr resultBits sign rs (resultBits - 1 : Nat))
  let e := e.push (emitSrli sign sign (regBits I - shift : Nat))
  let e := e.push (emitAdd biased rs sign)
  e.push (emitAshr resultBits quotient biased shift)

/-- `emit_sdiv_const`: a negative dividend is rounded towards zero. -/
def emitSdivConst (rd rs : Register R) (imm : Int) (resultBits : Nat) (e : Emitter I) :
    Option (Emitter I) :=
  if imm = 0 ∨ imm = -2 ^ 31 then none
  else if imm = 1 then some (emitCopyOrMove rd rs e)
  else if imm = -1 then some (e.push (emitSub rd (zeroOperand I) rs))
  else if isPowerOfTwo imm.natAbs then
    let shift := imm.natAbs.log2
    let sign := .virtual e.vregCounter
    let biased := .virtual (e.vregCounter + 1)
    let e := e.newVreg.newVreg
    if imm < 0 then
      let quotient := .virtual e.vregCounter
      let e := emitBiasedShift quotient rs sign biased shift resultBits e.newVreg
      some (e.push (emitSub rd (zeroOperand I) quotient))
    else some (emitBiasedShift rd rs sign biased shift resultBits e)
  else none

/-- `emit_mul_reg`. -/
def emitMulReg (resultBits : Nat) (rd rs1 rs2 : Register R) : I :=
  if usesWordForm I resultBits then emitMulw rd rs1 rs2 else emitMul rd rs1 rs2

/-- `emit_srem_const`: what the division leaves. -/
def emitSremConst (rd rs : Register R) (imm : Int) (resultBits : Nat) (e : Emitter I) :
    Option (Emitter I) := do
  if imm = 0 ∨ imm = -2 ^ 31 then none
  else if imm.natAbs = 1 then some (emitConstInt rd 0 e)
  else if isPowerOfTwo imm.natAbs then
    let quotient := .virtual e.vregCounter
    let e ← emitSdivConst quotient rs imm resultBits e.newVreg
    let product := .virtual e.vregCounter
    let e := e.newVreg
    match emitMulConst product quotient imm resultBits e with
    | some e => some (e.push (emitSub rd rs product))
    | none =>
      let immReg := .virtual e.vregCounter
      let e := e.newVreg.push (loadImm immReg imm)
      let e := e.push (emitMulReg resultBits product quotient immReg)
      some (e.push (emitSub rd rs product))
  else none

/-- `binary_operands_are_signed`. -/
def binaryOperandsAreSigned : BinaryOpcode → Bool
  | .sdiv | .srem | .ashr => true
  | _ => false

/-- `binary_result_is_signed`. -/
def binaryResultIsSigned : BinaryOpcode → Bool
  | .add | .sub | .mul | .sdiv | .srem | .ashr => true
  | _ => false

/-- Every opcode is listed. -/
def binaryResultNeedsNormalization : BinaryOpcode → Bool
  | .add | .sub | .mul | .udiv | .sdiv | .urem | .srem | .shl | .lshr | .ashr
  | .and | .or | .xor => true

/-- `binary_op_has_32bit_machine_result`. -/
def binaryOpHas32BitMachineResult (op : BinaryOpcode) (bits : Nat) : Bool :=
  bits = 32 &&
    match op with
    | .add | .sub | .mul | .udiv | .sdiv | .urem | .srem | .shl | .lshr | .ashr => true
    | .and | .or | .xor => false

/-- An operation on two registers. -/
def emitBinaryReg (op : BinaryOpcode) (has32 : Bool) (rd rs1 rs2 : Register R) : I :=
  match op, has32 with
  | .add, true => emitAddw rd rs1 rs2
  | .add, false => emitAdd rd rs1 rs2
  | .sub, true => emitSubw rd rs1 rs2
  | .sub, false => emitSub rd rs1 rs2
  | .mul, true => emitMulw rd rs1 rs2
  | .mul, false => emitMul rd rs1 rs2
  | .udiv, true => emitDivuw rd rs1 rs2
  | .udiv, false => emitDivu rd rs1 rs2
  | .sdiv, true => emitDivw rd rs1 rs2
  | .sdiv, false => emitDiv rd rs1 rs2
  | .urem, true => emitRemuw rd rs1 rs2
  | .urem, false => emitRemu rd rs1 rs2
  | .srem, true => emitRemw rd rs1 rs2
  | .srem, false => emitRem rd rs1 rs2
  | .and, _ => emitAnd rd rs1 rs2
  | .or, _ => emitOr rd rs1 rs2
  | .xor, _ => emitXor rd rs1 rs2
  | .shl, true => emitSllw rd rs1 rs2
  | .shl, false => emitSll rd rs1 rs2
  | .lshr, true => emitSrlw rd rs1 rs2
  | .lshr, false => emitSrl rd rs1 rs2
  | .ashr, true => emitSraw rd rs1 rs2
  | .ashr, false => emitSra rd rs1 rs2

/-- The expansion of a multiplication, a division or a remainder by a constant, or else the
operation on the constant in a register. -/
def emitExpanded (op : BinaryOpcode) (has32 : Bool) (rd rs1 : Register R) (imm : Int)
    (expanded : Option (Emitter I)) (e : Emitter I) : Emitter I :=
  match expanded with
  | some e => e
  | none =>
    let immReg := .virtual e.vregCounter
    (e.newVreg.push (loadImm immReg imm)).push (emitBinaryReg op has32 rd rs1 immReg)

/-- The operation with a constant as its right operand; `none` where it is left to the code for two
registers. -/
def emitBinaryConst (op : BinaryOpcode) (has32 : Bool) (rd rs1 : Register R) (imm : Int)
    (resultBits : Nat) (e : Emitter I) : Option (Emitter I) :=
  match op with
  | .add =>
    if FitsImm12 imm then
      some (e.push (if has32 then emitAddiw rd rs1 imm else emitAddi rd rs1 imm))
    else none
  | .sub =>
    if imm ≠ -2 ^ 31 ∧ FitsImm12 (-imm) then
      some (e.push (if has32 then emitAddiw rd rs1 (-imm) else emitAddi rd rs1 (-imm)))
    else none
  | .mul => some (emitExpanded op has32 rd rs1 imm (emitMulConst rd rs1 imm resultBits e) e)
  | .udiv =>
    some (emitExpanded op has32 rd rs1 imm (emitUdivConst rd rs1 (asU32 imm) resultBits e) e)
  | .sdiv => some (emitExpanded op has32 rd rs1 imm (emitSdivConst rd rs1 imm resultBits e) e)
  | .urem => some (emitExpanded op has32 rd rs1 imm (emitUremConst rd rs1 (asU32 imm) e) e)
  | .srem => some (emitExpanded op has32 rd rs1 imm (emitSremConst rd rs1 imm resultBits e) e)
  | .shl =>
    if 0 ≤ imm ∧ imm < 2 ^ shiftAmtBits I then
      some (e.push (if has32 then emitSlliw rd rs1 imm else emitSlli rd rs1 imm))
    else none
  | .lshr =>
    if 0 ≤ imm ∧ imm < 2 ^ shiftAmtBits I then
      some (e.push (if has32 then emitSrliw rd rs1 imm else emitSrli rd rs1 imm))
    else none
  | .ashr =>
    if 0 ≤ imm ∧ imm < 2 ^ shiftAmtBits I then
      some (e.push (if has32 then emitSraiw rd rs1 imm else emitSrai rd rs1 imm))
    else none
  | .and => if FitsImm12 imm then some (e.push (emitAndi rd rs1 imm)) else none
  | .or => if FitsImm12 imm then some (e.push (emitOri rd rs1 imm)) else none
  | .xor => if FitsImm12 imm then some (e.push (emitXori rd rs1 imm)) else none

/-- Operands of operations without a `w` form are normalised. -/
def normalizeBinaryOperand (op : BinaryOpcode) (has32 : Bool) (value : ValueId) (rs : Register R)
    (bits : Nat) (e : Emitter I) : Option (Register R × Emitter I) :=
  if has32 then some (rs, e)
  else emitNormalizedIntOperand m value rs bits (binaryOperandsAreSigned op) e

/-- Where the operation puts its result before it is normalised. -/
def rawResult (op : BinaryOpcode) (has32 : Bool) (rd : Register R) (e : Emitter I) :
    Register R × Emitter I :=
  if binaryResultNeedsNormalization op ∧ !has32 then (.virtual e.vregCounter, e.newVreg)
  else (rd, e)

/-- The normalised result. -/
def finishBinary (op : BinaryOpcode) (has32 : Bool) (rd raw : Register R) (resultBits : Nat)
    (e : Emitter I) : Emitter I :=
  if binaryResultNeedsNormalization op ∧ !has32 then
    let (normalized, e) := emitNormalizedIntValue raw resultBits (binaryResultIsSigned op) e
    emitCopyOrMove rd normalized e
  else e

/-- The register of the result, and the state behind the code. -/
abbrev Lowered (I : Type) : Type :=
  VRegId × FunctionLoweringState × Emitter I

/-- A binary operation whose right operand is in a register. -/
def lowerBinaryReg (inst : InstRef) (op : BinaryOpcode) (has32 : Bool) (rs1 : Register R)
    (rhs : ValueId) (operandBits resultBits : Nat) (e : Emitter I) : Option (Lowered I) := do
  let (rs2, e) ← lowerOperand m symbols S rhs e
  let rhsBits := (← intBitsForValue m rhs).getD operandBits
  let (rs2, e) ← normalizeBinaryOperand m op has32 rhs rs2 rhsBits e
  let (rd, S, e) := ensureInstVreg S inst e
  let (raw, e) := rawResult op has32 (.virtual rd) e
  let e := e.push (emitBinaryReg op has32 raw rs1 rs2)
  some (rd, S, finishBinary op has32 (.virtual rd) raw resultBits e)

/-- `lower_binary`. -/
def lowerBinary (inst : InstRef) (op : BinaryOpcode) (lhs rhs : ValueId) (e : Emitter I) :
    Option (Lowered I) := do
  let resultBits := (← intBitsForValue m (.inst inst)).getD (regBits I)
  let operandBits := (← intBitsForValue m lhs).getD resultBits
  let has32 := binaryOpHas32BitMachineResult op resultBits
  let (rs1, e) ← lowerOperand m symbols S lhs e
  let (rs1, e) ← normalizeBinaryOperand m op has32 lhs rs1 operandBits e
  match ← constInt m rhs with
  | some number =>
    let (rd, S, e) := ensureInstVreg S inst e
    let (raw, e) := rawResult op has32 (.virtual rd) e
    match emitBinaryConst op has32 raw rs1 (asI32 number.asI64) resultBits e with
    | some e => some (rd, S, finishBinary op has32 (.virtual rd) raw resultBits e)
    | none => lowerBinaryReg m symbols S inst op has32 rs1 rhs operandBits resultBits e
  | none => lowerBinaryReg m symbols S inst op has32 rs1 rhs operandBits resultBits e

/-! ## Comparisons, selects and conversions -/

/-- The negation of a comparison that is in a register of its own. -/
def emitNegated (rd : Register R) (test : Register R → I) (e : Emitter I) : Emitter I :=
  let tmp := .virtual e.vregCounter
  (e.newVreg.push (test tmp)).push (emitXori rd tmp 1)

/-- `emit_icmp`. -/
def emitIcmp (icmpCode : ICmpCode) (rd rs1 rs2 : Register R) (e : Emitter I) : Emitter I :=
  match icmpCode with
  | .eq =>
    if rs1 = zeroOperand I then e.push (emitSltiu rd rs2 1)
    else if rs2 = zeroOperand I then e.push (emitSltiu rd rs1 1)
    else
      let tmp := .virtual e.vregCounter
      (e.newVreg.push (emitXor tmp rs1 rs2)).push (emitSltiu rd tmp 1)
  | .ne =>
    if rs1 = zeroOperand I then e.push (emitSltu rd (zeroOperand I) rs2)
    else if rs2 = zeroOperand I then e.push (emitSltu rd (zeroOperand I) rs1)
    else
      let tmp := .virtual e.vregCounter
      (e.newVreg.push (emitXor tmp rs1 rs2)).push (emitSltu rd (zeroOperand I) tmp)
  | .ugt => e.push (emitSltu rd rs2 rs1)
  | .uge => emitNegated rd (fun tmp => emitSltu tmp rs1 rs2) e
  | .ult => e.push (emitSltu rd rs1 rs2)
  | .ule => emitNegated rd (fun tmp => emitSltu tmp rs2 rs1) e
  | .sgt => e.push (emitSlt rd rs2 rs1)
  | .sge => emitNegated rd (fun tmp => emitSlt tmp rs1 rs2) e
  | .slt => e.push (emitSlt rd rs1 rs2)
  | .sle => emitNegated rd (fun tmp => emitSlt tmp rs2 rs1) e

/-- A comparison; one that only branches use is left to them. -/
def lowerIcmp (inst : InstRef) (icmpCode : ICmpCode) (lhs rhs : ValueId) (e : Emitter I) :
    Option (Option VRegId × FunctionLoweringState × Emitter I) := do
  if ← icmpIsOnlyBranchCond m inst then some (none, S, e)
  else
    let (rs1, rs2, e) ← lowerIcmpOperands m symbols S lhs rhs icmpCode e
    let (rd, S, e) := ensureInstVreg S inst e
    some (some rd, S, emitIcmp icmpCode (.virtual rd) rs1 rs2 e)

/-- `lower_select`. -/
def lowerSelect (inst : InstRef) (cond thenVal elseVal : ValueId) (e : Emitter I) :
    Option (Lowered I) := do
  let (cond, e) ← lowerOperand m symbols S cond e
  let (trueVal, e) ← lowerOperand m symbols S thenVal e
  let (falseVal, e) ← lowerOperand m symbols S elseVal e
  let mask1 := .virtual e.vregCounter
  let mask2 := .virtual (e.vregCounter + 1)
  let e := e.newVreg.newVreg
  let e := e.push (emitSub mask1 (zeroOperand I) cond)
  let e := e.push (emitXori mask2 mask1 (-1))
  let truePart := .virtual e.vregCounter
  let falsePart := .virtual (e.vregCounter + 1)
  let e := e.newVreg.newVreg
  let e := e.push (emitAnd truePart trueVal mask1)
  let e := e.push (emitAnd falsePart falseVal mask2)
  let (rd, S, e) := ensureInstVreg S inst e
  some (rd, S, e.push (emitOr (.virtual rd) truePart falsePart))

/-- The register of a conversion gets `src`. -/
def finishConversion (inst : InstRef) (src : Register R) (e : Emitter I) : Lowered I :=
  let (rd, S, e) := ensureInstVreg S inst e
  (rd, S, if src ≠ .virtual rd then e.push (mv (.virtual rd) src) else e)

/-- `lower_trunc`. -/
def lowerTrunc (inst : InstRef) (value : ValueId) (e : Emitter I) : Option (Lowered I) := do
  let dstTy ← m.valueTy (.inst inst)
  let (src, e) ← lowerOperand m symbols S value e
  match dstTy with
  | .int dstBits =>
    let (masked, e) := emitMaskedValue src dstBits e
    some (finishConversion S inst masked e)
  | _ => none

/-- `lower_zext`. -/
def lowerZext (inst : InstRef) (value : ValueId) (e : Emitter I) : Option (Lowered I) := do
  let (src, e) ← lowerOperand m symbols S value e
  match ← m.valueTy value with
  | .int srcBits =>
    let (extended, e) := emitMaskedValue src srcBits e
    some (finishConversion S inst extended e)
  | _ => none

/-- `lower_sext`. -/
def lowerSext (inst : InstRef) (value : ValueId) (e : Emitter I) : Option (Lowered I) := do
  let (src, e) ← lowerOperand m symbols S value e
  let (rd, S, e) := ensureInstVreg S inst e
  match ← m.valueTy value with
  | .int srcBits =>
    if regBits I ≤ srcBits then some (rd, S, e.push (mv (.virtual rd) src))
    else
      let shift : Nat := regBits I - srcBits
      some (rd, S, (e.push (emitSlli (.virtual rd) src shift)).push
        (emitSrai (.virtual rd) (.virtual rd) shift))
  | _ => none

end Model

end Mir
