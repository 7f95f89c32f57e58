import C0mpiler.Mir.Lower
import C0mpiler.Mir.LowerConst
import Mathlib

/-!
# Addresses of elements

The lowering of `getelementptr` (`lower.rs`, with `emit_add_offset`): the offset of every index is
added to the base, an index that is a constant folded into an immediate, an index in a register
multiplied by the stride. Where the immediates fit into an `i32`, the emitted code adds exactly the
offset of the path.
-/

namespace Mir

open Ir (ModuleCore ValueId InstRef ConstKind InstKind CoreInt Ty TargetDataLayout StructLayout
  layoutOf)

section Model

variable {R I : Type} [DecidableEq R] [EmitTarget R I] (t : TargetDataLayout) (m : ModuleCore)
  (symbols : HashMap String SymbolId) (S : FunctionLoweringState)

/-- The integer an operand is, if it is a constant one; the outer `none` is a dead constant. -/
def constInt (v : ValueId) : Option (Option CoreInt) :=
  match v with
  | .const c => do
    let d ← m.constData c
    match d.kind with
    | .int number => some (some number)
    | _ => some none
  | _ => some none

/-- The operand of an index that is a `zext` from 32 bits. -/
def zextOperand (index : ValueId) : Option (Option ValueId) :=
  match index with
  | .inst inst => do
    let d ← m.inst inst
    match d.kind with
    | .zext value => do
      let bits ← intBitsForValue m value
      some (if bits = some 32 then some value else none)
    | _ => some none
  | _ => some none

/-- `is_power_of_two`; the exponent is then `Nat.log2`. -/
def isPowerOfTwo (n : Nat) : Bool :=
  n = 2 ^ n.log2

/-- The operand of the `zext` that the shift by the stride takes in. -/
def fusedOperand (wordSize stride : Nat) (index : ValueId) : Option (Option ValueId) :=
  if isPowerOfTwo stride ∧ wordSize = 8 ∧ 0 < stride.log2 ∧ stride.log2 ≤ 32 then
    zextOperand m index
  else some none

/-- `base + imm`; a product that is no `i32` is refused. -/
def emitAddImm (base : Register R) (imm : Int) (e : Emitter I) :
    Option (Register R × Emitter I) := do
  guard (asI32 imm = imm)
  if imm = 0 then some (base, e)
  else if FitsImm12 imm then
    let result := .virtual e.vregCounter
    some (result, e.newVreg.push (emitAddi result base imm))
  else
    let temp := .virtual e.vregCounter
    let e := e.newVreg.push (loadImm temp imm)
    let result := .virtual e.vregCounter
    some (result, e.newVreg.push (emitAdd result base temp))

/-- The index times the stride, in `temp`. -/
def emitScaledIndex (temp : Register R) (stride : Nat) (index : ValueId) (e : Emitter I) :
    Option (Emitter I) := do
  match ← fusedOperand m (LoweringTarget.wordSize I) stride index with
  | some value =>
    let (src, e) ← lowerOperand m symbols S value e
    some ((e.push (emitSlli temp src (32 : Nat))).push
      (emitSrli temp temp (32 - stride.log2 : Nat)))
  | none =>
    let (indexReg, e) ← lowerOperand m symbols S index e
    if isPowerOfTwo stride then some (e.push (emitSlli temp indexReg stride.log2))
    else
      let strideReg := .virtual e.vregCounter
      let e := e.newVreg.push (loadImm strideReg (asI32 stride))
      some (e.push (emitMul temp indexReg strideReg))

/-- `emit_add_offset`. -/
def emitAddOffset (base : Register R) (stride : Nat) (index : ValueId) (e : Emitter I) :
    Option (Register R × Emitter I) := do
  match ← constInt m index with
  | some number => emitAddImm base (asI32 number.asI64 * asI32 stride) e
  | none =>
    if stride = 0 then some (base, e)
    else
      let temp := .virtual e.vregCounter
      let e ← emitScaledIndex m symbols S temp stride index e.newVreg
      let result := .virtual e.vregCounter
      some (result, e.newVreg.push (emitAdd result base temp))

/-- The offset of a field, which is no more than a `u32`. -/
def emitAddField (base : Register R) (offset : Nat) (e : Emitter I) : Register R × Emitter I :=
  if offset = 0 then (base, e)
  else if offset ≤ 2047 then
    let temp := .virtual e.vregCounter
    (temp, e.newVreg.push (emitAddi temp base (asI32 offset)))
  else
    let imm := .virtual e.vregCounter
    let e := e.newVreg.push (loadImm imm (asI32 offset))
    let temp := .virtual e.vregCounter
    (temp, e.newVreg.push (emitAdd temp base imm))

/-- The loop over the indices behind the first. -/
def lowerIndices : Ty → List ValueId → Register R → Emitter I → Option (Register R × Emitter I)
  | _, [], base, e => some (base, e)
  | .array elemTy len, index :: indices, base, e => do
    let layout ← layoutOf t (.array elemTy len)
    let arrayLayout ← layout.shape.asArray
    let (base, e) ← emitAddOffset m symbols S base arrayLayout.stride index e
    lowerIndices elemTy indices base e
  | .struct fieldTys packed, index :: indices, base, e => do
    let layout ← layoutOf t (.struct fieldTys packed)
    let structLayout ← layout.shape.asStruct
    match ← constInt m index with
    | some number =>
      let field ← structLayout.fields[number.asU64]?
      let (base, e) := emitAddField base field.offset e
      lowerIndices (← fieldTys[number.asU64]?) indices base e
    | none => none
  | _, _ :: _, _, _ => none

/-- `ensure_inst_vreg`. -/
def ensureInstVreg (inst : InstRef) (e : Emitter I) :
    VRegId × FunctionLoweringState × Emitter I :=
  match S.vregForValue (.inst inst) with
  | some vreg => (vreg, S, e)
  | none => (e.vregCounter, S.recordVreg (.inst inst) e.vregCounter, e.newVreg)

/-- `lower_get_element_ptr`. -/
def lowerGetElementPtr (baseTy : Ty) (base : ValueId) (indices : List ValueId) (inst : InstRef)
    (e : Emitter I) : Option (VRegId × FunctionLoweringState × Emitter I) := do
  let (base, e) ← lowerOperand m symbols S base e
  let (base, e) ← match indices with
    | [] => some (base, e)
    | index :: indices => do
      let layout ← layoutOf t baseTy
      let (base, e) ← emitAddOffset m symbols S base layout.layout.stride index e
      lowerIndices t m symbols S baseTy indices base e
  let (rd, S, e) := ensureInstVreg S inst e
  some (rd, S, if base = .virtual rd then e else e.push (mv (.virtual rd) base))

end Model

/-! ## Shifts as products -/

/-- A shift is a multiplication. -/
theorem shiftLeft_ofNat (w i k : Nat) :
    (BitVec.ofNat w i) <<< k = BitVec.ofNat w (i * 2 ^ k) := by
  apply BitVec.eq_of_toNat_eq
  rw [BitVec.toNat_shiftLeft, BitVec.toNat_ofNat, BitVec.toNat_ofNat, Nat.shiftLeft_eq,
    Nat.mod_mul_mod]

/-- Up by 32 and down by `32 - k` keeps the lower word, times `2 ^ k`. -/
theorem shiftLeft_shiftRight_lower {w k i : Nat} {x : BitVec w} (hw : w = 64) (hk : k ≤ 32)
    (hx : x.toNat % 2 ^ 32 = i) :
    (x <<< 32) >>> (32 - k) = BitVec.ofNat w (i * 2 ^ k) := by
  have hi : i < 2 ^ 32 := hx ▸ Nat.mod_lt _ (by decide)
  have hsplit : (2 : Nat) ^ 32 = 2 ^ k * 2 ^ (32 - k) := by
    rw [← pow_add, Nat.add_sub_cancel' hk]
  have hword : x.toNat * 2 ^ 32 % 2 ^ 64 = i * 2 ^ 32 := by
    have h64 : (2 : Nat) ^ 64 = 2 ^ 32 * 2 ^ 32 := by decide
    rw [h64, Nat.mul_mod_mul_right, hx]
  have hlt : i * 2 ^ k < 2 ^ 64 := by
    have hpow : (2 : Nat) ^ k ≤ 2 ^ 32 := Nat.pow_le_pow_right (by decide) hk
    calc i * 2 ^ k ≤ i * 2 ^ 32 := Nat.mul_le_mul_left _ hpow
      _ < 2 ^ 64 := by omega
  subst hw
  apply BitVec.eq_of_toNat_eq
  rw [BitVec.toNat_ushiftRight, BitVec.toNat_shiftLeft, BitVec.toNat_ofNat, Nat.shiftLeft_eq,
    Nat.shiftRight_eq_div_pow, hword, Nat.mod_eq_of_lt hlt, hsplit, ← Nat.mul_assoc,
    Nat.mul_div_cancel _ (Nat.two_pow_pos _)]

/-- A small number stays what it is. -/
theorem asI32_natCast {n : Nat} (h : n < 2 ^ 31) : asI32 n = n :=
  asI32_of_bounds ⟨by omega, by omega⟩

/-- A power of two is known by its logarithm. -/
theorem isPowerOfTwo_iff {n : Nat} : isPowerOfTwo n = true ↔ n = 2 ^ n.log2 :=
  decide_eq_true_iff

/-! ## Adding one offset -/

section Offsets

variable {R I : Type} {w : Nat} [DecidableEq R] [MachineSemantics R w I] [LawfulMachine R w I]
  {m : ModuleCore} {symbols : HashMap String SymbolId} {S : FunctionLoweringState}
  {sym : SymbolId → BitVec w} {e e' : Emitter I} {ρ ρ' : Regs R I w} {base : Register R}

omit [DecidableEq R] in
theorem OldReg.mono {c c' : Nat} {r : Register R} (h : OldReg c r) (hle : c ≤ c') : OldReg c' r :=
  fun v hv => h v (hle.trans hv)

omit [DecidableEq R] in
/-- A register below the counter. -/
theorem oldReg_virtual {c v : Nat} (h : v < c) : OldReg c (.virtual v : Register R) := by
  intro v' hv' heq
  cases heq
  omega

omit [LawfulMachine R w I] in
/-- Code writes no old register. -/
theorem Emits.get_oldReg (h : Emits sym [] e e' ρ ρ') {r : Register R}
    (hr : OldReg e.vregCounter r) : ρ'.get r = ρ.get r := by
  refine h.frame r List.not_mem_nil ?_
  rintro ⟨v, hv, -, heq⟩
  exact hr v hv heq

omit [LawfulMachine R w I] in
/-- It may as well be allowed to write more. -/
theorem Emits.widen (h : Emits sym [] e e' ρ ρ') (ws : List (Register R)) :
    Emits sym ws e e' ρ ρ' :=
  ⟨h.counter_le, h.run, fun x _ hnot => h.frame x List.not_mem_nil hnot⟩

/-- What adding an offset to a register does. -/
def Adds (sym : SymbolId → BitVec w) (e : Emitter I) (ρ : Regs R I w) (base : Register R)
    (off : Nat) (r : Register R) (e' : Emitter I) : Prop :=
  ∃ ρ', Emits sym [] e e' ρ ρ' ∧ OldReg e'.vregCounter r ∧ ρ'.get r = ρ.get base + .ofNat w off

omit [LawfulMachine R w I] in
/-- Nothing to add. -/
theorem Adds.zero (hbase : OldReg e.vregCounter base) : Adds sym e ρ base 0 base e :=
  ⟨ρ, .refl e ρ, hbase, by simp⟩

/-- An immediate of twelve bits. -/
theorem adds_addi {off : Nat} (hoff : FitsImm12 off) :
    Adds sym e ρ base off (.virtual e.vregCounter)
      (e.newVreg.push (emitAddi (.virtual e.vregCounter) base off)) := by
  have hadd := LawfulMachine.alu_addi (I := I) (.virtual e.vregCounter) base hoff ρ.get sym
  refine ⟨_, (Emits.refl e ρ).newVreg.push (Or.inr (allocated_newVreg le_rfl)) hadd,
    oldReg_virtual (Nat.lt_succ_self _), ?_⟩
  rw [RegFile.get_set_virtual, BitVec.ofInt_natCast]

/-- An immediate loaded into a register of its own. -/
theorem adds_loadImm {off : Nat} (hbase : OldReg e.vregCounter base) :
    Adds sym e ρ base off (.virtual (e.vregCounter + 1))
      ((e.newVreg.push (loadImm (.virtual e.vregCounter) (off : Int))).newVreg.push
        (emitAdd (.virtual (e.vregCounter + 1)) base (.virtual e.vregCounter))) := by
  have hrefl : Emits sym [] e e ρ ρ := .refl e ρ
  have hload := hrefl.newVreg.push (Or.inr (allocated_newVreg le_rfl))
    (LawfulMachine.alu_loadImm (I := I) (.virtual e.vregCounter) (off : Int) ρ.get sym)
  have hsum := hload.newVreg.push (Or.inr (allocated_newVreg (Nat.le_succ _)))
    (LawfulMachine.alu_add (I := I) (.virtual (e.vregCounter + 1)) base
      (.virtual e.vregCounter) _ sym)
  refine ⟨_, hsum, oldReg_virtual (Nat.lt_succ_self _), ?_⟩
  show (RegFile.set _ (.virtual (e.vregCounter + 1)) _).get _ = _
  rw [RegFile.get_set_virtual, RegFile.get_set_virtual, BitVec.ofInt_natCast,
    RegFile.get_set_ne _ (hbase _ le_rfl)]

/-- Adding a constant: by `addi` where it fits. -/
theorem emitAddImm_adds {off : Nat} (hoff : off < 2 ^ 31) (hbase : OldReg e.vregCounter base) :
    ∃ r e', emitAddImm base (off : Int) e = some (r, e') ∧ Adds sym e ρ base off r e' := by
  simp only [emitAddImm, asI32_natCast hoff, guard, if_true, Option.bind_eq_bind, pure,
    Option.bind_some]
  split
  · next hzero =>
    have hz : off = 0 := by exact_mod_cast hzero
    subst hz
    exact ⟨_, _, rfl, .zero hbase⟩
  · split
    · next himm => exact ⟨_, _, rfl, adds_addi himm⟩
    · exact ⟨_, _, rfl, adds_loadImm hbase⟩

/-- Adding the offset of a field. -/
theorem emitAddField_adds {off : Nat} (hoff : off < 2 ^ 31) (hbase : OldReg e.vregCounter base) :
    Adds sym e ρ base off (emitAddField base off e).1 (emitAddField base off e).2 := by
  simp only [emitAddField, asI32_natCast hoff]
  split
  · next hzero =>
    subst hzero
    exact .zero hbase
  · split
    · exact adds_addi ⟨by omega, by omega⟩
    · exact adds_loadImm hbase

/-- The operand of an index stands for the number `i`: a constant that is `i`, or a register that
holds it, in which case a `zext` it may come from has widened `i` out of a register of 32 bits. -/
inductive IndexHolds (m : ModuleCore) (symbols : HashMap String SymbolId)
    (S : FunctionLoweringState) (sym : SymbolId → BitVec w) (ρ : Regs R I w) :
    ValueId → Nat → Prop where
  | const {v} {i : Nat} {number : CoreInt} (hconst : constInt m v = some (some number))
      (hi : number.asI64 = i) : IndexHolds m symbols S sym ρ v i
  | register {v} {i : Nat} {widened} (hconst : constInt m v = some none)
      (hvalue : operandValue m symbols S sym ρ v = some (.ofNat w i))
      (hzext : zextOperand m v = some widened)
      (hwidened : ∀ value, widened = some value →
        ∃ x, operandValue m symbols S sym ρ value = some x ∧ x.toNat % 2 ^ 32 = i) :
      IndexHolds m symbols S sym ρ v i

/-- The immediate the code needs for an index: the offset of a constant index, the stride of an
index in a register. -/
def indexImmediate (m : ModuleCore) (stride : Nat) (v : ValueId) (i : Nat) : Nat :=
  match constInt m v with
  | some (some _) => i * stride
  | _ => stride

/-- The scaled index, with or without the extension folded into the shift. -/
theorem emitScaledIndex_emits {stride i : Nat} {v : ValueId} {widened : Option ValueId}
    (hstride : stride < 2 ^ 31) (hvalue : operandValue m symbols S sym ρ v = some (.ofNat w i))
    (hzext : zextOperand m v = some widened)
    (hwidened : ∀ value, widened = some value →
      ∃ x, operandValue m symbols S sym ρ value = some x ∧ x.toNat % 2 ^ 32 = i)
    (hS : S.Below e.vregCounter) :
    ∃ e' ρ', emitScaledIndex m symbols S (.virtual e.vregCounter) stride v e.newVreg = some e' ∧
      Emits sym [] e e' ρ ρ' ∧ e.vregCounter < e'.vregCounter ∧
      ρ'.get (.virtual e.vregCounter) = .ofNat w (i * stride) := by
  have hw : 32 ≤ w := LawfulMachine.width_le I
  have hrefl : Emits sym [] e e ρ ρ := .refl e ρ
  have hS' : S.Below e.newVreg.vregCounter := hS.mono (Nat.le_succ _)
  obtain ⟨fused, hfused, hcases⟩ : ∃ fused,
      fusedOperand m (LoweringTarget.wordSize I) stride v = some fused ∧
      (∀ value, fused = some value → LoweringTarget.wordSize I = 8 ∧ isPowerOfTwo stride ∧
        stride.log2 ≤ 32 ∧ widened = some value) := by
    unfold fusedOperand
    split
    · next h => exact ⟨widened, hzext, fun value hv => ⟨h.2.1, h.1, h.2.2.2, hv⟩⟩
    · exact ⟨none, rfl, by simp⟩
  have hnew : ∀ {e₁ : Emitter I}, e.newVreg.vregCounter ≤ e₁.vregCounter →
      Allocated e.vregCounter e₁.vregCounter (.virtual e.vregCounter : Register R) :=
    fun hle => ⟨e.vregCounter, le_rfl, hle, rfl⟩
  simp only [emitScaledIndex, hfused, Option.bind_eq_bind, Option.bind_some]
  cases fused with
  -- the index is a widened 32-bit value, and two shifts do the extension and the scaling
  | some value =>
    obtain ⟨hword, hpow, hlog, hwiden⟩ := hcases value rfl
    obtain ⟨x, hx, hmod⟩ := hwidened value hwiden
    obtain ⟨src, e₁, ρ₁, hlower, hemits, -, hsrc⟩ := lowerOperand_value hx hS'
    have hw64 : w = 64 := by rw [LawfulMachine.width (I := I), hword]
    have hall := (hrefl.newVreg.trans hemits).push (Or.inr (hnew hemits.counter_le))
      (LawfulMachine.alu_slli (I := I) (n := 32) (.virtual e.vregCounter) src (by omega) _ sym)
    have hlog0 : 32 - stride.log2 < w := by omega
    have hboth := hall.push (Or.inr (hnew hemits.counter_le))
      (LawfulMachine.alu_srli (I := I) (.virtual e.vregCounter) (.virtual e.vregCounter) hlog0 _ sym)
    refine ⟨_, _, by simp only [hlower, Option.bind_some], hboth, hemits.counter_le, ?_⟩
    rw [RegFile.get_set_virtual, RegFile.get_set_virtual, hsrc,
      shiftLeft_shiftRight_lower hw64 hlog hmod, ← isPowerOfTwo_iff.mp hpow]
  -- a shift for a stride that is a power of two, a multiplication otherwise
  | none =>
    obtain ⟨src, e₁, ρ₁, hlower, hemits, hold, hsrc⟩ := lowerOperand_value hvalue hS'
    simp only [hlower, Option.bind_some]
    have hemits₁ := hrefl.newVreg.trans hemits
    split
    · next hpow =>
      have hstride2 := isPowerOfTwo_iff.mp hpow
      have hlog : stride.log2 < w := by
        have hlt : 2 ^ stride.log2 < 2 ^ 31 := hstride2 ▸ hstride
        have hlog31 := (Nat.pow_lt_pow_iff_right (by decide)).mp hlt
        omega
      refine ⟨_, _, rfl, hemits₁.push (Or.inr (hnew hemits.counter_le))
        (LawfulMachine.alu_slli (I := I) (.virtual e.vregCounter) src hlog _ sym),
        hemits.counter_le, ?_⟩
      rw [RegFile.get_set_virtual, hsrc, shiftLeft_ofNat, ← hstride2]
    · have hload := hemits₁.newVreg.push (Or.inr (allocated_newVreg hemits₁.counter_le))
        (LawfulMachine.alu_loadImm (I := I) (.virtual e₁.vregCounter) (asI32 stride) _ sym)
      refine ⟨_, _, rfl, hload.push (Or.inr (hnew (hemits.counter_le.trans (Nat.le_succ _))))
        (LawfulMachine.alu_mul (I := I) (.virtual e.vregCounter) src (.virtual e₁.vregCounter) _
          sym), Nat.lt_succ_of_lt hemits.counter_le, ?_⟩
      rw [RegFile.get_set_virtual, RegFile.get_set_virtual, RegFile.get_set_ne _ (hold _ le_rfl),
        hsrc, asI32_natCast hstride, BitVec.ofInt_natCast, BitVec.ofNat_mul]

/-- An index adds its multiple of the stride. -/
theorem emitAddOffset_adds {stride i : Nat} {v : ValueId}
    (hindex : IndexHolds m symbols S sym ρ v i) (hfit : indexImmediate m stride v i < 2 ^ 31)
    (hbase : OldReg e.vregCounter base) (hS : S.Below e.vregCounter) :
    ∃ r e', emitAddOffset m symbols S base stride v e = some (r, e') ∧
      Adds sym e ρ base (i * stride) r e' := by
  cases hindex with
  | @const number hconst hi =>
    simp only [indexImmediate, hconst] at hfit
    have himm : asI32 number.asI64 * asI32 stride = ((i * stride : Nat) : Int) := by
      rw [hi]
      rcases Nat.eq_zero_or_pos i with rfl | hpos
      · simp [asI32]
      · rcases Nat.eq_zero_or_pos stride with rfl | hpos'
        · simp [asI32]
        · rw [asI32_natCast (lt_of_le_of_lt (Nat.le_mul_of_pos_right _ hpos') hfit),
            asI32_natCast (lt_of_le_of_lt (Nat.le_mul_of_pos_left _ hpos) hfit), Nat.cast_mul]
    simp only [emitAddOffset, hconst, Option.bind_eq_bind, Option.bind_some, himm]
    exact emitAddImm_adds hfit hbase
  | register hconst hvalue hzext hwidened =>
    simp only [indexImmediate, hconst] at hfit
    simp only [emitAddOffset, hconst, Option.bind_eq_bind, Option.bind_some]
    split
    · next hzero =>
      subst hzero
      exact ⟨_, _, rfl, .zero hbase⟩
    · obtain ⟨e₁, ρ₁, hscaled, hemits, hlt, hget⟩ :=
        emitScaledIndex_emits hfit hvalue hzext hwidened hS
      refine ⟨_, _, by simp only [hscaled, Option.bind_some], _,
        hemits.newVreg.push (Or.inr (allocated_newVreg hemits.counter_le))
          (LawfulMachine.alu_add (I := I) (.virtual e₁.vregCounter) base
            (.virtual e.vregCounter) _ sym),
        oldReg_virtual (Nat.lt_succ_self _), ?_⟩
      rw [RegFile.get_set_virtual, hget, hemits.get_oldReg hbase]

end Offsets

end Mir
