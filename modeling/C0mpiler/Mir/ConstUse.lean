import C0mpiler.Mir.ArithSound
import Mathlib

/-!
# What the code uses for a constant

An integer constant reaches the code in three ways: as an operand in a register (`lower_operand`),
as the immediate of a binary operation, and as an index that is multiplied by the stride at compile
time (`emit_add_offset`). Each of them reads it as an `i32` first; the unsigned divisions drop the
sign of that again where they expand.

For each way, `OperandUses`, `BinaryUses` and `OffsetUses` say that the code acts on a given number,
which is proved for the number that the source computes, whatever the constant. What is left is when
that number is the constant, modulo the width of its type.
-/

namespace Mir

open Ir (ModuleCore ValueId BinaryOpcode CoreInt intArith intShift intBinary)
open LowBits

/-! ## The numbers -/

/-- The number that a binary operation gets for its constant right operand. -/
def usedImmediate (op : BinaryOpcode) (number : CoreInt) : Int :=
  let imm := asI32 number.asI64
  match op with
  | .udiv | .urem => if isPowerOfTwo (asU32 imm) then asU32 imm else imm
  | _ => imm

/-- The constants for which that number is the constant. -/
def ImmediateFits (op : BinaryOpcode) (number : CoreInt) : Prop :=
  match op with
  | .udiv | .urem =>
    number.bitWidth ≤ 32 ∨ number.value = 2 ^ 31 ∨ -2 ^ 31 < number.asI64 ∧ number.asI64 < 2 ^ 31
  | _ => FitsI32 number

/-- A cast to `u32` keeps the low 32 bits. -/
theorem asU32_modEq (x : Int) : (asU32 x : Int) ≡ x [ZMOD 2 ^ 32] := by
  unfold asU32 Int.ModEq
  omega

/-- It is a 32-bit number. -/
theorem asU32_lt (x : Int) : asU32 x < 2 ^ 32 := by
  unfold asU32
  omega

/-- An `i32` and its `u32` are the same power of two, but for the least `i32`. -/
theorem asU32_of_isPowerOfTwo {imm : Int} (hlo : -2 ^ 31 ≤ imm) (hhi : imm < 2 ^ 31)
    (h : isPowerOfTwo (asU32 imm) = true) : (asU32 imm : Int) = imm ∨ imm = -2 ^ 31 := by
  by_cases hneg : 0 ≤ imm
  · refine Or.inl ?_
    unfold asU32
    omega
  · refine Or.inr ?_
    by_contra hne
    have hgt : 2 ^ 31 < asU32 imm := by
      unfold asU32
      omega
    rw [not_isPowerOfTwo hgt (asU32_lt imm)] at h
    cases h

section Numbers

variable {number : CoreInt}

/-- The number for an unsigned divisor is the constant exactly if it is a positive or a small one. -/
theorem usedDivisor_modEq_iff (hwf : number.Wf) {imm : Int} (himm : imm = asI32 number.asI64) :
    (if isPowerOfTwo (asU32 imm) then (asU32 imm : Int) else imm) ≡ number.value
        [ZMOD 2 ^ number.bitWidth] ↔
      number.bitWidth ≤ 32 ∨ number.value = 2 ^ 31 ∨
        -2 ^ 31 < number.asI64 ∧ number.asI64 < 2 ^ 31 := by
  have hbounds := asI32_bounds number.asI64
  rw [← himm] at hbounds
  have hexact := asI32_asI64_modEq_iff hwf
  rw [← himm] at hexact
  by_cases hw : number.bitWidth ≤ 32
  · -- `as u32` keeps the class modulo `2 ^ 32`
    have hdvd : (2 : Int) ^ number.bitWidth ∣ 2 ^ 32 := pow_dvd_pow 2 hw
    refine iff_of_true ?_ (Or.inl hw)
    split
    · exact ((asU32_modEq imm).of_dvd hdvd).trans (hexact.mpr (Or.inl hw))
    · exact hexact.mpr (Or.inl hw)
  · have hpow : (2 : Int) ^ 32 < 2 ^ number.bitWidth := pow_lt_pow_right₀ (by decide) (by omega)
    have hlt : (number.value : Int) < 2 ^ number.bitWidth := by exact_mod_cast hwf.value_lt
    have hsmall : (-2 ^ 31 ≤ number.asI64 ∧ number.asI64 < 2 ^ 31) → imm = number.asI64 :=
      fun h => himm.trans (asI32_of_bounds h)
    by_cases hmin : imm = -2 ^ 31
    · -- the divisor is taken for `2 ^ 31`
      have hu : asU32 imm = 2 ^ 31 := by rw [hmin]; decide
      have hp : isPowerOfTwo (2 ^ 31) = true := by
        rw [isPowerOfTwo_iff, Nat.log2_two_pow]
      rw [hu, if_pos hp]
      constructor
      · intro hmod
        refine Or.inr (Or.inl ?_)
        unfold Int.ModEq at hmod
        push_cast at hmod
        rw [Int.emod_eq_of_lt (by decide) (by linarith), Int.emod_eq_of_lt (by omega) hlt] at hmod
        exact_mod_cast hmod.symm
      · rintro (h | h | h)
        · exact absurd h hw
        · rw [h]
        · have heq := hsmall ⟨h.1.le, h.2⟩
          omega
    · have hsame : (if isPowerOfTwo (asU32 imm) then (asU32 imm : Int) else imm) = imm := by
        split
        · next hp => exact (asU32_of_isPowerOfTwo hbounds.1 hbounds.2 hp).resolve_right hmin
        · rfl
      rw [hsame, hexact]
      constructor
      · rintro (h | h)
        · exact absurd h hw
        · have heq := hsmall h
          exact Or.inr (Or.inr ⟨by omega, h.2⟩)
      · rintro (h | h | h)
        · exact absurd h hw
        · -- `2 ^ 31` itself would have become the least `i32`
          have hvalue : number.value < 2 ^ (number.bitWidth - 1) := by
            rw [h]
            exact Nat.pow_lt_pow_right (by decide) (by omega)
          have hasI64 := asI64_of_small hwf hvalue
          rw [hasI64, h] at himm
          exact absurd himm hmin
        · exact Or.inr ⟨h.1.le, h.2⟩

/-- The immediate that an operation uses is the value where it fits. -/
theorem usedImmediate_modEq_iff (hwf : number.Wf) (op : BinaryOpcode) :
    usedImmediate op number ≡ number.value [ZMOD 2 ^ number.bitWidth] ↔
      ImmediateFits op number := by
  cases op with
  | udiv | urem => exact usedDivisor_modEq_iff hwf rfl
  | _ => exact asI32_asI64_modEq_iff hwf

/-- A divisor that is expanded fits its width. -/
theorem asU32_lt_two_pow (hwf : number.Wf)
    (h : isPowerOfTwo (asU32 (asI32 number.asI64)) = true) :
    asU32 (asI32 number.asI64) < 2 ^ number.bitWidth := by
  by_cases hw : 32 ≤ number.bitWidth
  · exact (asU32_lt _).trans_le (Nat.pow_le_pow_right (by decide) hw)
  · have himm := asI32_asI64 hwf (Or.inl (by omega))
    obtain ⟨hlo, hhi⟩ := asI32_bounds number.asI64
    rw [himm] at h hlo hhi ⊢
    by_cases hneg : 0 ≤ number.asI64
    · have heq := asI64_of_nonneg hwf hneg
      have hvalue := hwf.value_lt
      rw [heq, asU32_of_nonneg (by omega)]
      exact hvalue
    · exfalso
      have hone : number.bitWidth ≠ 1 := by
        intro hone
        rw [CoreInt.asI64, if_pos hone] at hneg
        omega
      have hbounds := hwf.asI64_bounds hone
      have hpow : (2 : Int) ^ (number.bitWidth - 1) < 2 ^ 31 :=
        pow_lt_pow_right₀ (by decide) (by omega)
      rcases asU32_of_isPowerOfTwo hlo hhi h with heq | heq
      · omega
      · rw [heq] at hbounds
        linarith [hbounds.1]

/-- The immediate of a signed division is a number of its width, unless it is a bit. -/
theorem fitsWidth_immediate (hwf : number.Wf) (hone : asI32 number.asI64 ≠ 1)
    (hzero : asI32 number.asI64 ≠ 0) : FitsWidth number.bitWidth (asI32 number.asI64) := by
  obtain ⟨hlo, hhi⟩ := asI32_bounds number.asI64
  by_cases hw : 32 ≤ number.bitWidth
  · have hpow : (2 : Int) ^ 31 ≤ 2 ^ (number.bitWidth - 1) :=
      pow_le_pow_right₀ (by decide) (by omega)
    exact ⟨by linarith, by linarith⟩
  · have himm := asI32_asI64 hwf (Or.inl (by omega))
    rw [himm] at hone hzero ⊢
    refine hwf.asI64_bounds fun hbit => ?_
    have hlt := hwf.value_lt
    rw [hbit] at hlt
    rw [CoreInt.asI64, if_pos hbit] at hone hzero
    omega

end Numbers

/-! ## Acting on a number -/

section Runs

variable {R I : Type} {w : Nat} [DecidableEq R] [MachineSemantics R w I] [ArithTarget R I]

/-- Every run of the code emitted between `e` and `e'` leaves in the low bits of `rd` what the
instruction of the operation leaves there when `v` is in its second register. -/
def RunsAs (sym : SymbolId → BitVec w) (op : BinaryOpcode) (b : Nat) (rd : VRegId)
    (rs : Register R) (e e' : Emitter I) (ρ : Regs R I w) (v : BitVec w) : Prop :=
  (∃ code ρ', e'.out = e.out ++ code ∧ runInsts sym code ρ = some (ρ', none)) ∧
  ∀ code ρ', e'.out = e.out ++ code → runInsts sym code ρ = some (ρ', none) →
    ∀ (g : Register R → BitVec w) (rs2 : Register R), g rs = ρ.get rs → g rs2 = v →
      Sets sym g (emitBinaryReg op (binaryOpHas32BitMachineResult op b) (.virtual rd) rs rs2 : I)
        (.virtual rd) ((ρ'.get (.virtual rd)).setWidth b)

variable {sym : SymbolId → BitVec w} {e e' : Emitter I} {ρ : Regs R I w} {op : BinaryOpcode}
  {b : Nat} {rd : VRegId} {rs : Register R} {v : BitVec w} {x y z : BitVec b}

/-- Code that puts the result runs as the instruction does on the same operands. -/
theorem runsAs_of_puts (h : Puts sym e ρ rd z e')
    (hsets : ∀ (g : Register R → BitVec w) (rs2 : Register R), g rs = ρ.get rs → g rs2 = v →
      Sets sym g (emitBinaryReg op (binaryOpHas32BitMachineResult op b) (.virtual rd) rs rs2 : I)
        (.virtual rd) z) :
    RunsAs sym op b rd rs e e' ρ v := by
  obtain ⟨ρ₁, ⟨-, ⟨code, hout, hrun⟩, -⟩, rfl⟩ := h
  refine ⟨⟨code, ρ₁, hout, hrun⟩, fun code' ρ' hout' hrun' g rs2 h1 h2 => ?_⟩
  obtain rfl : code = code' := List.append_cancel_left (hout.symm.trans hout')
  rw [hrun] at hrun'
  cases hrun'
  exact hsets g rs2 h1 h2

variable [LawfulMachine R w I] [LawfulArith R w I]

omit [DecidableEq R] in
/-- The instruction of an operation always has a result, which the operands determine. -/
theorem sets_binaryReg (op : BinaryOpcode) (has32 : Bool) (b : Nat) (u v : BitVec w) :
    ∃ z : BitVec b, ∀ (sym : SymbolId → BitVec w) (g : Register R → BitVec w)
      (rd rs1 rs2 : Register R), g rs1 = u → g rs2 = v →
        Sets sym g (emitBinaryReg op has32 rd rs1 rs2 : I) rd z := by
  cases op <;> cases has32 <;>
    simp +contextual only [Sets, emitBinaryReg, LawfulMachine.alu_add, LawfulMachine.alu_mul,
      LawfulMachine.alu_and, LawfulArith.alu_sub, LawfulArith.alu_xor, LawfulArith.alu_or,
      LawfulArith.alu_sll, LawfulArith.alu_srl, LawfulArith.alu_sra, LawfulArith.alu_div,
      LawfulArith.alu_divu, LawfulArith.alu_rem, LawfulArith.alu_remu, LawfulArith.alu_addw,
      LawfulArith.alu_subw, LawfulArith.alu_sllw, LawfulArith.alu_srlw, LawfulArith.alu_sraw,
      LawfulArith.alu_mulw, LawfulArith.alu_divw, LawfulArith.alu_divuw, LawfulArith.alu_remw,
      LawfulArith.alu_remuw, Option.some.injEq, Prod.mk.injEq, true_and, exists_eq_left',
      forall_const]
  all_goals exact ⟨_, fun _ _ _ _ _ _ => rfl⟩

/-- The operation on the loaded immediate. -/
theorem runsAs_loaded {imm : Int} (hrs : OldReg e.vregCounter rs) :
    RunsAs sym op b rd rs e (emitExpanded op (binaryOpHas32BitMachineResult op b) (.virtual rd) rs
      imm none e) ρ (BitVec.ofInt w imm) := by
  obtain ⟨z, hz⟩ := sets_binaryReg (I := I) op (binaryOpHas32BitMachineResult op b) b (ρ.get rs)
    (BitVec.ofInt w imm)
  exact runsAs_of_puts (emitExpanded_loaded hrs fun g h1 h2 => hz sym g _ _ _ h1 h2)
    fun g rs2 h1 h2 => hz sym g _ _ _ h1 h2

/-- Code that computes the operation on `y`, where the register `v` stands for `y`. -/
theorem runsAs_of_ready (hb : b ≤ w) (hz : intArith op x y = some z) (hready : Ready op (ρ.get rs) x)
    (hv : Ready op v y) (hshift : op.isShift = false) (h : Puts sym e ρ rd z e') :
    RunsAs sym op b rd rs e e' ρ v := by
  refine runsAs_of_puts h fun g rs2 h1 h2 => ?_
  have heval : intBinary op x y = some z := by
    rw [intBinary, hshift, if_neg Bool.false_ne_true, if_pos rfl, BitVec.setWidth_eq]
    exact hz
  have hleft : Ready op (g rs) x := h1 ▸ hready
  have hright : ReadyRight op b (g rs2) y := by
    rw [h2, ReadyRight, hshift, if_neg Bool.false_ne_true, BitVec.setWidth_eq]
    exact hv
  exact sets_binary hb heval hleft hright sym (.virtual rd)

/-- Operations that only read the low bits of their operands. -/
theorem ready_ofInt (hb : b ≤ w) (hop : readsHighBits op = false) (imm : Int) :
    Ready op (BitVec.ofInt w imm) (BitVec.ofInt b imm) :=
  ⟨setWidth_ofInt _ hb, fun h => by rw [hop] at h; cases h⟩

/-- An immediate that is a number of its width, extended by its sign. -/
theorem ready_signed (hb : b ≤ w) (hbpos : 0 < b) (hop : binaryOperandsAreSigned op = true)
    {imm : Int} (hfits : FitsWidth b imm) : Ready op (BitVec.ofInt w imm) (BitVec.ofInt b imm) := by
  refine ⟨setWidth_ofInt _ hb, fun _ _ => ?_⟩
  have hpow : (2 : Int) ^ (b - 1) ≤ 2 ^ (w - 1) := pow_le_pow_right₀ (by decide) (by omega)
  have hlo := hfits.1
  have hhi := hfits.2
  rw [hop]
  apply BitVec.eq_of_toInt_eq
  show _ = ((BitVec.ofInt b imm).signExtend w).toInt
  rw [BitVec.toInt_signExtend_of_le hb, toInt_ofInt_of_fits hbpos hfits,
    BitVec.toInt_ofInt_eq_self (by omega) (by linarith) (by linarith)]

/-- The expansion acts on `v`, or there is none and the immediate is `v`. -/
theorem runsAs_expanded {imm : Int} {expanded : Option (Emitter I)} (hrs : OldReg e.vregCounter rs)
    (hnone : expanded = none → v = BitVec.ofInt w imm)
    (hexp : ∀ e', expanded = some e' → RunsAs sym op b rd rs e e' ρ v) :
    RunsAs sym op b rd rs e (emitExpanded op (binaryOpHas32BitMachineResult op b) (.virtual rd) rs
      imm expanded e) ρ v := by
  cases expanded with
  | some e' => exact hexp e' rfl
  | none =>
    rw [hnone rfl]
    exact runsAs_loaded hrs

variable {number : CoreInt}

/-- One bit is too narrow for the divisor one. -/
theorem bit_of_not_fits (hbpos : 0 < b) (h : ¬FitsWidth b 1) : b = 1 := by
  by_contra hne
  have hpow : (2 : Int) ^ 1 ≤ 2 ^ (b - 1) := pow_le_pow_right₀ (by decide) (by omega)
  exact h ⟨by linarith, by linarith⟩

/-- There division changes nothing and no remainder is left. -/
theorem bit_sdiv_srem (x : BitVec 1) :
    x.sdiv (BitVec.ofInt 1 1) = x ∧ x.srem (BitVec.ofInt 1 1) = 0 := by
  revert x
  decide

/-- A signed division or remainder. A single bit is one where no signed number is. -/
theorem runsAs_signed (hb : b ≤ w) (hbpos : 0 < b) (hop : op = .sdiv ∨ op = .srem) {imm : Int}
    (hfits : imm ≠ 1 → FitsWidth b imm) (hready : Ready op (ρ.get rs) x)
    (hz : intArith op x (BitVec.ofInt b imm) = some z) (h : Puts sym e ρ rd z e') :
    RunsAs sym op b rd rs e e' ρ (BitVec.ofInt w imm) := by
  have hsigned : binaryOperandsAreSigned op = true := by rcases hop with rfl | rfl <;> rfl
  have hshift : op.isShift = false := by rcases hop with rfl | rfl <;> rfl
  by_cases hfit : FitsWidth b imm
  · exact runsAs_of_ready hb hz hready (ready_signed hb hbpos hsigned hfit) hshift h
  · obtain rfl : imm = 1 := by
      by_contra hne
      exact hfit (hfits hne)
    obtain rfl := bit_of_not_fits hbpos hfit
    obtain ⟨hdiv, hrem⟩ := bit_sdiv_srem x
    have hone : BitVec.ofInt w 1 = 1#w := BitVec.ofInt_natCast w 1
    have hne : (1#w : BitVec w) ≠ 0 := by
      have hw : 0 < w := hb
      simp [BitVec.one_eq_zero_iff, hw.ne']
    refine runsAs_of_puts h fun g rs2 h1 h2 => ?_
    rcases hop with rfl | rfl
    · refine ⟨_, LawfulArith.alu_div .., ?_⟩
      rw [h1, h2, hone, divSigned, if_neg hne, BitVec.sdiv_one, hready.low]
      simp only [intArith] at hz
      split at hz
      · cases hz
      · exact hdiv.symm.trans (Option.some.inj hz)
    · refine ⟨_, LawfulArith.alu_rem .., ?_⟩
      rw [h1, h2, hone, remSigned, if_neg hne, BitVec.srem_one]
      simp only [intArith] at hz
      split at hz
      · cases hz
      · exact Eq.trans (by simp) (hrem.symm.trans (Option.some.inj hz))

variable {number : CoreInt}

/-- A shift by less than the width. -/
theorem runsAs_shift {n : Nat} (hb : b ≤ w) (hop : op.isShift = true) (hn : n < b)
    (hready : Ready op (ρ.get rs) x)
    (h : emitBinaryConst op (binaryOpHas32BitMachineResult op b) (.virtual rd) rs (n : Int) b e =
      some e') :
    RunsAs sym op b rd rs e e' ρ (BitVec.ofInt w n) := by
  obtain ⟨z, hz⟩ : ∃ z, intShift op x n = some z := by
    unfold intShift
    rw [if_pos hn]
    cases op with
    | shl | lshr | ashr => exact ⟨_, rfl⟩
    | _ => cases hop
  have hlt : n < 2 ^ w := (hn.trans_le hb).trans Nat.lt_two_pow_self
  have hto : (BitVec.ofNat w n).toNat = n := by rw [BitVec.toNat_ofNat, Nat.mod_eq_of_lt hlt]
  refine runsAs_of_puts (emitBinaryConst_shift hb hz hready h) fun g rs2 h1 h2 => ?_
  have heval : intBinary op x (BitVec.ofNat w n) = some z := by rw [intBinary, if_pos hop, hto, hz]
  have hright : ReadyRight op b (g rs2) (BitVec.ofNat w n) := by
    rw [h2, BitVec.ofInt_natCast, ReadyRight, if_pos hop, hto]
    split
    · next hword =>
      obtain rfl := eq_32_of_has32 hword
      exact Nat.mod_eq_of_lt hn
    · exact Or.inl (Nat.mod_eq_of_lt (hn.trans_le hb))
  exact sets_binary hb heval (h1 ▸ hready) hright sym (.virtual rd)

section Divisor

variable {x : BitVec number.bitWidth}

/-- A divisor that an unsigned operation takes for a power of two. -/
theorem ready_divisor (hwf : number.Wf) (hb : number.bitWidth ≤ w)
    (hop : binaryOperandsAreSigned op = false)
    (h : isPowerOfTwo (asU32 (asI32 number.asI64)) = true) :
    let d := asU32 (asI32 number.asI64)
    Ready op (BitVec.ofInt w d) (BitVec.ofNat number.bitWidth d) ∧
      BitVec.ofNat number.bitWidth d ≠ 0 := by
  have hlt := asU32_lt_two_pow hwf h
  have hpos : asU32 (asI32 number.asI64) ≠ 0 := by
    rw [isPowerOfTwo_iff.mp h]
    exact (Nat.two_pow_pos _).ne'
  have hto : (BitVec.ofNat number.bitWidth (asU32 (asI32 number.asI64))).toNat =
      asU32 (asI32 number.asI64) := by
    rw [BitVec.toNat_ofNat, Nat.mod_eq_of_lt hlt]
  refine ⟨⟨?_, fun _ _ => ?_⟩, fun hzero => hpos ?_⟩
  · rw [setWidth_ofInt _ hb, BitVec.ofInt_natCast]
  · rw [hop]
    apply BitVec.eq_of_toNat_eq
    show _ = ((BitVec.ofNat number.bitWidth _).setWidth w).toNat
    rw [BitVec.ofInt_natCast, BitVec.toNat_ofNat, BitVec.toNat_setWidth, hto]
  · rw [← hto, hzero]
    rfl

omit [LawfulMachine R w I] [LawfulArith R w I] in
/-- An unsigned division by a constant is expanded for powers of two. -/
theorem emitUdivConst_isSome_iff (rd rs : Register R) (imm resultBits : Nat) (e : Emitter I) :
    (emitUdivConst rd rs imm resultBits e).isSome ↔ isPowerOfTwo imm = true := by
  unfold emitUdivConst
  split
  · next hzero =>
    rw [hzero]
    simp [isPowerOfTwo]
  · split
    · next hone =>
      rw [hone]
      exact iff_of_true rfl (by decide)
    · split <;> simp_all

omit [ArithTarget R I] [LawfulMachine R w I] [LawfulArith R w I] in
/-- So is a remainder. -/
theorem emitUremConst_isSome_iff (rd rs : Register R) (imm : Nat) (e : Emitter I) :
    (emitUremConst rd rs imm e).isSome ↔ isPowerOfTwo imm = true := by
  unfold emitUremConst
  split
  · next hzero =>
    rw [hzero]
    simp [isPowerOfTwo]
  · split
    · next hone =>
      rw [hone]
      exact iff_of_true rfl (by decide)
    · split <;> simp_all

/-- An unsigned division uses the divisor as `u32`. -/
theorem runsAs_udiv (hwf : number.Wf) (hb : number.bitWidth ≤ w) (hrs : OldReg e.vregCounter rs)
    (hready : Ready .udiv (ρ.get rs) x)
    (h : emitBinaryConst .udiv (binaryOpHas32BitMachineResult .udiv number.bitWidth) (.virtual rd) rs
      (asI32 number.asI64) number.bitWidth e = some e') :
    RunsAs sym .udiv number.bitWidth rd rs e e' ρ (BitVec.ofInt w (usedImmediate .udiv number)) := by
  rw [← Option.some.inj h]
  refine runsAs_expanded hrs (fun hnone => ?_) fun e₁ he => ?_
  · have hp : ¬isPowerOfTwo (asU32 (asI32 number.asI64)) = true := by
      rw [← emitUdivConst_isSome_iff (.virtual rd) rs _ number.bitWidth e, hnone]
      simp
    rw [usedImmediate, if_neg hp]
  · have hp : isPowerOfTwo (asU32 (asI32 number.asI64)) = true := by
      rw [← emitUdivConst_isSome_iff (.virtual rd) rs _ number.bitWidth e, he]
      rfl
    obtain ⟨hv, hne⟩ := ready_divisor hwf hb (show binaryOperandsAreSigned .udiv = false from rfl) hp
    have hputs : Puts sym e ρ rd (x / BitVec.ofNat _ (asU32 (asI32 number.asI64))) e₁ :=
      emitUdivConst_puts hb (asU32_lt_two_pow hwf hp) (asU32_lt _) (reads_of_ready hready rfl) he
    rw [usedImmediate, if_pos hp]
    exact runsAs_of_ready hb (by rw [intArith, if_neg hne]) hready hv rfl hputs

/-- So does a remainder. -/
theorem runsAs_urem (hwf : number.Wf) (hb : number.bitWidth ≤ w) (hrs : OldReg e.vregCounter rs)
    (hready : Ready .urem (ρ.get rs) x)
    (h : emitBinaryConst .urem (binaryOpHas32BitMachineResult .urem number.bitWidth) (.virtual rd) rs
      (asI32 number.asI64) number.bitWidth e = some e') :
    RunsAs sym .urem number.bitWidth rd rs e e' ρ (BitVec.ofInt w (usedImmediate .urem number)) := by
  rw [← Option.some.inj h]
  refine runsAs_expanded hrs (fun hnone => ?_) fun e₁ he => ?_
  · have hp : ¬isPowerOfTwo (asU32 (asI32 number.asI64)) = true := by
      rw [← emitUremConst_isSome_iff (.virtual rd) rs _ e, hnone]
      simp
    rw [usedImmediate, if_neg hp]
  · have hp : isPowerOfTwo (asU32 (asI32 number.asI64)) = true := by
      rw [← emitUremConst_isSome_iff (.virtual rd) rs _ e, he]
      rfl
    obtain ⟨hv, hne⟩ := ready_divisor hwf hb (show binaryOperandsAreSigned .urem = false from rfl) hp
    have hputs : Puts sym e ρ rd (x % BitVec.ofNat _ (asU32 (asI32 number.asI64))) e₁ :=
      emitUremConst_puts hb (asU32_lt_two_pow hwf hp) hrs hready.low he
    rw [usedImmediate, if_pos hp]
    exact runsAs_of_ready hb (by rw [intArith, if_neg hne]) hready hv rfl hputs

omit [DecidableEq R] [MachineSemantics R w I] [ArithTarget R I] [LawfulMachine R w I]
  [LawfulArith R w I] in
/-- The immediate is not zero where the cast is not. -/
theorem ofInt_immediate_ne_zero (hwf : number.Wf) (hzero : asI32 number.asI64 ≠ 0) :
    BitVec.ofInt number.bitWidth (asI32 number.asI64) ≠ 0 := by
  have hpos := hwf.width_pos
  by_cases hone : asI32 number.asI64 = 1
  · rw [hone]
    show BitVec.ofInt number.bitWidth ((1 : Nat) : Int) ≠ 0
    rw [BitVec.ofInt_natCast]
    simpa [BitVec.one_eq_zero_iff] using Nat.one_le_iff_ne_zero.mp hpos
  · intro heq
    have hto := toInt_ofInt_of_fits hpos (fitsWidth_immediate hwf hone hzero)
    rw [heq] at hto
    exact hzero (hto.symm.trans BitVec.toInt_zero)

/-- An operation other than a shift. -/
theorem runsAs_arith (hwf : number.Wf) (hb : number.bitWidth ≤ w) (hshift : op.isShift = false)
    (hrs : OldReg e.vregCounter rs) (hready : Ready op (ρ.get rs) x)
    (h : emitBinaryConst op (binaryOpHas32BitMachineResult op number.bitWidth) (.virtual rd) rs
      (asI32 number.asI64) number.bitWidth e = some e') :
    RunsAs sym op number.bitWidth rd rs e e' ρ (BitVec.ofInt w (usedImmediate op number)) := by
  have hrefl : Emits sym [.virtual rd] e e ρ ρ := .refl e ρ
  have hx := hready.low
  have hbounds := asI32_bounds number.asI64
  have hnat : (asI32 number.asI64).natAbs ≤ 2 ^ 31 := by omega
  -- one case for each operation, with the immediate that its code acts on
  cases op with
  | shl | lshr | ashr => cases hshift
  | udiv => exact runsAs_udiv hwf hb hrs hready h
  | urem => exact runsAs_urem hwf hb hrs hready h
  | add =>
    refine runsAs_of_ready hb rfl hready (ready_ofInt hb rfl _) rfl ?_
    simp only [emitBinaryConst] at h
    split at h
    · next hfits =>
      cases h
      obtain ⟨r, halu, hr⟩ := sets_addi (I := I) hb eq_32_of_has32 hfits hx sym (.virtual rd)
      exact .push hrefl halu hr
    · cases h
  | sub =>
    refine runsAs_of_ready hb rfl hready (ready_ofInt hb rfl _) rfl ?_
    simp only [emitBinaryConst] at h
    split at h
    · next hfits =>
      cases h
      obtain ⟨r, halu, hr⟩ := sets_addi (I := I) hb eq_32_of_has32 hfits.2 hx sym (.virtual rd)
      refine .push hrefl halu ?_
      rw [hr, BitVec.ofInt_neg, BitVec.sub_eq_add_neg]
      rfl
    · cases h
  | mul =>
    rw [← Option.some.inj h]
    refine runsAs_expanded hrs (fun _ => rfl) fun e₁ he => ?_
    exact runsAs_of_ready hb rfl hready (ready_ofInt hb rfl _) rfl (emitMulConst_puts hb hnat hx he)
  | sdiv =>
    rw [← Option.some.inj h]
    refine runsAs_expanded hrs (fun _ => rfl) fun e₁ he => ?_
    have hzero : asI32 number.asI64 ≠ 0 := by
      intro hzero
      simp [emitSdivConst, hzero] at he
    have hfits : asI32 number.asI64 ≠ 1 → FitsWidth number.bitWidth (asI32 number.asI64) :=
      fun hone => fitsWidth_immediate hwf hone hzero
    refine runsAs_signed hb hwf.width_pos (Or.inl rfl) hfits hready ?_
      (emitSdivConst_puts hb hwf.width_pos (fun hone _ => hfits hone) hrs
        (reads_of_ready hready rfl) he)
    exact if_neg (ofInt_immediate_ne_zero hwf hzero)
  | srem =>
    rw [← Option.some.inj h]
    refine runsAs_expanded hrs (fun _ => rfl) fun e₁ he => ?_
    have hzero : asI32 number.asI64 ≠ 0 := by
      intro hzero
      simp [emitSremConst, hzero] at he
    have hfits : asI32 number.asI64 ≠ 1 → FitsWidth number.bitWidth (asI32 number.asI64) :=
      fun hone => fitsWidth_immediate hwf hone hzero
    refine runsAs_signed hb hwf.width_pos (Or.inr rfl) hfits hready ?_
      (emitSremConst_puts hb hwf.width_pos hnat (fun hone _ => hfits hone) hrs
        (reads_of_ready hready rfl) he)
    exact if_neg (ofInt_immediate_ne_zero hwf hzero)
  | and =>
    refine runsAs_of_ready hb rfl hready (ready_ofInt hb rfl _) rfl ?_
    simp only [emitBinaryConst] at h
    split at h
    · next hfits =>
      cases h
      refine .push hrefl (LawfulMachine.alu_andi _ _ hfits _ _) ?_
      rw [BitVec.setWidth_and, hx, setWidth_ofInt _ hb]
      rfl
    · cases h
  | or =>
    refine runsAs_of_ready hb rfl hready (ready_ofInt hb rfl _) rfl ?_
    simp only [emitBinaryConst] at h
    split at h
    · next hfits =>
      cases h
      refine .push hrefl (LawfulArith.alu_ori _ _ hfits _ _) ?_
      rw [BitVec.setWidth_or, hx, setWidth_ofInt _ hb]
      rfl
    · cases h
  | xor =>
    refine runsAs_of_ready hb rfl hready (ready_ofInt hb rfl _) rfl ?_
    simp only [emitBinaryConst] at h
    split at h
    · next hfits =>
      cases h
      refine .push hrefl (LawfulArith.alu_xori _ _ hfits _ _) ?_
      rw [BitVec.setWidth_xor, hx, setWidth_ofInt _ hb]
      rfl
    · cases h

end Divisor

end Runs

/-! ## The three ways -/

section Uses

variable {R I : Type} {w : Nat} [DecidableEq R] [MachineSemantics R w I]

/-- As an operand, the constant `c` is in a register that holds `v`. -/
def OperandUses (I : Type) [MachineSemantics R w I] (m : ModuleCore)
    (symbols : HashMap String SymbolId) (S : FunctionLoweringState) (c : Ir.ConstId) (v : Int) :
    Prop :=
  ∀ (sym : SymbolId → BitVec w) (e : Emitter I) (ρ : Regs R I w), ∃ r e' ρ',
    lowerOperand m symbols S (.const c) e = some (r, e') ∧ Emits sym [] e e' ρ ρ' ∧
      ρ'.get r = .ofInt w v

/-- As an index, the constant `c` moves the base by `v` strides. -/
def OffsetUses (I : Type) [MachineSemantics R w I] (m : ModuleCore)
    (symbols : HashMap String SymbolId) (S : FunctionLoweringState) (c : Ir.ConstId) (v : Int) :
    Prop :=
  ∀ (sym : SymbolId → BitVec w) (e e' : Emitter I) (ρ : Regs R I w) (base r : Register R)
    (stride : Nat), OldReg e.vregCounter base →
    emitAddOffset m symbols S base stride (.const c) e = some (r, e') →
    ∃ ρ', Emits sym [] e e' ρ ρ' ∧ ρ'.get r = ρ.get base + .ofInt w (v * asI32 stride)

/-- As the immediate of an operation of `b` bits, the constant acts like `v`; of a shift, where it
is less than `b`. -/
def BinaryUses (I : Type) [MachineSemantics R w I] [ArithTarget R I] (op : BinaryOpcode) (b : Nat)
    (number : CoreInt) (v : Int) : Prop :=
  ∀ (sym : SymbolId → BitVec w) (e e' : Emitter I) (ρ : Regs R I w) (rd : VRegId)
    (rs : Register R) (x : BitVec b), OldReg e.vregCounter rs → Ready op (ρ.get rs) x →
    (op.isShift = true → asI32 number.asI64 < b) →
    emitBinaryConst op (binaryOpHas32BitMachineResult op b) (.virtual rd) rs (asI32 number.asI64) b
      e = some e' →
    RunsAs sym op b rd rs e e' ρ (.ofInt w v)

variable {m : ModuleCore} {symbols : HashMap String SymbolId} {S : FunctionLoweringState}
  {c : Ir.ConstId} {d : Ir.ConstData} {number : CoreInt}

omit [DecidableEq R] [MachineSemantics R w I] in
/-- Equal low bits, equal modulo a power of two. -/
theorem modEq_of_ofInt_eq {v v' : Int} {b : Nat} (hb : b ≤ w)
    (h : BitVec.ofInt w v = BitVec.ofInt w v') : v ≡ v' [ZMOD 2 ^ b] := by
  have hto := congrArg (fun r => (r.toNat : Int)) h
  simp only [BitVec.toNat_ofInt] at hto
  rw [Int.toNat_of_nonneg (Int.emod_nonneg _ (by positivity)),
    Int.toNat_of_nonneg (Int.emod_nonneg _ (by positivity))] at hto
  have hmod : v ≡ v' [ZMOD 2 ^ w] := by
    unfold Int.ModEq
    exact_mod_cast hto
  exact hmod.of_dvd (pow_dvd_pow 2 hb)

variable [LawfulMachine R w I]

/-- An operand uses the cast number. -/
theorem operandUses (hd : m.constData c = some d) (hk : d.kind = .int number) (hwf : number.Wf) :
    OperandUses I m symbols S c (asI32 number.asI64) := by
  intro sym e ρ
  simp only [lowerOperand, hd, hk, Option.bind_eq_bind, Option.bind_some]
  split
  · next hzero =>
    refine ⟨_, e, ρ, rfl, .refl e ρ, ?_⟩
    rw [hwf.asI64_zero hzero, asI32_of_bounds (by decide), ρ.get_zero]
    simp
  · refine ⟨_, _, _, rfl, (Emits.refl e ρ).newVreg.push (Or.inr (allocated_newVreg le_rfl))
      (LawfulMachine.alu_loadImm ..), RegFile.get_set_virtual _ _ _⟩

/-- An immediate added to a register, whatever its sign. -/
theorem emitAddImm_emits {base r : Register R} {imm : Int} {e e' : Emitter I}
    (sym : SymbolId → BitVec w) (ρ : Regs R I w) (hbase : OldReg e.vregCounter base)
    (h : emitAddImm base imm e = some (r, e')) :
    ∃ ρ', Emits sym [] e e' ρ ρ' ∧ ρ'.get r = ρ.get base + .ofInt w imm := by
  obtain ⟨-, -, h⟩ := Option.bind_eq_some_iff.mp h
  split at h
  · next hzero =>
    cases h
    refine ⟨ρ, .refl e ρ, ?_⟩
    rw [hzero]
    simp
  · split at h
    · next himm =>
      cases h
      exact ⟨_, (Emits.refl e ρ).newVreg.push (Or.inr (allocated_newVreg le_rfl))
        (LawfulMachine.alu_addi _ _ himm _ _), RegFile.get_set_virtual _ _ _⟩
    · cases h
      have hrefl : Emits sym [] e e ρ ρ := .refl e ρ
      have hload := hrefl.newVreg.push (Or.inr (allocated_newVreg le_rfl))
        (LawfulMachine.alu_loadImm (I := I) (.virtual e.vregCounter) imm ρ.get sym)
      have hsum := hload.newVreg.push (Or.inr (allocated_newVreg (Nat.le_succ _)))
        (LawfulMachine.alu_add (I := I) (.virtual (e.vregCounter + 1)) base
          (.virtual e.vregCounter) _ sym)
      refine ⟨_, hsum, ?_⟩
      show (RegFile.set _ (.virtual (e.vregCounter + 1)) _).get (.virtual (e.vregCounter + 1)) = _
      rw [RegFile.get_set_virtual, RegFile.get_set_virtual, RegFile.get_set_ne _ (hbase _ le_rfl)]

/-- An offset does too. -/
theorem offsetUses (hd : m.constData c = some d) (hk : d.kind = .int number) :
    OffsetUses I m symbols S c (asI32 number.asI64) := by
  intro sym e e' ρ base r stride hbase h
  simp only [emitAddOffset, constInt, hd, hk, Option.bind_eq_bind, Option.bind_some] at h
  exact emitAddImm_emits sym ρ hbase h

/-- The code for an operand uses the constant exactly if it fits. -/
theorem operandUses_iff (hd : m.constData c = some d) (hk : d.kind = .int number)
    (hwf : number.Wf) (hw : number.bitWidth ≤ w) :
    (∃ v, OperandUses I m symbols S c v ∧ v ≡ number.value [ZMOD 2 ^ number.bitWidth]) ↔
      FitsI32 number := by
  rw [← asI32_asI64_modEq_iff hwf]
  constructor
  · rintro ⟨v, huses, hmod⟩
    have hown : OperandUses I m symbols S c (asI32 number.asI64) := operandUses hd hk hwf
    have ρ : Regs R I w := ⟨fun _ => 0, rfl⟩
    obtain ⟨r, e', ρ', hcode, hemits, hget⟩ := huses (fun _ => 0) ⟨[], 0⟩ ρ
    obtain ⟨r₁, e₁, ρ₁, hcode₁, hemits₁, hget₁⟩ := hown (fun _ => 0) ⟨[], 0⟩ ρ
    rw [hcode] at hcode₁
    cases hcode₁
    obtain rfl := hemits.unique hemits₁
    exact (modEq_of_ofInt_eq hw (hget₁.symm.trans hget)).trans hmod
  · exact fun hmod => ⟨_, operandUses hd hk hwf, hmod⟩

/-- The code for an index uses the constant exactly if it fits. -/
theorem offsetUses_iff (hd : m.constData c = some d) (hk : d.kind = .int number)
    (hwf : number.Wf) (hw : number.bitWidth ≤ w) :
    (∃ v, OffsetUses I m symbols S c v ∧ v ≡ number.value [ZMOD 2 ^ number.bitWidth]) ↔
      FitsI32 number := by
  rw [← asI32_asI64_modEq_iff hwf]
  constructor
  · rintro ⟨v, huses, hmod⟩
    have hown : OffsetUses I m symbols S c (asI32 number.asI64) := offsetUses hd hk
    have ρ : Regs R I w := ⟨fun _ => 0, rfl⟩
    have hbase : OldReg 0 (zeroOperand I : Register R) := fun v _ h => by cases h
    -- a stride of one shows the index itself
    obtain ⟨r, e', hcode⟩ : ∃ r e', emitAddOffset m symbols S (zeroOperand I) 1 (.const c)
        (⟨[], 0⟩ : Emitter I) = some (r, e') := by
      have hone : asI32 ((1 : Nat) : Int) = 1 := by decide
      have hfits : asI32 (asI32 number.asI64) = asI32 number.asI64 :=
        asI32_of_bounds (asI32_bounds _)
      simp only [emitAddOffset, constInt, hd, hk, Option.bind_eq_bind, Option.bind_some, hone,
        mul_one, emitAddImm, hfits, guard, if_true, pure]
      split
      · exact ⟨_, _, rfl⟩
      · split <;> exact ⟨_, _, rfl⟩
    obtain ⟨ρ', hemits, hget⟩ := huses (fun _ => 0) _ _ ρ _ _ _ hbase hcode
    obtain ⟨ρ₁, hemits₁, hget₁⟩ := hown (fun _ => 0) _ _ ρ _ _ _ hbase hcode
    obtain rfl := hemits.unique hemits₁
    rw [hget, show asI32 ((1 : Nat) : Int) = 1 by decide, mul_one, mul_one] at hget₁
    exact (modEq_of_ofInt_eq hw (add_left_cancel hget₁).symm).trans hmod
  · exact fun hmod => ⟨_, offsetUses hd hk, hmod⟩

variable [ArithTarget R I] [LawfulArith R w I]

/-- A binary operation uses `usedImmediate`. -/
theorem binaryUses {op : BinaryOpcode} {b : Nat} (hwf : number.Wf) (hw : b ≤ w)
    (hwidth : op.isShift = false → number.bitWidth = b) :
    BinaryUses I op b number (usedImmediate op number) := by
  intro sym e e' ρ rd rs x hrs hready hamount h
  cases hshift : op.isShift with
  | false =>
    obtain rfl := hwidth hshift
    exact runsAs_arith hwf hw hshift hrs hready h
  | true =>
    obtain ⟨n, hn⟩ := Int.eq_ofNat_of_zero_le (nonneg_of_shift hshift h)
    have hlt := hamount hshift
    have himm : usedImmediate op number = n := by
      rw [← hn]
      cases op with
      | shl | lshr | ashr => rfl
      | _ => cases hshift
    rw [hn] at h hlt
    rw [himm]
    exact runsAs_shift hw hshift (by exact_mod_cast hlt) hready h

/-- **What the code uses for an integer constant** that is no wider than a register: as an operand
and as an index a number equal to the constant exactly if the constant fits in an `i32`, and as an
immediate the number `usedImmediate`, which is equal to the constant exactly if it fits the
operation. -/
theorem constant_uses_iff (m : ModuleCore) (symbols : HashMap String SymbolId)
    (S : FunctionLoweringState) (hd : m.constData c = some d) (hk : d.kind = .int number)
    (hwf : number.Wf) (hw : number.bitWidth ≤ w) :
    ((∃ v, OperandUses I m symbols S c v ∧ v ≡ number.value [ZMOD 2 ^ number.bitWidth]) ↔
        FitsI32 number) ∧
      ((∃ v, OffsetUses I m symbols S c v ∧ v ≡ number.value [ZMOD 2 ^ number.bitWidth]) ↔
        FitsI32 number) ∧
      ∀ (op : BinaryOpcode) (b : Nat), b ≤ w → (op.isShift = false → number.bitWidth = b) →
        BinaryUses I op b number (usedImmediate op number) ∧
          (usedImmediate op number ≡ number.value [ZMOD 2 ^ number.bitWidth] ↔
            ImmediateFits op number) :=
  ⟨operandUses_iff hd hk hwf hw, offsetUses_iff hd hk hwf hw, fun op _ hb hwidth =>
    ⟨binaryUses hwf hb hwidth, usedImmediate_modEq_iff hwf op⟩⟩

end Uses

/-! ## A length of more than 32 bits -/

open ConstPhi (constPhi)

/-- The constant of the example. -/
theorem constPhi_const (n : Nat) : (constPhi n).constData 1 = some ⟨.int 64, .int ⟨n, 64⟩, []⟩ :=
  rfl

theorem constant_uses_iff_seven :
    ((∃ v, OperandUses RV64Inst (constPhi 7) ∅ .new 1 v ∧ v ≡ (7 : Nat) [ZMOD 2 ^ 64]) ↔
        FitsI32 ⟨7, 64⟩) ∧
      ((∃ v, OffsetUses RV64Inst (constPhi 7) ∅ .new 1 v ∧
          v ≡ (7 : Nat) [ZMOD 2 ^ 64]) ↔ FitsI32 ⟨7, 64⟩) ∧
      ∀ (op : BinaryOpcode) (b : Nat), b ≤ 64 → (op.isShift = false → 64 = b) →
        BinaryUses RV64Inst op b ⟨7, 64⟩ (usedImmediate op ⟨7, 64⟩) ∧
          (usedImmediate op ⟨7, 64⟩ ≡ (7 : Nat) [ZMOD 2 ^ 64] ↔ ImmediateFits op ⟨7, 64⟩) :=
  constant_uses_iff (constPhi 7) ∅ .new (constPhi_const 7) rfl ⟨by decide, by decide, by decide⟩
    (by decide)

/-- The `usize` constant `2 ^ 32` is in no register that is loaded for it. -/
theorem operand_not_used :
    ¬ ∃ v, OperandUses RV64Inst (constPhi (2 ^ 32)) ∅ .new 1 v ∧
      v ≡ (2 ^ 32 : Nat) [ZMOD 2 ^ 64] := by
  have hwf : CoreInt.Wf ⟨2 ^ 32, 64⟩ := ⟨by decide, by decide, by decide⟩
  have hiff : (∃ v, OperandUses RV64Inst (constPhi (2 ^ 32)) ∅ .new 1 v ∧
      v ≡ (2 ^ 32 : Nat) [ZMOD 2 ^ 64]) ↔ FitsI32 ⟨2 ^ 32, 64⟩ :=
    operandUses_iff (constPhi_const (2 ^ 32)) rfl hwf (le_refl 64)
  rw [hiff]
  unfold FitsI32
  decide

end Mir
