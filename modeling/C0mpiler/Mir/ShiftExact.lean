import C0mpiler.Mir.Selection
import Mathlib

/-!
# Shift amounts, exactly

An amount that is not read right is told apart by some shifted value: the code then shifts by another
number. So the code of a shift is right for every value and every amount exactly if the width of the
amount, or the constant that it is, meets the condition.
-/

namespace Mir

open Ir (ModuleCore ValueId InstRef InstKind BinaryOpcode CoreInt intShift intBinary)
open LowBits

/-- Two amounts less than the width shift some value to two results. -/
theorem exists_intShift_ne {b k n : Nat} {op : BinaryOpcode} (hop : op.isShift = true) (hk : k < b)
    (hn : n < b) (hne : n ≠ k) :
    ∃ x z z' : BitVec b, intShift op x k = some z ∧ intShift op x n = some z' ∧ z' ≠ z := by
  cases op with
  | shl =>
    obtain ⟨x, hx⟩ := exists_shiftLeft_ne hk hne
    exact ⟨x, _, _, if_pos hk, if_pos hn, hx⟩
  | lshr =>
    obtain ⟨x, hx⟩ := exists_ushiftRight_ne hk hne
    exact ⟨x, _, _, if_pos hk, if_pos hn, hx⟩
  | ashr =>
    -- one of the two amounts leaves more than the sign
    rcases Nat.lt_or_ge (k + 1) b with hlt | hge
    · obtain ⟨x, hx⟩ := exists_sshiftRight_ne hlt hne
      exact ⟨x, _, _, if_pos hk, if_pos hn, hx⟩
    · have hlt : n + 1 < b := by omega
      obtain ⟨x, hx⟩ := exists_sshiftRight_ne hlt hne.symm
      exact ⟨x, _, _, if_pos hk, if_pos hn, hx.symm⟩
  | _ => cases hop

variable {R I : Type} {w : Nat} [DecidableEq R] [MachineSemantics R w I] {m : ModuleCore}
  {symbols : HashMap String SymbolId} {S : FunctionLoweringState} {sym : SymbolId → BitVec w}
  {e e' : Emitter I} {ρ ρ' : Regs R I w} {b c : Nat} {inst : InstRef} {op : BinaryOpcode}
  {lhs rhs : ValueId} {x z : BitVec b} {y : BitVec c} {v : BitVec w}
  [ArithTarget R I]

/-! ## Amounts that are misread -/

omit [DecidableEq R] in
variable (I) in
/-- With its sign extended, a narrow amount that has one is another number to the instruction. -/
theorem toNat_signExtend_ne [LawfulArith R w I] (hc : 2 ^ c < w) (hmsb : y.msb = true) :
    (y.signExtend w).toNat % w ≠ y.toNat := by
  rw [toNat_signExtend_mod y (word_dvd_two_pow (I := I)) hc hmsb]
  omega

omit [DecidableEq R] in
variable (I) in
/-- A width of amounts that the condition leaves out has an amount that is misread. -/
theorem exists_amount [LawfulArith R w I] (hc : c ≤ w) (hcpos : 0 < c)
    (hnot : ¬ShiftAmountFits w op b c (2 ^ (c - 1))) :
    ∃ (y : BitVec c) (v : BitVec w), y.toNat < b ∧ v.setWidth c = y ∧ ¬ReadsAmount op b v y := by
  have hhalf : 2 ^ (c - 1) < 2 ^ c := Nat.pow_lt_pow_right (by decide) (by omega)
  unfold ShiftAmountFits at hnot
  unfold ReadsAmount
  cases hword : binaryOpHas32BitMachineResult op b with
  | true =>
    -- the bit above the amount is read
    rw [if_pos hword] at hnot
    obtain rfl := eq_32_of_has32 hword
    have hpow : 2 ^ c < 32 := Nat.pow_lt_pow_right (by decide : 1 < 2) (Nat.lt_of_not_le hnot)
    have hcw : c < w := Nat.lt_two_pow_self.trans (hpow.trans_le (by
      rcases LawfulArith.width_cases (I := I) with rfl | rfl <;> decide))
    refine ⟨0, BitVec.twoPow w c, by simp, ?_, ?_⟩
    · apply BitVec.eq_of_toNat_eq
      rw [BitVec.toNat_setWidth, toNat_twoPow hcw, Nat.mod_self]
      simp
    · rw [if_pos rfl, toNat_twoPow hcw, Nat.mod_eq_of_lt hpow]
      simp
  | false =>
    -- the least amount with a sign
    rw [hword, if_neg Bool.false_ne_true] at hnot
    simp only [Classical.not_imp, not_or, Nat.not_le] at hnot
    obtain ⟨rfl, hwide, hsign⟩ := hnot
    have hy : (BitVec.twoPow c (c - 1)).toNat = 2 ^ (c - 1) := toNat_twoPow (by omega)
    have hmsb : (BitVec.twoPow c (c - 1)).msb = true := by
      rw [BitVec.msb_eq_true_iff_two_mul_ge, hy, ← Nat.pow_succ', Nat.succ_eq_add_one,
        Nat.sub_add_cancel hcpos]
    refine ⟨BitVec.twoPow c (c - 1), (BitVec.twoPow c (c - 1)).setWidth w, by omega, ?_, ?_⟩
    · rw [BitVec.setWidth_setWidth_of_le _ hc, BitVec.setWidth_eq]
    · rw [if_neg Bool.false_ne_true, hmsb, hy]
      intro hreads
      rcases hreads rfl with hle | hfalse | hle
      · exact absurd hle (Nat.not_le.mpr hwide)
      · cases hfalse
      · exact absurd hle (Nat.not_le.mpr hsign)

omit [DecidableEq R] in
variable (I) in
/-- A negative constant that the condition leaves out is misread. -/
theorem misread_const [LawfulArith R w I] {number : CoreInt} (hwf : number.Wf) (hneg : number.asI64 < 0)
    (hnot : ¬ShiftAmountFits w op b number.bitWidth number.value) :
    number.value < b ∧ ¬ReadsAmount op b (BitVec.ofInt w number.asI64)
      (BitVec.ofNat number.bitWidth number.value) := by
  have hlt := hwf.value_lt
  have hto := toNat_ofNat_value hwf
  have hone : number.bitWidth ≠ 1 := by
    intro hone
    rw [CoreInt.asI64, if_pos hone] at hneg
    omega
  have hasI64 := hwf.asI64_eq hone
  have hhigh : 2 ^ (number.bitWidth - 1) ≤ number.value := by
    by_contra hsmall
    rw [asI64_of_small hwf (Nat.not_le.mp hsmall)] at hneg
    omega
  rw [if_pos hhigh] at hasI64
  unfold ShiftAmountFits at hnot
  unfold ReadsAmount
  cases hword : binaryOpHas32BitMachineResult op b with
  -- the word form reads five bits, and the constant has fewer
  | true =>
    rw [if_pos hword] at hnot
    obtain rfl := eq_32_of_has32 hword
    have hpow : 2 ^ number.bitWidth < 32 :=
      Nat.pow_lt_pow_right (by decide : 1 < 2) (Nat.lt_of_not_le hnot)
    refine ⟨hlt.trans hpow, ?_⟩
    rw [if_pos rfl, hto]
    intro heq
    have hdvd : (32 : Int) ∣ 2 ^ w := by
      rcases LawfulArith.width_cases (I := I) with rfl | rfl <;> decide
    have hmod : ((BitVec.ofInt w number.asI64).toNat : Int) % 32 = number.asI64 % 32 := by
      rw [BitVec.toNat_ofInt, Int.toNat_of_nonneg (Int.emod_nonneg _ (by positivity))]
      push_cast
      exact Int.emod_emod_of_dvd _ hdvd
    have hcast : ((2 ^ number.bitWidth : Nat) : Int) = 2 ^ number.bitWidth := by push_cast; rfl
    have hpos : 0 < 2 ^ number.bitWidth := Nat.two_pow_pos _
    omega
  -- the full form reads them all, the sign bits among them
  | false =>
    rw [hword, if_neg Bool.false_ne_true] at hnot
    simp only [Classical.not_imp, not_or, Nat.not_le] at hnot
    obtain ⟨rfl, hwide, hsign⟩ := hnot
    have hmsb : (BitVec.ofNat number.bitWidth number.value).msb = true := by
      rw [BitVec.msb_eq_true_iff_two_mul_ge, hto, hwf.two_pow]
      omega
    refine ⟨by omega, ?_⟩
    rw [if_neg Bool.false_ne_true, hmsb, hto]
    intro hreads
    rcases hreads rfl with hle | hfalse | hle
    · exact absurd hle (Nat.not_le.mpr hwide)
    · cases hfalse
    · exact absurd hle (Nat.not_le.mpr hsign)

variable [LawfulMachine R w I] [LawfulArith R w I]

/-- A shift of 32 bits shifts by the low five bits of the register of its amount. -/
theorem computes_word_shift {x z : BitVec 32} {rs1 : Register R} {operandBits : Nat}
    (hword : binaryOpHas32BitMachineResult op 32 = true) (hb : 32 ≤ w)
    (hty : m.valueTy rhs = some (.int c)) (hz : intShift op x (v.toNat % 32) = some z)
    (hS : S.Below e.vregCounter) (hvalue : operandValue m symbols S sym ρ rhs = some v)
    (hrs1 : OldReg e.vregCounter rs1) (hready : Ready op (ρ.get rs1) x) :
    Computes sym e ρ inst z (lowerBinaryReg m symbols S inst op
      (binaryOpHas32BitMachineResult op 32) rs1 rhs operandBits 32 e) := by
  obtain ⟨r, e₁, ρ₁, hlower, hemits, hold, hget⟩ := lowerOperand_value hvalue hS
  have hnorm : normalizeBinaryOperand m op (binaryOpHas32BitMachineResult op 32) rhs r c e₁ =
      some (r, e₁) := by
    rw [normalizeBinaryOperand, if_pos hword]
  have hleft : Ready op (ρ₁.get rs1) x := by
    rw [hemits.get_oldReg hrs1]
    exact hready
  refine lowerBinaryReg_of_sets hb (by decide) hty hS hlower hnorm hemits fun rd => ?_
  rw [hword]
  exact sets_shift_word hb hz hleft.low (by rw [hget]) sym rd

/-- A narrow amount of an arithmetic shift is read with its sign extended. -/
theorem computes_sign_extended {rs1 : Register R} {operandBits : Nat} (hm : WellTyped m)
    (hword : binaryOpHas32BitMachineResult .ashr b = false) (hb : b ≤ w) (hbpos : 0 < b)
    (hwide : 2 ^ c < w) (hty : m.valueTy rhs = some (.int c)) (hv : v.setWidth c = y)
    (hS : S.Below e.vregCounter) (hvalue : operandValue m symbols S sym ρ rhs = some v)
    (hrs1 : OldReg e.vregCounter rs1) (hready : Ready .ashr (ρ.get rs1) x) :
    Computes sym e ρ inst (x.sshiftRight ((y.signExtend w).toNat % w)) (lowerBinaryReg m symbols S
      inst .ashr (binaryOpHas32BitMachineResult .ashr b) rs1 rhs operandBits b e) := by
  have hc : c ≤ w := (Nat.lt_two_pow_self.trans hwide).le
  obtain ⟨r, e₁, ρ₁, hlower, hemits₁, hold₁, hget⟩ := lowerOperand_value hvalue hS
  obtain ⟨rs2, e₂, u, hcode, ⟨ρ₂, hemits₂, -, rfl⟩, -, hext⟩ :=
    emitNormalizedIntOperand_yields sym hm (binaryOperandsAreSigned .ashr) hty hc hold₁ (hget ▸ hv)
  have hne32 : c ≠ 32 := by
    rintro rfl
    rcases LawfulArith.width_cases (I := I) with rfl | rfl <;> exact absurd hwide (by decide)
  have hget₂ : ρ₂.get rs2 = y.signExtend w := hext fun hnot => hne32 hnot.2.1
  have hnorm : normalizeBinaryOperand m .ashr (binaryOpHas32BitMachineResult .ashr b) rhs r c e₁ =
      some (rs2, e₂) := by
    rw [normalizeBinaryOperand, hword, if_neg Bool.false_ne_true, hcode]
  have hemits := hemits₁.trans hemits₂
  have hleft : Ready .ashr (ρ₂.get rs1) x := by
    rw [hemits.get_oldReg hrs1]
    exact hready
  refine lowerBinaryReg_of_sets hb hbpos hty hS hlower hnorm hemits fun rd => ?_
  rw [hword]
  refine ⟨_, LawfulArith.alu_sra .., ?_⟩
  rw [hleft.extended rfl hword, hget₂]
  exact setWidth_sshiftRight x _ hb

/-- The code of a shift whose amount is misread leaves a wrong result for some shifted value. -/
theorem exists_misread (symbols : HashMap String SymbolId) (sym : SymbolId → BitVec w)
    (hm : WellTyped m) (hop : op.isShift = true) (hb : b ≤ w) (hbpos : 0 < b)
    (hty : m.valueTy rhs = some (.int c)) (hy : y.toNat < b) (hv : v.setWidth c = y)
    (hmis : ¬ReadsAmount op b v y) :
    ∃ x z z' : BitVec b, intBinary op x y = some z ∧ z' ≠ z ∧
      ∀ (S : FunctionLoweringState) (e : Emitter I) (ρ : Regs R I w) (inst : InstRef)
        (rs1 : Register R) (operandBits : Nat),
        S.Below e.vregCounter → operandValue m symbols S sym ρ rhs = some v →
        OldReg e.vregCounter rs1 → Ready op (ρ.get rs1) x →
        Computes sym e ρ inst z' (lowerBinaryReg m symbols S inst op
          (binaryOpHas32BitMachineResult op b) rs1 rhs operandBits b e) := by
  unfold ReadsAmount at hmis
  split at hmis
  · next hword =>
    obtain rfl := eq_32_of_has32 hword
    obtain ⟨x, z, z', hz, hz', hne⟩ :=
      exists_intShift_ne hop hy (Nat.mod_lt v.toNat (by decide)) hmis
    refine ⟨x, z, z', by rw [intBinary, if_pos hop, hz], hne, ?_⟩
    intro S e ρ inst rs1 operandBits hS hvalue hrs1 hready
    exact computes_word_shift hword hb hty hz' hS hvalue hrs1 hready
  · next hword =>
    simp only [Classical.not_imp, not_or, Nat.not_le, Bool.not_eq_false] at hmis
    obtain ⟨rfl, hwide, hmsb, hsign⟩ := hmis
    obtain ⟨x, hne⟩ := exists_sshiftRight_ne hsign (toNat_signExtend_ne I hwide hmsb)
    refine ⟨x, _, _, by rw [intBinary, if_pos hop]; exact if_pos hy, hne, ?_⟩
    intro S e ρ inst rs1 operandBits hS hvalue hrs1 hready
    exact computes_sign_extended hm (Bool.eq_false_of_not_eq_true hword) hb hbpos hwide hty hv hS
      hvalue hrs1 hready

/-! ## Shifts by an amount that is no immediate -/

/-- The right operand is not taken in as an immediate. -/
def NoImmediate (m : ModuleCore) (rhs : ValueId) : Prop :=
  ∀ number, constInt m rhs = some (some number) → asI32 number.asI64 < 0

omit [LawfulArith R w I] in
/-- Without an immediate the register form is used. -/
theorem lowerBinary_of_reg (hm : WellTyped m) (hop : op.isShift = true)
    (hinst : m.valueTy (.inst inst) = some (.int b)) (hlhsTy : m.valueTy lhs = some (.int b))
    (hrhsTy : m.valueTy rhs = some (.int c)) (hlhs : StandsFor m symbols S sym ρ lhs x)
    (hlhsFits : ConstFits m lhs) (himm : NoImmediate m rhs)
    (hvalue : operandValue m symbols S sym ρ rhs = some v) (hS : S.Below e.vregCounter)
    (hcode : ∀ (S : FunctionLoweringState) (e : Emitter I) (ρ : Regs R I w) (inst : InstRef)
      (rs1 : Register R) (operandBits : Nat),
      S.Below e.vregCounter → operandValue m symbols S sym ρ rhs = some v →
      OldReg e.vregCounter rs1 → Ready op (ρ.get rs1) x →
      Computes sym e ρ inst z (lowerBinaryReg m symbols S inst op
        (binaryOpHas32BitMachineResult op b) rs1 rhs operandBits b e)) :
    Computes sym e ρ inst z (lowerBinary m symbols S inst op lhs rhs e) := by
  have hb : b ≤ w := hlhs.1
  have hbpos : 0 < b := hm.intTypes lhs b hlhsTy
  obtain ⟨r, e₁, ρ₁, hlower, hemits₁, hold₁, hlow⟩ :=
    lowerOperand_standsFor hlhs hm hlhsFits hS (.refl e ρ)
  obtain ⟨rs1, e₂, ρ₂, hnorm, hemits₂, hold₂, hready⟩ :=
    normalizeBinaryOperand_left sym op hm hlhsTy hb hold₁ hlow
  have hemits := hemits₁.trans hemits₂
  have hS₂ : S.Below e₂.vregCounter := hS.mono hemits.counter_le
  have hvalue₂ : operandValue m symbols S sym ρ₂ rhs = some v := by
    rw [operandValue_congr (hemits.values hS), hvalue]
  obtain ⟨const, hconst⟩ := Option.isSome_iff_exists.mp
    (constInt_isSome (m := m) (v := rhs) (by rw [hrhsTy]; rfl))
  simp only [lowerBinary, intBitsForValue_of_ty hinst, intBitsForValue_of_ty hlhsTy, hlower, hnorm,
    hconst, Option.bind_eq_bind, Option.bind_some, Option.getD_some]
  -- a constant without an immediate form leaves no code behind, so the register form follows
  cases const with
  | none =>
    obtain ⟨rd, S', e', hreg, hrd, hputs⟩ := hcode S e₂ ρ₂ inst rs1 b hS₂ hvalue₂ hold₂ hready
    exact ⟨rd, S', e', hreg, hrd, .after hemits hputs⟩
  | some number =>
    obtain ⟨rd, S', e₃, hensure, hemits₃, hS₃, -⟩ := ensureInstVreg_spec sym inst hS₂ ρ₂
    obtain ⟨raw, e₄, hraw, hemits₄, -⟩ := rawResult_spec sym op rd hb hbpos e₃ ρ₂
    have hnone : emitBinaryConst op (binaryOpHas32BitMachineResult op b)
        (.virtual raw : Register R) rs1 (asI32 number.asI64) b e₄ = none := by
      cases hemit : emitBinaryConst op (binaryOpHas32BitMachineResult op b)
          (.virtual raw : Register R) rs1 (asI32 number.asI64) b e₄ with
      | none => rfl
      | some e₅ => exact absurd (nonneg_of_shift hop hemit) (Int.not_le.mpr (himm number hconst))
    obtain ⟨k, d, rfl, -, -⟩ := constInt_eq_some hconst
    have hemits' := hemits.trans (hemits₃.trans hemits₄)
    obtain ⟨rd', S'', e', hreg, hrd', hputs⟩ :=
      hcode S' e₄ ρ₂ inst rs1 b (hS₃.mono hemits₄.counter_le) hvalue₂
        (hold₂.mono (hemits₃.trans hemits₄).counter_le) hready
    refine ⟨rd', S'', e', ?_, hrd', .after hemits' hputs⟩
    simp only [hensure, hraw, hnone, hreg]

/-! ## The condition is exact -/

omit [DecidableEq R] [ArithTarget R I] [LawfulMachine R w I] [LawfulArith R w I] in
/-- The value of a negative constant as an operand. -/
theorem operandValue_neg {k : Ir.ConstId} {d : Ir.ConstData} {number : CoreInt}
    (hd : m.constData k = some d) (hk : d.kind = .int number) (hwf : number.Wf)
    (hfit : FitsI32 number) (hneg : number.asI64 < 0) :
    operandValue m symbols S sym ρ (.const k) = some (BitVec.ofInt w number.asI64) := by
  have hne : number.asU64 ≠ 0 := by
    intro hzero
    have hsmall : number.asI64 = number.value :=
      asI64_of_small hwf (by rw [show number.value = 0 from hzero]; exact Nat.two_pow_pos _)
    omega
  simp only [operandValue, hd, hk, Option.bind_eq_bind, Option.bind_some, if_neg hne,
    asI32_asI64 hwf hfit]

/-- The right operand of a shift is a constant that fits or is in a register other than `r`. -/
def AmountOperand (I : Type) [MachineSemantics R w I] (m : ModuleCore)
    (symbols : HashMap String SymbolId) (S : FunctionLoweringState) (sym : SymbolId → BitVec w)
    (r : VRegId) (rhs : ValueId) : Prop :=
  (∃ number, constInt m rhs = some (some number) ∧ FitsI32 number) ∨
    constInt m rhs = some none ∧
      ∃ r', r' ≠ r ∧ ∀ ρ : Regs R I w, operandValue m symbols S sym ρ rhs = some (ρ.get (.virtual r'))

omit [LawfulMachine R w I] in
/-- Where the condition is not met, the operands can hold an amount that is misread, whatever the
shifted value. -/
theorem exists_misread_operand (hm : WellTyped m) {r : VRegId} (hb : b ≤ w) (hc : c ≤ w)
    (hrhsTy : m.valueTy rhs = some (.int c)) (hlhs : constInt m lhs = some none)
    (hlhsReg : ∀ ρ : Regs R I w, operandValue m symbols S sym ρ lhs = some (ρ.get (.virtual r)))
    (hrhs : AmountOperand I m symbols S sym r rhs) (hnot : ¬AmountFits w m op b rhs) :
    ∃ (y : BitVec c) (v : BitVec w), y.toNat < b ∧ v.setWidth c = y ∧ ¬ReadsAmount op b v y ∧
      NoImmediate m rhs ∧ ∀ x : BitVec b, ∃ ρ : Regs R I w, StandsFor m symbols S sym ρ lhs x ∧
        StandsFor m symbols S sym ρ rhs y ∧ operandValue m symbols S sym ρ rhs = some v := by
  rcases hrhs with ⟨number, hconst, hfit⟩ | ⟨hconst, r', hne, hreg⟩
  · simp only [AmountFits, hconst, not_or, Int.not_le] at hnot
    obtain ⟨hneg, hnot⟩ := hnot
    obtain ⟨k, d, rfl, hd, hk⟩ := constInt_eq_some hconst
    obtain ⟨hty, hwf⟩ := hm.consts k d number hd hk
    obtain rfl : number.bitWidth = c := by
      simpa [ModuleCore.valueTy, hd, hty] using hrhsTy
    obtain ⟨hlt, hmis⟩ := misread_const I hwf hneg hnot
    have hto := toNat_ofNat_value hwf
    refine ⟨_, _, by rw [hto]; exact hlt, by rw [setWidth_ofInt _ hc, ofInt_asI64 hwf], hmis, ?_, fun x => ?_⟩
    · intro number' hconst'
      rw [hconst] at hconst'
      cases hconst'
      rw [asI32_asI64 hwf hfit]
      exact hneg
    · refine ⟨RegFile.set ⟨fun _ => 0, rfl⟩ (.virtual r) (x.setWidth w), ⟨hb, ?_⟩, ⟨hc, ?_⟩,
        operandValue_neg hd hk hwf hfit hneg⟩
      · rw [hlhs]
        exact ⟨_, hlhsReg _, by rw [RegFile.get_set_virtual]; exact setWidth_extend false x hb⟩
      · rw [hconst]
        exact ⟨rfl, rfl⟩
  · simp only [AmountFits, hconst, not_or, not_forall] at hnot
    obtain ⟨-, c', hty', hnot⟩ := hnot
    rw [hrhsTy] at hty'
    cases hty'
    obtain ⟨y, v, hy, hv, hmis⟩ := exists_amount I hc (hm.intTypes rhs c hrhsTy) hnot
    refine ⟨y, v, hy, hv, hmis, ?_, fun x => ?_⟩
    · intro number hconst'
      rw [hconst] at hconst'
      cases hconst'
    · let ρ₀ : Regs R I w := RegFile.set ⟨fun _ => 0, rfl⟩ (.virtual r) (x.setWidth w)
      have hget : (ρ₀.set (.virtual r') v).get (.virtual r') = v := RegFile.get_set_virtual _ _ _
      have hother : (ρ₀.set (.virtual r') v).get (.virtual r) = x.setWidth w := by
        rw [RegFile.get_set_ne _ (by simpa using hne.symm), RegFile.get_set_virtual]
      refine ⟨_, ⟨hb, ?_⟩, ⟨hc, ?_⟩, by rw [hreg, hget]⟩
      · rw [hlhs]
        exact ⟨_, hlhsReg _, by rw [hother]; exact setWidth_extend false x hb⟩
      · rw [hconst]
        exact ⟨_, hreg _, by rw [hget]; exact hv⟩

/-- The code of a shift is right for every shifted value and every amount exactly if the amount meets
the condition. -/
theorem shift_selects_iff (symbols : HashMap String SymbolId) (sym : SymbolId → BitVec w)
    (hm : WellTyped m) {r : VRegId} (hop : op.isShift = true)
    (hinst : m.valueTy (.inst inst) = some (.int b)) (hlhsTy : m.valueTy lhs = some (.int b))
    (hrhsTy : m.valueTy rhs = some (.int c)) (hb : b ≤ w) (hc : c ≤ w)
    (hlhs : constInt m lhs = some none)
    (hlhsReg : ∀ ρ : Regs R I w, operandValue m symbols S sym ρ lhs = some (ρ.get (.virtual r)))
    (hrhs : AmountOperand I m symbols S sym r rhs) (hS : S.Below e.vregCounter) :
    (∀ ρ z, Evaluates m symbols S sym ρ inst (.binary op lhs rhs) b z →
        Selects m symbols S sym e ρ inst (.binary op lhs rhs) z) ↔ AmountFits w m op b rhs := by
  have hbpos : 0 < b := hm.intTypes lhs b hlhsTy
  have hlhsFits : ConstFits m lhs := by
    intro c' d number hc' hd hk
    simp [hc', constInt, hd, hk] at hlhs
  constructor
  · intro hall
    by_contra hnot
    obtain ⟨y, v, hy, hv, hmis, himm, hholds⟩ :=
      exists_misread_operand hm hb hc hrhsTy hlhs hlhsReg hrhs hnot
    obtain ⟨x, z, z', hz, hne, hcode⟩ :=
      exists_misread (I := I) symbols sym hm hop hb hbpos hrhsTy hy hv hmis
    obtain ⟨ρ, hx, hyr, hvalue⟩ := hholds x
    have hright := hall ρ z (.binary hinst hlhsTy hrhsTy hx hyr hz)
    have hwrong : Computes sym e ρ inst z' (lowerBinary m symbols S inst op lhs rhs e) :=
      lowerBinary_of_reg hm hop hinst hlhsTy hrhsTy hx hlhsFits himm hvalue hS hcode
    exact hne (hright.unique (selects_of_computes hwrong rfl)).symm
  · intro hfits ρ z heval
    refine selects_of_selectable hm heval ⟨hlhsFits, ?_, ?_, ?_⟩ (by simp) hS
    · intro k d number hk hd hkind
      rcases hrhs with ⟨number', hconst, hfit⟩ | ⟨hconst, -⟩
      · simp only [hk, constInt, hd, hkind, Option.bind_eq_bind, Option.bind_some,
          Option.some.injEq] at hconst
        exact hconst ▸ hfit
      · simp [hk, constInt, hd, hkind] at hconst
    · intro hdiv
      rcases hdiv with rfl | rfl <;> cases hop
    · intro b' hlhsTy' _
      rw [hlhsTy] at hlhsTy'
      cases hlhsTy'
      exact hfits

end Mir
