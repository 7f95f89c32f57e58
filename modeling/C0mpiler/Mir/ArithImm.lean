import C0mpiler.Mir.ArithReg
import C0mpiler.Mir.PhiSound
import Mathlib

/-!
# Arithmetic with immediates

A constant right operand is read as an `i32`. That is the number it stands for if it fits, but an
unsigned division wants it without its sign: the divisor must not be one that is negative as an
`i32` and wider or narrower than the operation makes of it.
-/

namespace Mir

open Ir (BinaryOpcode CoreInt intArith intShift intBinary)
open LowBits

/-! ## The immediate of a constant -/

section Immediate

variable {number : CoreInt} {w : Nat}

/-- A constant that fits is loaded as it is. -/
theorem asI32_asI64 (hwf : number.Wf) (hfit : FitsI32 number) :
    asI32 number.asI64 = number.asI64 := by
  refine asI32_of_bounds ?_
  rcases hfit with hle | hb
  · by_cases hone : number.bitWidth = 1
    · have hlt := hwf.value_lt
      rw [hone] at hlt
      rw [CoreInt.asI64, if_pos hone]
      omega
    · obtain ⟨hlo, hhi⟩ := hwf.asI64_bounds hone
      have hpow : (2 : Int) ^ (number.bitWidth - 1) ≤ 2 ^ 31 :=
        pow_le_pow_right₀ (by decide) (by omega)
      constructor <;> linarith
  · exact hb

/-- Its bits are those of the value. -/
theorem ofInt_asI64 (hwf : number.Wf) :
    BitVec.ofInt number.bitWidth number.asI64 = BitVec.ofNat number.bitWidth number.value := by
  rw [ofInt_congr hwf.asI64_modEq, BitVec.ofInt_natCast]

/-- And the value is read back. -/
theorem toNat_ofNat_value (hwf : number.Wf) :
    (BitVec.ofNat number.bitWidth number.value).toNat = number.value := by
  rw [BitVec.toNat_ofNat, Nat.mod_eq_of_lt hwf.value_lt]

/-- A small number has no sign. -/
theorem asI64_of_small (hwf : number.Wf) (h : number.value < 2 ^ (number.bitWidth - 1)) :
    number.asI64 = number.value := by
  by_cases hone : number.bitWidth = 1
  · rw [CoreInt.asI64, if_pos hone]
  · rw [hwf.asI64_eq hone, if_neg (Nat.not_le.mpr h)]

/-- A number that is not negative is its value. -/
theorem asI64_of_nonneg (hwf : number.Wf) (h : 0 ≤ number.asI64) :
    number.asI64 = number.value := by
  by_cases hone : number.bitWidth = 1
  · rw [CoreInt.asI64, if_pos hone]
  · rw [hwf.asI64_eq hone] at h ⊢
    split at h
    · have hlt : (number.value : Int) < 2 ^ number.bitWidth := by exact_mod_cast hwf.value_lt
      omega
    · next hlt => rw [if_neg hlt]

/-- A constant fits its width. -/
theorem fitsWidth_asI64 (hwf : number.Wf) (hone : number.bitWidth ≠ 1) :
    FitsWidth number.bitWidth number.asI64 :=
  hwf.asI64_bounds hone

/-- The immediate, extended by its sign. -/
theorem ofInt_asI64_signed (hwf : number.Wf) (hone : number.bitWidth ≠ 1)
    (hw : number.bitWidth ≤ w) :
    BitVec.ofInt w number.asI64 = (BitVec.ofNat number.bitWidth number.value).signExtend w := by
  obtain ⟨hlo, hhi⟩ := hwf.asI64_bounds hone
  have hpos := hwf.width_pos
  have hpow : (2 : Int) ^ (number.bitWidth - 1) ≤ 2 ^ (w - 1) :=
    pow_le_pow_right₀ (by decide) (by omega)
  apply BitVec.eq_of_toInt_eq
  rw [BitVec.toInt_signExtend_of_le hw, ← ofInt_asI64 hwf,
    BitVec.toInt_ofInt_eq_self (by omega) hlo hhi,
    BitVec.toInt_ofInt_eq_self (by omega) (by linarith) (by linarith)]

/-- The divisors of an unsigned division that the immediate stands for: those of a bit or of 32 bits,
those without the highest bit, and those of a whole register, but for the one that becomes
`2 ^ 31`. -/
def UnsignedDivisorFits (w : Nat) (number : CoreInt) : Prop :=
  number.bitWidth = 1 ∨ number.bitWidth = 32 ∨ number.value < 2 ^ (number.bitWidth - 1) ∨
    number.bitWidth = w ∧ number.asI64 ≠ -2 ^ 31

/-- The immediate of such a divisor, extended by zeros. -/
theorem ofInt_asI64_unsigned (hwf : number.Wf) (hdiv : UnsignedDivisorFits w number)
    (hword : number.bitWidth ≠ 32) :
    BitVec.ofInt w number.asI64 = (BitVec.ofNat number.bitWidth number.value).setWidth w := by
  have hnonneg : number.asI64 = number.value →
      BitVec.ofInt w number.asI64 = (BitVec.ofNat number.bitWidth number.value).setWidth w := by
    intro heq
    apply BitVec.eq_of_toNat_eq
    rw [heq, BitVec.ofInt_natCast, BitVec.toNat_setWidth, toNat_ofNat_value hwf, BitVec.toNat_ofNat]
  rcases hdiv with hone | h32 | hsmall | ⟨rfl, -⟩
  · exact hnonneg (by rw [CoreInt.asI64, if_pos hone])
  · exact absurd h32 hword
  · exact hnonneg (asI64_of_small hwf hsmall)
  · rw [ofInt_asI64 hwf, BitVec.setWidth_eq]

/-- A small number as `u32`. -/
theorem asU32_of_nonneg {n : Nat} (h : n < 2 ^ 32) : asU32 n = n := by
  unfold asU32
  omega

/-- A divisor as a `u32`: itself, or no power of two. -/
theorem asU32_divisor (hwf : number.Wf) (hfit : FitsI32 number) (hw : w = 32 ∨ w = 64)
    (hdiv : UnsignedDivisorFits w number) :
    (asU32 number.asI64 = number.value ∧ number.value < 2 ^ 32) ∨
      (2 ^ 31 < asU32 number.asI64 ∧ asU32 number.asI64 < 2 ^ 32) := by
  have hi32 := asI32_bounds number.asI64
  rw [asI32_asI64 hwf hfit] at hi32
  have hnonneg : number.asI64 = number.value →
      asU32 number.asI64 = number.value ∧ number.value < 2 ^ 32 := by
    intro heq
    have hlt : number.value < 2 ^ 32 := by omega
    exact ⟨heq ▸ asU32_of_nonneg hlt, hlt⟩
  have hword : number.bitWidth = 32 →
      asU32 number.asI64 = number.value ∧ number.value < 2 ^ 32 := by
    intro h32
    have hmod := hwf.asI64_modEq
    have hlt := hwf.value_lt
    rw [h32] at hmod hlt
    refine ⟨?_, hlt⟩
    unfold asU32
    rw [hmod]
    omega
  rcases hdiv with hone | h32 | hsmall | ⟨rfl, hmin⟩
  · exact Or.inl (hnonneg (by rw [CoreInt.asI64, if_pos hone]))
  · exact Or.inl (hword h32)
  · exact Or.inl (hnonneg (asI64_of_small hwf hsmall))
  · rcases hw with h32 | h64
    · exact Or.inl (hword h32)
    · by_cases hneg : 0 ≤ number.asI64
      · exact Or.inl (hnonneg (asI64_of_nonneg hwf hneg))
      · refine Or.inr ?_
        unfold asU32
        omega

/-- Only `2 ^ 31` itself is a power of two there. -/
theorem not_isPowerOfTwo {n : Nat} (hlo : 2 ^ 31 < n) (hhi : n < 2 ^ 32) :
    isPowerOfTwo n = false := by
  have hlog : n.log2 = 31 := by
    refine Nat.le_antisymm ?_ ?_
    · exact Nat.le_of_lt_succ ((Nat.log2_lt (by omega)).mpr hhi)
    · exact (Nat.le_log2 (by omega)).mpr hlo.le
  unfold isPowerOfTwo
  rw [hlog]
  exact decide_eq_false (by omega)

end Immediate

/-! ## Operations with an immediate -/

section Const

variable {R I : Type} {w : Nat} [DecidableEq R] [MachineSemantics R w I] [LawfulMachine R w I]
  [ArithTarget R I] [LawfulArith R w I] {sym : SymbolId → BitVec w} {e e' : Emitter I}
  {ρ : Regs R I w} {op : BinaryOpcode} {rd : VRegId} {rs : Register R} {number : CoreInt}

omit [DecidableEq R] in
/-- What the expansions read. -/
theorem reads_of_ready {b : Nat} {r : BitVec w} {x : BitVec b} (h : Ready op r x)
    (hop : readsHighBits op = true) : Reads I (binaryOperandsAreSigned op) r x := by
  refine ⟨h.low, fun hword => ?_⟩
  cases hhas : binaryOpHas32BitMachineResult op b with
  | false => exact h.extended hop hhas
  | true =>
    -- without `w` forms the word is the register
    obtain rfl := eq_32_of_has32 hhas
    have hsize : LoweringTarget.wordSize I ≠ 8 := by simpa [usesWordForm] using hword
    have hwidth : w = 8 * LoweringTarget.wordSize I := LawfulMachine.width
    obtain rfl : w = 32 := (LawfulArith.width_cases (I := I)).resolve_right (by omega)
    rw [← h.low, BitVec.setWidth_eq]
    cases binaryOperandsAreSigned op with
    | false => exact (BitVec.setWidth_eq _).symm
    | true => exact (BitVec.signExtend_eq _).symm

omit [LawfulArith R w I] in
/-- Without an expansion the operation is made on the loaded immediate. -/
theorem emitExpanded_loaded {b : Nat} {z : BitVec b} {has32 : Bool} {imm : Int}
    (hrs : OldReg e.vregCounter rs)
    (hsets : ∀ g : Register R → BitVec w, g rs = ρ.get rs →
      g (.virtual e.vregCounter) = BitVec.ofInt w imm →
      Sets sym g (emitBinaryReg op has32 (.virtual rd) rs (.virtual e.vregCounter) : I)
        (.virtual rd) z) :
    Puts sym e ρ rd z (emitExpanded op has32 (.virtual rd) rs imm none e) := by
  have hrefl : Emits sym [.virtual rd] e e ρ ρ := .refl e ρ
  have hload := hrefl.newVreg.push (Or.inr (allocated_newVreg le_rfl))
    (LawfulMachine.alu_loadImm (I := I) (.virtual e.vregCounter) imm ρ.get sym)
  obtain ⟨r, halu, hr⟩ := hsets (ρ.set (.virtual e.vregCounter) (BitVec.ofInt w imm)).get
    (RegFile.get_set_ne _ (hrs _ le_rfl) _) (RegFile.get_set_virtual _ _ _)
  exact .push hload halu hr

/-- The expansion, if there is one, or else the operation on the loaded immediate. -/
theorem emitExpanded_puts {b : Nat} {x y z : BitVec b} {imm : Int} {expanded : Option (Emitter I)}
    (hb : b ≤ w) (hz : intArith op x y = some z) (hrs : OldReg e.vregCounter rs)
    (hready : Ready op (ρ.get rs) x) (himm : expanded = none → Ready op (BitVec.ofInt w imm) y)
    (hshift : op.isShift = false)
    (hexp : ∀ e', expanded = some e' → Puts sym e ρ rd z e') :
    Puts sym e ρ rd z (emitExpanded op (binaryOpHas32BitMachineResult op b) (.virtual rd) rs imm
      expanded e) := by
  cases expanded with
  | some e' => exact hexp e' rfl
  | none =>
    refine emitExpanded_loaded hrs fun g hleft hright => ?_
    have hready' : Ready op (g rs) x := hleft ▸ hready
    have hright' : ReadyRight op b (g (.virtual e.vregCounter)) y := by
      rw [hright, ReadyRight, hshift, if_neg Bool.false_ne_true, BitVec.setWidth_eq]
      exact himm rfl
    have heval : intBinary op x y = some z := by
      rw [intBinary, hshift, if_neg Bool.false_ne_true, if_pos rfl, BitVec.setWidth_eq]
      exact hz
    exact sets_binary hb heval hready' hright' sym (.virtual rd)

section Forms

variable {b : Nat} {x z : BitVec b} {g : Register R → BitVec w} {has32 : Bool}

omit [DecidableEq R] in
/-- An `addi` adds the constant. -/
theorem sets_addi (hb : b ≤ w) (hword : has32 = true → b = 32) {imm : Int} (himm : FitsImm12 imm)
    (hx : (g rs).setWidth b = x) (sym : SymbolId → BitVec w) (rd : Register R) :
    Sets sym g (if has32 then emitAddiw rd rs imm else emitAddi rd rs imm : I) rd
      (x + BitVec.ofInt b imm) := by
  split
  · next hhas =>
    obtain rfl := hword hhas
    exact ⟨_, LawfulArith.alu_addiw _ _ himm _ _, by rw [setWidth_signExtend _ hb, hx]⟩
  · refine ⟨_, LawfulMachine.alu_addi _ _ himm _ _, ?_⟩
    rw [BitVec.setWidth_add _ _ hb, hx, setWidth_ofInt _ hb]

/-- A shift by a constant amount. -/
theorem emitBinaryConst_shift {n : Nat} (hb : b ≤ w) (hz : intShift op x n = some z)
    (hready : Ready op (ρ.get rs) x)
    (h : emitBinaryConst op (binaryOpHas32BitMachineResult op b) (.virtual rd) rs (n : Int) b e =
      some e') :
    Puts sym e ρ rd z e' := by
  have hrefl : Emits sym [.virtual rd] e e ρ ρ := .refl e ρ
  have hx := hready.low
  unfold intShift at hz
  split at hz
  · next hlt =>
    have hnw : n < w := hlt.trans_le hb
    -- each shift has an immediate form for amounts below the width of the form; the word forms read
    -- five bits
    cases op with
    | shl =>
      cases hz
      simp only [emitBinaryConst] at h
      split at h
      · cases h
        split
        · next hword =>
          obtain rfl := eq_32_of_has32 hword
          refine .push hrefl (LawfulArith.alu_slliw _ _ hlt _ _) ?_
          rw [setWidth_signExtend _ hb, hx]
        · refine .push hrefl (LawfulMachine.alu_slli _ _ hnw _ _) ?_
          rw [BitVec.setWidth_shiftLeft_of_le hb, hx]
      · cases h
    | lshr =>
      cases hz
      simp only [emitBinaryConst] at h
      split at h
      · cases h
        split
        · next hword =>
          obtain rfl := eq_32_of_has32 hword
          refine .push hrefl (LawfulArith.alu_srliw _ _ hlt _ _) ?_
          rw [setWidth_signExtend _ hb, hx]
        · next hword =>
          refine .push hrefl (LawfulMachine.alu_srli _ _ hnw _ _) ?_
          rw [hready.extended rfl (by simpa using hword)]
          exact setWidth_ushiftRight x _ hb
      · cases h
    | ashr =>
      cases hz
      simp only [emitBinaryConst] at h
      split at h
      · cases h
        split
        · next hword =>
          obtain rfl := eq_32_of_has32 hword
          refine .push hrefl (LawfulArith.alu_sraiw _ _ hlt _ _) ?_
          rw [setWidth_signExtend _ hb, hx]
        · next hword =>
          refine .push hrefl (LawfulMachine.alu_srai _ _ hnw _ _) ?_
          rw [hready.extended rfl (by simpa using hword)]
          exact setWidth_sshiftRight x _ hb
      · cases h
    | _ => cases hz
  · cases hz

omit [LawfulMachine R w I] [LawfulArith R w I] in
/-- The amount of a shift with an immediate is no negative number. -/
theorem nonneg_of_shift {imm : Int} (hop : op.isShift = true)
    (h : emitBinaryConst op has32 (.virtual rd) rs imm b e = some e') : 0 ≤ imm := by
  cases op with
  | shl | lshr | ashr =>
    simp only [emitBinaryConst] at h
    split at h
    · next hrange => exact hrange.1
    · cases h
  | _ => cases hop

end Forms

variable {x z : BitVec number.bitWidth}

/-- The expansions of multiplications, divisions and remainders. -/
theorem emitUdiv_puts (hwf : number.Wf) (hfit : FitsI32 number) (hb : number.bitWidth ≤ w)
    (hdiv : UnsignedDivisorFits w number)
    (hread : Reads I false (ρ.get rs) x)
    (h : emitUdivConst (.virtual rd) rs (asU32 number.asI64) number.bitWidth e = some e') :
    Puts sym e ρ rd (x / BitVec.ofNat number.bitWidth number.value) e' := by
  rcases asU32_divisor hwf hfit (LawfulArith.width_cases (I := I)) hdiv with ⟨heq, hlt⟩ | ⟨hlo, hhi⟩
  · rw [heq] at h
    exact emitUdivConst_puts hb hwf.value_lt hlt hread h
  · rw [emitUdivConst, if_neg (by omega), if_neg (by omega), not_isPowerOfTwo hlo hhi] at h
    cases h

/-- An unsigned remainder by a constant that fits. -/
theorem emitUrem_puts (hwf : number.Wf) (hfit : FitsI32 number) (hb : number.bitWidth ≤ w)
    (hdiv : UnsignedDivisorFits w number) (hrs : OldReg e.vregCounter rs)
    (hx : (ρ.get rs).setWidth number.bitWidth = x)
    (h : emitUremConst (.virtual rd) rs (asU32 number.asI64) e = some e') :
    Puts sym e ρ rd (x % BitVec.ofNat number.bitWidth number.value) e' := by
  rcases asU32_divisor hwf hfit (LawfulArith.width_cases (I := I)) hdiv with ⟨heq, -⟩ | ⟨hlo, hhi⟩
  · rw [heq] at h
    exact emitUremConst_puts hb hwf.value_lt hrs hx h
  · rw [emitUremConst, if_neg (by omega), if_neg (by omega), not_isPowerOfTwo hlo hhi] at h
    cases h

/-- An immediate as the right operand. -/
theorem ready_imm (hwf : number.Wf) (hb : number.bitWidth ≤ w)
    (hunsigned : op = .udiv ∨ op = .urem → UnsignedDivisorFits w number)
    (hsigned : op = .sdiv ∨ op = .srem → number.bitWidth ≠ 1) (hshift : op.isShift = false) :
    Ready op (BitVec.ofInt w number.asI64) (BitVec.ofNat number.bitWidth number.value) := by
  refine ⟨?_, fun hhigh hplain => ?_⟩
  · rw [setWidth_ofInt _ hb, ofInt_asI64 hwf]
  · cases op with
    | udiv | urem =>
      refine ofInt_asI64_unsigned hwf (hunsigned (by simp)) ?_
      simpa [binaryOpHas32BitMachineResult] using hplain
    | sdiv | srem => exact ofInt_asI64_signed hwf (hsigned (by simp)) hb
    | lshr | ashr => cases hshift
    | _ => cases hhigh

omit [DecidableEq R] [MachineSemantics R w I] [LawfulMachine R w I] [ArithTarget R I]
  [LawfulArith R w I] in
/-- The only divisor of a bit. -/
theorem asI64_of_bit (hwf : number.Wf) (hone : number.bitWidth = 1)
    (hnz : BitVec.ofNat number.bitWidth number.value ≠ 0) : number.asI64 = 1 := by
  have hlt := hwf.value_lt
  rw [hone] at hlt
  have hvalue : number.value ≠ 0 := by
    intro hzero
    exact hnz (by rw [hzero]; rfl)
  rw [CoreInt.asI64, if_pos hone]
  omega

/-- An operation other than a shift with a constant right operand. -/
theorem emitBinaryConst_arith (hb : number.bitWidth ≤ w) (hwf : number.Wf) (hfit : FitsI32 number)
    (hz : intArith op x (BitVec.ofNat number.bitWidth number.value) = some z)
    (hdiv : op = .udiv ∨ op = .urem → UnsignedDivisorFits w number)
    (hrs : OldReg e.vregCounter rs) (hready : Ready op (ρ.get rs) x)
    (h : emitBinaryConst op (binaryOpHas32BitMachineResult op number.bitWidth) (.virtual rd) rs
      number.asI64 number.bitWidth e = some e') :
    Puts sym e ρ rd z e' := by
  have hrefl : Emits sym [.virtual rd] e e ρ ρ := .refl e ρ
  have hx := hready.low
  have hpos : 0 < number.bitWidth := hwf.width_pos
  have himm : number.asI64.natAbs ≤ 2 ^ 31 := by
    have hbounds := asI32_bounds number.asI64
    rw [asI32_asI64 hwf hfit] at hbounds
    omega
  have hwidth : BitVec.ofNat number.bitWidth number.value ≠ 0 → number.asI64 ≠ 1 →
      number.bitWidth ≠ 1 := fun hnz hne hone => hne (asI64_of_bit hwf hone hnz)
  -- `add`, `sub` and the logical operations have immediate forms; `mul` and the divisions are
  -- expanded
  cases op with
  | add =>
    cases hz
    simp only [emitBinaryConst] at h
    split at h
    · next hfits =>
      cases h
      obtain ⟨r, halu, hr⟩ := sets_addi (I := I) hb eq_32_of_has32 hfits hx sym (.virtual rd)
      exact .push hrefl halu (by rw [hr, ofInt_asI64 hwf])
    · cases h
  | sub =>
    cases hz
    simp only [emitBinaryConst] at h
    split at h
    · next hfits =>
      cases h
      obtain ⟨r, halu, hr⟩ := sets_addi (I := I) hb eq_32_of_has32 hfits.2 hx sym (.virtual rd)
      refine .push hrefl halu ?_
      rw [hr, BitVec.ofInt_neg, ofInt_asI64 hwf, BitVec.sub_eq_add_neg]
    · cases h
  | mul =>
    rw [← Option.some.inj h]
    refine emitExpanded_puts hb hz hrs hready
      (fun _ => ready_imm hwf hb (by simp) (by simp) rfl) rfl fun e' he => ?_
    cases hz
    rw [← ofInt_asI64 hwf]
    exact emitMulConst_puts hb himm hx he
  | udiv =>
    rw [← Option.some.inj h]
    refine emitExpanded_puts hb hz hrs hready
      (fun _ => ready_imm hwf hb hdiv (by simp) rfl) rfl fun e' he => ?_
    simp only [intArith] at hz
    split at hz
    · cases hz
    · cases hz
      exact emitUdiv_puts hwf hfit hb (hdiv (by simp)) (reads_of_ready hready rfl) he
  | urem =>
    rw [← Option.some.inj h]
    refine emitExpanded_puts hb hz hrs hready
      (fun _ => ready_imm hwf hb hdiv (by simp) rfl) rfl fun e' he => ?_
    simp only [intArith] at hz
    split at hz
    · cases hz
    · cases hz
      exact emitUrem_puts hwf hfit hb (hdiv (by simp)) hrs hx he
  | sdiv =>
    rw [← Option.some.inj h]
    have hnz : BitVec.ofNat number.bitWidth number.value ≠ 0 := by
      rintro hzero
      simp [intArith, hzero] at hz
    refine emitExpanded_puts hb hz hrs hready (fun hnone => ?_) rfl fun e' he => ?_
    · refine ready_imm hwf hb (by simp) (fun _ => hwidth hnz fun hone => ?_) rfl
      simp [emitSdivConst, hone] at hnone
    · simp only [intArith, if_neg hnz] at hz
      cases hz
      rw [← ofInt_asI64 hwf]
      exact emitSdivConst_puts hb hpos (fun hne _ => fitsWidth_asI64 hwf (hwidth hnz hne)) hrs
        (reads_of_ready hready rfl) he
  | srem =>
    rw [← Option.some.inj h]
    have hnz : BitVec.ofNat number.bitWidth number.value ≠ 0 := by
      rintro hzero
      simp [intArith, hzero] at hz
    refine emitExpanded_puts hb hz hrs hready (fun hnone => ?_) rfl fun e' he => ?_
    · refine ready_imm hwf hb (by simp) (fun _ => hwidth hnz fun hone => ?_) rfl
      simp [emitSremConst, hone] at hnone
    · simp only [intArith, if_neg hnz] at hz
      cases hz
      rw [← ofInt_asI64 hwf]
      exact emitSremConst_puts hb hpos himm (fun hne _ => fitsWidth_asI64 hwf (hwidth hnz hne)) hrs
        (reads_of_ready hready rfl) he
  | and =>
    cases hz
    simp only [emitBinaryConst] at h
    split at h
    · next hfits =>
      cases h
      refine .push hrefl (LawfulMachine.alu_andi _ _ hfits _ _) ?_
      rw [BitVec.setWidth_and, hx, setWidth_ofInt _ hb, ofInt_asI64 hwf]
    · cases h
  | or =>
    cases hz
    simp only [emitBinaryConst] at h
    split at h
    · next hfits =>
      cases h
      refine .push hrefl (LawfulArith.alu_ori _ _ hfits _ _) ?_
      rw [BitVec.setWidth_or, hx, setWidth_ofInt _ hb, ofInt_asI64 hwf]
    · cases h
  | xor =>
    cases hz
    simp only [emitBinaryConst] at h
    split at h
    · next hfits =>
      cases h
      refine .push hrefl (LawfulArith.alu_xori _ _ hfits _ _) ?_
      rw [BitVec.setWidth_xor, hx, setWidth_ofInt _ hb, ofInt_asI64 hwf]
    · cases h
  | shl | lshr | ashr => cases hz

/-- An operation with a constant right operand. -/
theorem emitBinaryConst_puts {b : Nat} {x z : BitVec b} (hb : b ≤ w) (hwf : number.Wf)
    (hfit : FitsI32 number)
    (hz : intBinary op x (BitVec.ofNat number.bitWidth number.value) = some z)
    (hdiv : op = .udiv ∨ op = .urem → UnsignedDivisorFits w number)
    (hrs : OldReg e.vregCounter rs) (hready : Ready op (ρ.get rs) x)
    (h : emitBinaryConst op (binaryOpHas32BitMachineResult op b) (.virtual rd) rs
      (asI32 number.asI64) b e = some e') :
    Puts sym e ρ rd z e' := by
  rw [asI32_asI64 hwf hfit] at h
  unfold intBinary at hz
  split at hz
  · next hop =>
    rw [toNat_ofNat_value hwf] at hz
    rw [asI64_of_nonneg hwf (nonneg_of_shift hop h)] at h
    exact emitBinaryConst_shift hb hz hready h
  · split at hz
    · next hwidth =>
      subst hwidth
      rw [BitVec.setWidth_eq] at hz
      exact emitBinaryConst_arith hb hwf hfit hz hdiv hrs hready h
    · cases hz

end Const

end Mir
