import C0mpiler.Data.LowBits
import C0mpiler.Mir.LowerArith
import Mathlib

/-!
# Multiplication and division by constants

What the helpers of the arithmetic lowering compute: a value brought to the width of a register, and
the sequences that stand for a multiplication, a division or a remainder by a constant. Each leaves
the result of the operation in the low `b` bits of its register. A `w` form reads no more than the
low 32 bits of its operand; the other forms need the operand extended (`Reads`).
-/

namespace Mir

open LowBits

section

variable {R I : Type} {w : Nat} [DecidableEq R] [MachineSemantics R w I] [LawfulMachine R w I]
  {sym : SymbolId → BitVec w} {e e' : Emitter I} {ρ ρ' : Regs R I w}

/-! ## Values in new registers -/

/-- The code emitted between `e` and `e'` leaves `x` in the register `r`. -/
def Yields (sym : SymbolId → BitVec w) (e : Emitter I) (ρ : Regs R I w) (r : Register R)
    (x : BitVec w) (e' : Emitter I) : Prop :=
  ∃ ρ', Emits sym [] e e' ρ ρ' ∧ OldReg e'.vregCounter r ∧ ρ'.get r = x

omit [LawfulMachine R w I] in
/-- No code leaves the register as it is. -/
theorem Yields.same {src : Register R} (hsrc : OldReg e.vregCounter src) :
    Yields sym e ρ src (ρ.get src) e :=
  ⟨ρ, .refl e ρ, hsrc, rfl⟩

omit [LawfulMachine R w I] in
/-- One instruction with a new register. -/
theorem Yields.one {i : I} {x : BitVec w}
    (halu : MachineSemantics.alu i ρ.get sym = some (.virtual e.vregCounter, x)) :
    Yields sym e ρ (.virtual e.vregCounter) x (e.newVreg.push i) :=
  ⟨_, (Emits.refl e ρ).newVreg.push (Or.inr (allocated_newVreg le_rfl)) halu,
    oldReg_virtual (Nat.lt_succ_self _), RegFile.get_set_virtual _ _ _⟩

omit [LawfulMachine R w I] in
/-- Two instructions that both write one new register. -/
theorem Yields.two {i j : I} {x y : BitVec w}
    (hi : MachineSemantics.alu i ρ.get sym = some (.virtual e.vregCounter, x))
    (hj : MachineSemantics.alu j (ρ.set (.virtual e.vregCounter) x).get sym =
      some (.virtual e.vregCounter, y)) :
    Yields sym e ρ (.virtual e.vregCounter) y ((e.newVreg.push i).push j) := by
  have hrefl : Emits sym [] e e ρ ρ := .refl e ρ
  have hfirst := hrefl.newVreg.push (Or.inr (allocated_newVreg le_rfl)) hi
  exact ⟨_, hfirst.push (Or.inr (allocated_newVreg le_rfl)) hj,
    oldReg_virtual (Nat.lt_succ_self _), RegFile.get_set_virtual _ _ _⟩

variable (sym) in
/-- Masking keeps the low bits. -/
theorem emitMaskedValue_yields {src : Register R} (bits : Nat) (hsrc : OldReg e.vregCounter src) :
    Yields sym e ρ (emitMaskedValue src bits e).1 (((ρ.get src).setWidth bits).setWidth w)
      (emitMaskedValue src bits e).2 := by
  have hw : regBits I = w := regBits_eq
  simp only [emitMaskedValue, hw]
  split
  · next hle =>
    rw [BitVec.setWidth_setWidth_of_le _ hle, BitVec.setWidth_eq]
    exact .same hsrc
  · next hlt =>
    have hle : bits ≤ w := by omega
    have hmask : ρ.get src &&& BitVec.ofInt w ((2 ^ bits - 1 : Nat) : Int) =
        ((ρ.get src).setWidth bits).setWidth w := by
      rw [BitVec.ofInt_natCast, and_mask _ hle]
    split
    · next hsmall =>
      rw [← hmask]
      exact .one (LawfulMachine.alu_andi _ _ ⟨by omega, by omega⟩ _ _)
    -- too wide for `andi`: a loaded mask on narrow targets, two shifts elsewhere
    · split
      · have hrefl : Emits sym [] e e ρ ρ := .refl e ρ
        have hload := hrefl.newVreg.newVreg.push (Or.inr (allocated_newVreg (Nat.le_succ _)))
          (LawfulMachine.alu_loadImm (I := I) (.virtual (e.vregCounter + 1))
            ((2 ^ bits - 1 : Nat) : Int) ρ.get sym)
        refine ⟨_, hload.push (Or.inr ((allocated_newVreg le_rfl).mono le_rfl (Nat.le_succ _)))
          (LawfulMachine.alu_and (I := I) (.virtual e.vregCounter) src
            (.virtual (e.vregCounter + 1)) _ sym), ?_, ?_⟩
        · exact oldReg_virtual (Nat.lt_succ_of_lt (Nat.lt_succ_self _))
        · simp only [Emitter.vregCounter_newVreg, RegFile.get_set_virtual]
          rw [RegFile.get_set_ne _ (hsrc _ (Nat.le_succ _)), hmask]
      · next hlarge _ =>
        have hpos : 0 < bits := by
          refine Nat.pos_of_ne_zero ?_
          rintro rfl
          exact hlarge (by decide)
        have hshift : w - bits < w := by omega
        rw [← shiftLeft_ushiftRight _ hle]
        have hleft := LawfulMachine.alu_slli (I := I) (.virtual e.vregCounter) src hshift ρ.get sym
        refine .two hleft ?_
        rw [LawfulMachine.alu_srli _ _ hshift, RegFile.get_set_virtual]

variable (sym) in
/-- Sign extension repeats the sign bit. -/
theorem emitSignExtendedValue_yields {src : Register R} {bits : Nat} (hbits : 0 < bits)
    (hsrc : OldReg e.vregCounter src) :
    Yields sym e ρ (emitSignExtendedValue src bits e).1
      (if w ≤ bits then ρ.get src else ((ρ.get src).setWidth bits).signExtend w)
      (emitSignExtendedValue src bits e).2 := by
  have hw : regBits I = w := regBits_eq
  simp only [emitSignExtendedValue, hw]
  split
  · exact .same hsrc
  · next hlt =>
    have hshift : w - bits < w := by omega
    rw [← shiftLeft_sshiftRight _ hbits (by omega)]
    have hleft := LawfulMachine.alu_slli (I := I) (.virtual e.vregCounter) src hshift ρ.get sym
    refine .two hleft ?_
    rw [LawfulMachine.alu_srai _ _ hshift, RegFile.get_set_virtual]

variable (sym) in
/-- A value brought to the form of its width. -/
theorem emitNormalizedIntValue_yields {src : Register R} {bits : Nat} (signed : Bool)
    (hbits : 0 < bits) (hle : bits ≤ w) (hsrc : OldReg e.vregCounter src) :
    Yields sym e ρ (emitNormalizedIntValue src bits signed e).1
      (extend w signed ((ρ.get src).setWidth bits)) (emitNormalizedIntValue src bits signed e).2 := by
  cases signed with
  | false => exact emitMaskedValue_yields sym bits hsrc
  | true =>
    have hyields : Yields sym e ρ _ _ _ := emitSignExtendedValue_yields sym hbits hsrc
    split at hyields
    · next hge =>
      obtain rfl : bits = w := Nat.le_antisymm hle hge
      rw [extend, if_pos rfl, BitVec.setWidth_eq, BitVec.signExtend_eq]
      exact hyields
    · exact hyields

/-! ## Results in a given register -/

/-- The code emitted between `e` and `e'` leaves a word whose low bits are `z` in the register `rd`
of the result. -/
def Puts {b : Nat} (sym : SymbolId → BitVec w) (e : Emitter I) (ρ : Regs R I w) (rd : VRegId)
    (z : BitVec b) (e' : Emitter I) : Prop :=
  ∃ ρ', Emits sym [.virtual rd] e e' ρ ρ' ∧ (ρ'.get (.virtual rd)).setWidth b = z

variable {b : Nat} {rd : VRegId} {x y z : BitVec b}

omit [LawfulMachine R w I] in
/-- The last instruction writes the result. -/
theorem Puts.push {i : I} {r : BitVec w} (h : Emits sym [.virtual rd] e e' ρ ρ')
    (halu : MachineSemantics.alu i ρ'.get sym = some (.virtual rd, r)) (hr : r.setWidth b = z) :
    Puts sym e ρ rd z (e'.push i) := by
  refine ⟨_, h.push (Or.inl (List.mem_singleton.mpr rfl)) halu, ?_⟩
  rw [RegFile.get_set_virtual, hr]

/-- A copy puts what is there. -/
theorem Puts.copy {src : Register R} (h : Emits sym [.virtual rd] e e' ρ ρ')
    (hsrc : (ρ'.get src).setWidth b = z) :
    Puts sym e ρ rd z (emitCopyOrMove (.virtual rd) src e') := by
  unfold emitCopyOrMove
  split
  · exact .push h (LawfulMachine.alu_mv ..) hsrc
  · next heq =>
    rw [not_not] at heq
    exact ⟨ρ', h, heq ▸ hsrc⟩

/-- A constant. -/
theorem emitConstInt_puts {n : Int} (h : Emits sym [.virtual rd] e e' ρ ρ') (hb : b ≤ w) :
    Puts sym e ρ rd (BitVec.ofInt b n) (emitConstInt (.virtual rd) n e') := by
  unfold emitConstInt
  split
  · next hzero =>
    refine .copy h ?_
    rw [hzero, ρ'.get_zero]
    simp
  · exact .push h (LawfulMachine.alu_loadImm ..) (setWidth_ofInt n hb)

/-- How an operand of `b` bits is read from a register: for a `w` form its low bits, otherwise the
operand extended to the register. -/
structure Reads (I : Type) [EmitTarget R I] (signed : Bool) (r : BitVec w) (x : BitVec b) :
    Prop where
  low : r.setWidth b = x
  extended : usesWordForm I b = false → r = extend w signed x

omit [DecidableEq R] [MachineSemantics R w I] [LawfulMachine R w I] in
/-- Only 32 bits have a word form. -/
theorem bits_of_usesWordForm [EmitTarget R I] (h : usesWordForm I b = true) : b = 32 := by
  simp only [usesWordForm, Bool.and_eq_true, decide_eq_true_eq] at h
  exact h.1

variable [ArithTarget R I] [LawfulArith R w I]

omit [DecidableEq R] in
/-- A left shift keeps the low bits, in words as in full registers. -/
theorem alu_emitShl (hb : b ≤ w) {n : Nat} (hn : n < 32) (dst src : Register R)
    (g : Register R → BitVec w) (sym : SymbolId → BitVec w) :
    ∃ r, MachineSemantics.alu (emitShl b dst src n : I) g sym = some (dst, r) ∧
      r.setWidth b = (g src).setWidth b <<< n := by
  unfold emitShl
  split
  · next hword =>
    obtain rfl := bits_of_usesWordForm hword
    exact ⟨_, LawfulArith.alu_slliw _ _ hn _ _, setWidth_signExtend _ hb⟩
  · exact ⟨_, LawfulMachine.alu_slli _ _ (hn.trans_le (LawfulMachine.width_le I)) _ _,
      BitVec.setWidth_shiftLeft_of_le hb⟩

omit [DecidableEq R] in
/-- A logical right shift of a zero-extended operand. -/
theorem alu_emitLshr (hb : b ≤ w) {n : Nat} (hn : n < 32) (dst : Register R) {src : Register R}
    {g : Register R → BitVec w} (hread : Reads I false (g src) x) (sym : SymbolId → BitVec w) :
    ∃ r, MachineSemantics.alu (emitLshr b dst src n : I) g sym = some (dst, r) ∧
      r.setWidth b = x >>> n := by
  unfold emitLshr
  split
  · next hword =>
    obtain rfl := bits_of_usesWordForm hword
    refine ⟨_, LawfulArith.alu_srliw _ _ hn _ _, ?_⟩
    rw [setWidth_signExtend _ hb, hread.low]
  · next hword =>
    refine ⟨_, LawfulMachine.alu_srli _ _ (hn.trans_le (LawfulMachine.width_le I)) _ _, ?_⟩
    rw [hread.extended (by simpa using hword)]
    exact setWidth_ushiftRight x n hb

omit [DecidableEq R] in
/-- An arithmetic right shift of a sign-extended operand. -/
theorem alu_emitAshr (hb : b ≤ w) {n : Nat} (hn : n < b) (dst : Register R) {src : Register R}
    {g : Register R → BitVec w} (hread : Reads I true (g src) x) (sym : SymbolId → BitVec w) :
    MachineSemantics.alu (emitAshr b dst src n : I) g sym =
      some (dst, (x.sshiftRight n).signExtend w) := by
  unfold emitAshr
  split
  · next hword =>
    obtain rfl := bits_of_usesWordForm hword
    rw [LawfulArith.alu_sraiw _ _ hn, hread.low]
  · next hword =>
    rw [LawfulMachine.alu_srai _ _ (hn.trans_le hb), hread.extended (by simpa using hword)]
    rw [extend, if_pos rfl, signExtend_sshiftRight x n hb]

/-! ## Multiplication -/

/-- A power of two with its sign. -/
theorem ofInt_natAbs {imm : Int} (hpow : isPowerOfTwo imm.natAbs) :
    BitVec.ofInt b imm = if imm < 0 then -(BitVec.ofNat b (2 ^ imm.natAbs.log2))
      else BitVec.ofNat b (2 ^ imm.natAbs.log2) := by
  rw [← isPowerOfTwo_iff.mp hpow]
  split
  · next hneg =>
    rw [← BitVec.ofInt_natCast, ← BitVec.ofInt_neg]
    congr 1
    omega
  · next hnonneg =>
    rw [← BitVec.ofInt_natCast]
    congr 1
    omega

/-- Its logarithm is below 32. -/
theorem log2_lt_of_natAbs_le {n : Nat} (h : n ≤ 2 ^ 31) : n.log2 < 32 := by
  rcases Nat.eq_zero_or_pos n with rfl | hpos
  · decide
  · exact (Nat.log2_lt hpos.ne').mpr (by omega)

/-- Shifting multiplies. -/
theorem shiftLeft_eq_mul (x : BitVec b) (k : Nat) : x <<< k = x * BitVec.ofNat b (2 ^ k) := by
  apply BitVec.eq_of_toNat_eq
  rw [BitVec.toNat_shiftLeft, BitVec.toNat_mul, BitVec.toNat_ofNat, Nat.shiftLeft_eq,
    Nat.mul_mod_mod]

/-- Subtracting a product from zero. -/
theorem zero_sub_mul (x y : BitVec b) : 0#b - x * y = x * -y := by
  rw [BitVec.zero_sub, BitVec.mul_neg]

/-- Multiplication by a constant: nothing, a copy, a negation or a shift. -/
theorem emitMulConst_puts (hb : b ≤ w) {rs : Register R} {imm : Int} (himm : imm.natAbs ≤ 2 ^ 31)
    (hx : (ρ.get rs).setWidth b = x) (h : emitMulConst (.virtual rd) rs imm b e = some e') :
    Puts sym e ρ rd (x * BitVec.ofInt b imm) e' := by
  have hrefl : Emits sym [.virtual rd] e e ρ ρ := .refl e ρ
  have hneg : ∀ r : BitVec w, (0 - r).setWidth b = 0#b - r.setWidth b := fun r => by
    rw [setWidth_sub _ _ hb]
    simp
  unfold emitMulConst at h
  split at h
  · next hzero =>
    cases h
    have hz : x * BitVec.ofInt b imm = BitVec.ofInt b 0 := by simp [hzero]
    exact hz ▸ emitConstInt_puts hrefl hb
  -- by one, by minus one, by a power of two; nothing is emitted for other numbers
  · split at h
    · next hone =>
      cases h
      refine .copy hrefl ?_
      rw [hx, hone]
      simp
    · split at h
      · next hminus =>
        cases h
        refine .push hrefl (LawfulArith.alu_sub ..) ?_
        rw [ρ.get_zero, hneg, hx, hminus, BitVec.ofInt_neg, BitVec.mul_neg]
        simp
      · split at h
        · next hpow =>
          have hlog := log2_lt_of_natAbs_le himm
          rw [ofInt_natAbs hpow]
          split at h
          · next hlt =>
            cases h
            rw [if_pos hlt]
            obtain ⟨r, halu, hr⟩ := alu_emitShl (I := I) hb hlog (.virtual e.vregCounter) rs ρ.get sym
            refine .push (hrefl.newVreg.push (Or.inr (allocated_newVreg le_rfl)) halu)
              (LawfulArith.alu_sub ..) ?_
            rw [RegFile.get_zero, RegFile.get_set_virtual, hneg, hr, hx, shiftLeft_eq_mul,
              zero_sub_mul]
          · next hge =>
            cases h
            rw [if_neg hge]
            obtain ⟨r, halu, hr⟩ := alu_emitShl (I := I) hb hlog (.virtual rd) rs ρ.get sym
            refine .push hrefl halu ?_
            rw [hr, hx, shiftLeft_eq_mul]
        · cases h

/-! ## Unsigned division -/

/-- A logical shift divides. -/
theorem ushiftRight_eq_div {k : Nat} (hk : 2 ^ k < 2 ^ b) (x : BitVec b) :
    x >>> k = x / BitVec.ofNat b (2 ^ k) := by
  apply BitVec.eq_of_toNat_eq
  rw [BitVec.toNat_ushiftRight, BitVec.toNat_udiv, BitVec.toNat_ofNat, Nat.mod_eq_of_lt hk,
    Nat.shiftRight_eq_div_pow]

/-- An unsigned division by a constant. -/
theorem emitUdivConst_puts (hb : b ≤ w) {rs : Register R} {imm : Nat} (himm : imm < 2 ^ b)
    (himm32 : imm < 2 ^ 32) (hread : Reads I false (ρ.get rs) x)
    (h : emitUdivConst (.virtual rd) rs imm b e = some e') :
    Puts sym e ρ rd (x / BitVec.ofNat b imm) e' := by
  have hrefl : Emits sym [.virtual rd] e e ρ ρ := .refl e ρ
  unfold emitUdivConst at h
  split at h
  · cases h
  · next hnz =>
    split at h
    · next hone =>
      cases h
      refine .copy hrefl ?_
      rw [hread.low, hone, BitVec.udiv_one]
    · split at h
      · next hpow =>
        cases h
        have hpow' := isPowerOfTwo_iff.mp hpow
        have hlog : imm.log2 < 32 := (Nat.log2_lt hnz).mpr himm32
        obtain ⟨r, halu, hr⟩ := alu_emitLshr hb hlog (.virtual rd) hread sym
        refine .push hrefl halu ?_
        rw [hr, ushiftRight_eq_div (hpow' ▸ himm), ← hpow']
      · cases h

/-- A mask is a remainder. -/
theorem setWidth_mask_eq_mod {k : Nat} (hk : 2 ^ k < 2 ^ b) (hb : b ≤ w) (r : BitVec w) :
    ((r.setWidth k).setWidth w).setWidth b = r.setWidth b % BitVec.ofNat b (2 ^ k) := by
  have hkb : k < b := (Nat.pow_lt_pow_iff_right (by decide)).mp hk
  apply BitVec.eq_of_toNat_eq
  rw [BitVec.setWidth_setWidth_of_le _ hb, BitVec.toNat_umod, BitVec.toNat_ofNat,
    Nat.mod_eq_of_lt hk, toNat_setWidth_le _ hkb.le, BitVec.toNat_setWidth, BitVec.toNat_setWidth,
    Nat.mod_mod_of_dvd _ (pow_dvd_pow 2 hkb.le)]

omit [ArithTarget R I] [LawfulArith R w I] in
/-- An unsigned remainder by a constant. -/
theorem emitUremConst_puts (hb : b ≤ w) {rs : Register R} {imm : Nat} (himm : imm < 2 ^ b)
    (hrs : OldReg e.vregCounter rs) (hx : (ρ.get rs).setWidth b = x)
    (h : emitUremConst (.virtual rd) rs imm e = some e') :
    Puts sym e ρ rd (x % BitVec.ofNat b imm) e' := by
  have hrefl : Emits sym [.virtual rd] e e ρ ρ := .refl e ρ
  unfold emitUremConst at h
  split at h
  · cases h
  · split at h
    · next hone =>
      cases h
      have hz : x % BitVec.ofNat b imm = BitVec.ofInt b 0 := by
        rw [hone, BitVec.umod_one]
        simp
      exact hz ▸ emitConstInt_puts hrefl hb
    · split at h
      · next hpow =>
        have hcode : emitCopyOrMove (.virtual rd) (emitMaskedValue rs imm.log2 e).1
            (emitMaskedValue rs imm.log2 e).2 = e' := Option.some.inj h
        rw [← hcode]
        have hpow' := isPowerOfTwo_iff.mp hpow
        obtain ⟨ρ₁, hemits, -, hget⟩ : Yields sym e ρ _ _ _ :=
          emitMaskedValue_yields sym imm.log2 hrs
        refine .copy (hemits.widen _) ?_
        rw [hget, setWidth_mask_eq_mod (hpow' ▸ himm) hb, hx, ← hpow']
      · cases h

/-! ## Signed division -/

omit [LawfulMachine R w I] [ArithTarget R I] [LawfulArith R w I] in
/-- A register that was new in between is new. -/
theorem Emits.absorb {ws : List (Register R)}
    (h : Emits sym [.virtual e.vregCounter] e.newVreg e' ρ ρ') : Emits sym ws e e' ρ ρ' where
  counter_le := (Nat.le_succ _).trans h.counter_le
  run := h.run
  frame := by
    intro r _ hnot
    refine h.frame r ?_ fun ha => hnot (ha.mono (Nat.le_succ _) le_rfl)
    rw [List.mem_singleton]
    rintro rfl
    exact hnot ⟨e.vregCounter, le_rfl, h.counter_le, rfl⟩

/-- The biased shift divides by `2 ^ k`, rounding towards zero. -/
theorem emitBiasedShift_emits (hb : b ≤ w) {ws : List (Register R)} {rs : Register R} {q k : Nat}
    {e₀ : Emitter I} (h₀ : Emits sym ws e₀ e ρ ρ) (hc : e₀.vregCounter + 2 ≤ e.vregCounter)
    (hq : .virtual q ∈ ws ∨ Allocated e₀.vregCounter e.vregCounter (.virtual q : Register R))
    (hrs : OldReg e₀.vregCounter rs) (hkpos : 0 < k) (hk : k < b) (hread : Reads I true (ρ.get rs) x) :
    ∃ ρ', Emits sym ws e₀ (emitBiasedShift (.virtual q) rs (.virtual e₀.vregCounter)
        (.virtual (e₀.vregCounter + 1)) k b e) ρ ρ' ∧
      (ρ'.get (.virtual q)).setWidth b = BitVec.ofInt b (x.toInt.tdiv (2 ^ k)) := by
  have hw : regBits I = w := regBits_eq
  have hkw : k < w := hk.trans_le hb
  have hbpos : 0 < b := Nat.zero_lt_of_lt hk
  have hsignNew : Allocated e₀.vregCounter e.vregCounter (.virtual e₀.vregCounter : Register R) :=
    ⟨_, le_rfl, Nat.lt_of_succ_lt hc, rfl⟩
  have hbiasedNew : Allocated e₀.vregCounter e.vregCounter
      (.virtual (e₀.vregCounter + 1) : Register R) := ⟨_, Nat.le_succ _, hc, rfl⟩
  have hsigned : (x.signExtend w).toInt = x.toInt := BitVec.toInt_signExtend_of_le hb
  -- the sign, spread over the register
  have hsign := h₀.push (Or.inr hsignNew)
    (alu_emitAshr hb (Nat.sub_lt hbpos Nat.one_pos) (.virtual e₀.vregCounter) hread sym)
  -- the bias
  have hbias : ((x.sshiftRight (b - 1)).signExtend w) >>> (w - k) =
      BitVec.ofInt w (bias x.toInt k) := by
    rw [signExtend_sshiftRight _ _ hb, ← hsigned]
    refine sign_ushiftRight ?_ ?_ hkw
    · rw [hsigned]
      exact BitVec.le_toInt x
    · rw [hsigned]
      exact BitVec.toInt_lt
  have hshift : w - k < w := by omega
  have hbiased := hsign.push (Or.inr hsignNew)
    (LawfulMachine.alu_srli (I := I) (.virtual e₀.vregCounter) (.virtual e₀.vregCounter) hshift _ sym)
  rw [RegFile.get_set_virtual, hbias] at hbiased
  -- the biased dividend
  have hadd := hbiased.push (Or.inr hbiasedNew)
    (LawfulMachine.alu_add (I := I) (.virtual (e₀.vregCounter + 1)) rs (.virtual e₀.vregCounter) _
      sym)
  rw [RegFile.get_set_virtual, RegFile.get_set_ne _ (hrs _ le_rfl),
    RegFile.get_set_ne _ (hrs _ le_rfl)] at hadd
  -- the shift
  have hreadBiased : Reads I true (ρ.get rs + BitVec.ofInt w (bias x.toInt k))
      (x + BitVec.ofInt b (bias x.toInt k)) := by
    refine ⟨?_, fun hword => ?_⟩
    · rw [BitVec.setWidth_add _ _ hb, hread.low, setWidth_ofInt _ hb]
    · rw [hread.extended hword]
      exact signExtend_add_bias x hk hb
  obtain ⟨ρ₁, hemits, hget⟩ : ∃ ρ₁, Emits sym ws e₀ _ ρ ρ₁ ∧
      ρ₁.get (.virtual (e₀.vregCounter + 1)) = ρ.get rs + BitVec.ofInt w (bias x.toInt k) :=
    ⟨_, hadd, RegFile.get_set_virtual _ _ _⟩
  rw [← hget] at hreadBiased
  simp only [emitBiasedShift, hw]
  refine ⟨_, hemits.push hq (alu_emitAshr hb hk (.virtual q) hreadBiased sym), ?_⟩
  rw [RegFile.get_set_virtual, setWidth_signExtend _ hb, ← toInt_biased_sshiftRight x hk,
    BitVec.ofInt_toInt]

/-- A constant other than one and minus one stands for itself at the width of the operation. -/
def FitsWidth (b : Nat) (imm : Int) : Prop :=
  -2 ^ (b - 1) ≤ imm ∧ imm < 2 ^ (b - 1)

/-- A divisor that fits is read back. -/
theorem toInt_ofInt_of_fits (hb : 0 < b) {imm : Int} (h : FitsWidth b imm) :
    (BitVec.ofInt b imm).toInt = imm :=
  BitVec.toInt_ofInt_eq_self hb h.1 h.2

/-- The exponent of a constant that is a power of two up to its sign. -/
theorem log2_lt_width {imm : Int} (hfits : FitsWidth b imm) (hpow : isPowerOfTwo imm.natAbs)
    (hb : 0 < b) : imm.natAbs.log2 < b := by
  have habs : imm.natAbs ≤ 2 ^ (b - 1) := by
    have hcast : ((2 ^ (b - 1) : Nat) : Int) = 2 ^ (b - 1) := by push_cast; rfl
    obtain ⟨hlo, hhi⟩ := hfits
    omega
  rw [isPowerOfTwo_iff.mp hpow] at habs
  have hle := (Nat.pow_le_pow_iff_right (by decide)).mp habs
  omega

/-- A signed division by a power of two truncates. -/
theorem sdiv_two_pow {imm : Int} (hb : 0 < b) (hfits : FitsWidth b imm)
    (hpow : isPowerOfTwo imm.natAbs) (x : BitVec b) :
    x.sdiv (BitVec.ofInt b imm) =
      if imm < 0 then -(BitVec.ofInt b (x.toInt.tdiv (2 ^ imm.natAbs.log2)))
      else BitVec.ofInt b (x.toInt.tdiv (2 ^ imm.natAbs.log2)) := by
  have habs : ((2 : Int) ^ imm.natAbs.log2) = imm.natAbs := by
    have hnat := isPowerOfTwo_iff.mp hpow
    exact_mod_cast hnat.symm
  rw [sdiv_eq_ofInt, toInt_ofInt_of_fits hb hfits, habs]
  split
  · next hneg =>
    have himm : imm = -(imm.natAbs : Int) := by omega
    rw [← BitVec.ofInt_neg, ← Int.tdiv_neg, ← himm]
  · next hnonneg =>
    have himm : imm = (imm.natAbs : Int) := by omega
    rw [← himm]

/-- By minus one. -/
theorem sdiv_minus_one (hb : 0 < b) (x : BitVec b) : x.sdiv (BitVec.ofInt b (-1)) = -x := by
  have hones : BitVec.ofInt b (-1) = BitVec.allOnes b := by
    rw [BitVec.ofInt_neg]
    exact BitVec.neg_one_eq_allOnes
  rw [hones, sdiv_eq_ofInt, BitVec.toInt_allOnes, if_pos hb, Int.tdiv_neg, Int.tdiv_one,
    BitVec.ofInt_neg, BitVec.ofInt_toInt]

/-- A signed division by a constant. -/
theorem emitSdivConst_puts (hb : b ≤ w) (hbpos : 0 < b) {rs : Register R} {imm : Int}
    (hfits : imm ≠ 1 → imm ≠ -1 → FitsWidth b imm) (hrs : OldReg e.vregCounter rs)
    (hread : Reads I true (ρ.get rs) x) (h : emitSdivConst (.virtual rd) rs imm b e = some e') :
    Puts sym e ρ rd (x.sdiv (BitVec.ofInt b imm)) e' := by
  have hrefl : Emits sym [.virtual rd] e e ρ ρ := .refl e ρ
  have hneg : ∀ r : BitVec w, (0 - r).setWidth b = -(r.setWidth b) := fun r => by
    rw [setWidth_sub _ _ hb]
    simp
  unfold emitSdivConst at h
  split at h
  · cases h
  · split at h
    · next hone =>
      cases h
      refine .copy hrefl ?_
      have hone' : BitVec.ofInt b 1 = 1#b := rfl
      rw [hread.low, hone, hone', BitVec.sdiv_one]
    · next hone =>
      split at h
      · next hminus =>
        cases h
        refine .push hrefl (LawfulArith.alu_sub ..) ?_
        rw [ρ.get_zero, hneg, hread.low, hminus, sdiv_minus_one hbpos]
      · next hminus =>
        split at h
        -- the dividend is biased by the divisor minus one where it is negative, and shifted
        · next hpow =>
          have hfits := hfits hone hminus
          have hlog := log2_lt_width hfits hpow hbpos
          have hlogpos : 0 < imm.natAbs.log2 := by
            refine Nat.pos_of_ne_zero fun hzero => ?_
            have hnat := isPowerOfTwo_iff.mp hpow
            rw [hzero, pow_zero] at hnat
            omega
          rw [sdiv_two_pow hbpos hfits hpow]
          split at h
          · next hlt =>
            rw [← Option.some.inj h, if_pos hlt]
            obtain ⟨ρ₁, hemits, hget⟩ := emitBiasedShift_emits hb hrefl.newVreg.newVreg.newVreg
              (Nat.le_succ _) (Or.inr ⟨_, Nat.le_add_right _ 2, Nat.lt_succ_self _, rfl⟩) hrs hlogpos
              hlog hread
            refine .push hemits (LawfulArith.alu_sub ..) ?_
            rw [ρ₁.get_zero, hneg]
            exact congrArg _ hget
          · next hge =>
            rw [← Option.some.inj h, if_neg hge]
            exact emitBiasedShift_emits hb hrefl.newVreg.newVreg le_rfl
              (Or.inl (List.mem_singleton.mpr rfl)) hrs hlogpos hlog hread
        · cases h

omit [LawfulMachine R w I] [LawfulArith R w I] in
/-- A power of two is always multiplied by shifting. -/
theorem emitMulConst_isSome (dst rs : Register R) {imm : Int} (hpow : isPowerOfTwo imm.natAbs)
    (e : Emitter I) : ∃ e', emitMulConst dst rs imm b e = some e' := by
  by_cases hzero : imm = 0
  · exact ⟨_, if_pos hzero⟩
  · by_cases hone : imm = 1
    · exact ⟨_, (if_neg hzero).trans (if_pos hone)⟩
    · by_cases hminus : imm = -1
      · exact ⟨_, (if_neg hzero).trans ((if_neg hone).trans (if_pos hminus))⟩
      · simp only [emitMulConst, if_neg hzero, if_neg hone, if_neg hminus, hpow, if_true]
        split
        · exact ⟨_, rfl⟩
        · exact ⟨_, rfl⟩

/-- A signed remainder by a constant. -/
theorem emitSremConst_puts (hb : b ≤ w) (hbpos : 0 < b) {rs : Register R} {imm : Int}
    (himm : imm.natAbs ≤ 2 ^ 31) (hfits : imm ≠ 1 → imm ≠ -1 → FitsWidth b imm)
    (hrs : OldReg e.vregCounter rs) (hread : Reads I true (ρ.get rs) x)
    (h : emitSremConst (.virtual rd) rs imm b e = some e') :
    Puts sym e ρ rd (x.srem (BitVec.ofInt b imm)) e' := by
  have hrefl : Emits sym [.virtual rd] e e ρ ρ := .refl e ρ
  unfold emitSremConst at h
  split at h
  · cases h
  · split at h
    -- by one and by minus one nothing remains
    · next hone =>
      cases h
      have hz : x.srem (BitVec.ofInt b imm) = BitVec.ofInt b 0 := by
        rw [srem_eq_sub]
        rcases Int.natAbs_eq_iff.mp hone with rfl | rfl
        · have hone' : BitVec.ofInt b ((1 : Nat) : Int) = 1#b := rfl
          rw [hone', BitVec.sdiv_one, BitVec.mul_one, BitVec.sub_self]
          rfl
        · rw [Nat.cast_one, sdiv_minus_one hbpos, BitVec.ofInt_neg]
          simp
      exact hz ▸ emitConstInt_puts hrefl hb
    · split at h
      -- elsewhere the quotient is multiplied back and subtracted
      · next hpow =>
        obtain ⟨e₁, hdiv, h⟩ := Option.bind_eq_some_iff.mp h
        have hrs' : OldReg e.newVreg.vregCounter rs := hrs.mono (Nat.le_succ _)
        obtain ⟨ρ₁, hquotient, hq⟩ : Puts sym e.newVreg ρ e.vregCounter _ e₁ :=
          emitSdivConst_puts hb hbpos hfits hrs' hread hdiv
        have habsorb : Emits sym [] e e₁ ρ ρ₁ := hquotient.absorb
        have hkeep : ρ₁.get rs = ρ.get rs := habsorb.get_oldReg hrs
        obtain ⟨e₂, hmul⟩ := emitMulConst_isSome (b := b) (.virtual e₁.vregCounter)
          (.virtual e.vregCounter) hpow e₁.newVreg
        simp only [hmul, Option.some.injEq] at h
        obtain ⟨ρ₂, hproduct, hp⟩ : Puts sym e₁.newVreg ρ₁ e₁.vregCounter _ e₂ :=
          emitMulConst_puts hb himm hq hmul
        have habsorb₂ : Emits sym [] e₁ e₂ ρ₁ ρ₂ := hproduct.absorb
        have hkeep₂ : ρ₂.get rs = ρ₁.get rs :=
          habsorb₂.get_oldReg (hrs.mono habsorb.counter_le)
        rw [← h]
        refine .push ((habsorb.trans habsorb₂).widen _) (LawfulArith.alu_sub ..) ?_
        rw [setWidth_sub _ _ hb, hkeep₂, hkeep, hread.low, hp, srem_eq_sub]
      · cases h

end

end Mir
