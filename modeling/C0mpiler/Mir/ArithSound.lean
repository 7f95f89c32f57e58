import C0mpiler.Mir.ArithImm
import Mathlib

/-!
# Binary operations

Operands are lowered and brought to the form that the operation reads, the operation is emitted, and
its result brought to the form of its width. Whatever the registers hold, the result is that of the
operation in the low bits of the register of the instruction.
-/

namespace Mir

open Ir (ModuleCore ValueId InstRef InstKind BinaryOpcode CoreInt intArith intShift intBinary)
open LowBits

variable {R I : Type} {w : Nat} [DecidableEq R] [MachineSemantics R w I] {m : ModuleCore}
  {symbols : HashMap String SymbolId} {S : FunctionLoweringState} {sym : SymbolId → BitVec w}
  {e e' : Emitter I} {ρ ρ' : Regs R I w} {b c : Nat}

/-! ## Modules and operands -/

/-- Integer types have at least one bit, an integer constant has the width of its type, and the
incoming values of phis are there. -/
structure WellTyped (m : ModuleCore) : Prop where
  intTypes : IntTypesWf m
  consts : ∀ c d number, m.constData c = some d → d.kind = .int number →
    d.ty = .int number.bitWidth ∧ number.Wf
  incomings : ∀ phi d incomings idx, m.inst phi = some d → d.kind = .phi incomings idx →
    ∀ inc ∈ incomings.entries, (m.valueTy inc.2.value).isSome

/-- The operand `v`, no wider than a register, stands for `x` when the registers are `ρ`: an integer
constant by its value, any other operand by the low bits of its register. -/
def StandsFor (m : ModuleCore) (symbols : HashMap String SymbolId) (S : FunctionLoweringState)
    (sym : SymbolId → BitVec w) (ρ : Regs R I w) (v : ValueId) (x : BitVec b) : Prop :=
  b ≤ w ∧
    match constInt m v with
    | some (some number) => number.bitWidth = b ∧ x = .ofNat b number.value
    | _ => ∃ r, operandValue m symbols S sym ρ v = some r ∧ r.setWidth b = x

/-- A constant integer. -/
theorem constInt_eq_some {v : ValueId} {number : CoreInt}
    (h : constInt m v = some (some number)) :
    ∃ c d, v = .const c ∧ m.constData c = some d ∧ d.kind = .int number := by
  cases v with
  | const c =>
    obtain ⟨d, hd, h⟩ := Option.bind_eq_some_iff.mp h
    refine ⟨c, d, rfl, hd, ?_⟩
    cases hk : d.kind with
    | int n =>
      rw [hk] at h
      cases h
      rfl
    | _ =>
      rw [hk] at h
      cases h
  | _ => cases h

omit [DecidableEq R] in
/-- What an operand stands for depends on the registers of the values. -/
theorem StandsFor.congr {v : ValueId} {x : BitVec b}
    (hregs : ∀ v r, S.vregForValue v = some r → ρ'.get (.virtual r) = ρ.get (.virtual r))
    (h : StandsFor m symbols S sym ρ v x) : StandsFor m symbols S sym ρ' v x := by
  unfold StandsFor at h ⊢
  rw [operandValue_congr hregs]
  exact h

/-- The registers of values are as they were. -/
theorem Emits.values (h : Emits sym [] e e' ρ ρ') (hS : S.Below e.vregCounter) (v : ValueId) (r : Nat)
    (hr : S.vregForValue v = some r) : ρ'.get (.virtual r) = ρ.get (.virtual r) :=
  h.get_old (hS v r hr) List.not_mem_nil

omit [DecidableEq R] in
/-- The register of an operand whose constant fits. -/
theorem StandsFor.value {v : ValueId} {x : BitVec b} (h : StandsFor m symbols S sym ρ v x)
    (hm : WellTyped m) (hfits : ConstFits m v) :
    ∃ r, operandValue m symbols S sym ρ v = some r ∧ r.setWidth b = x := by
  obtain ⟨hb, h⟩ := h
  split at h
  · next number hconst =>
    obtain ⟨rfl, rfl⟩ := h
    obtain ⟨c, d, rfl, hd, hk⟩ := constInt_eq_some hconst
    have hwf := (hm.consts c d number hd hk).2
    have himm := asI32_asI64 hwf (hfits c d number rfl hd hk)
    simp only [operandValue, hd, hk, Option.bind_eq_bind, Option.bind_some, himm]
    split
    · next hzero =>
      refine ⟨_, rfl, ?_⟩
      rw [show number.value = 0 from hzero]
      simp
    · exact ⟨_, rfl, by rw [setWidth_ofInt _ hb, ofInt_asI64 hwf]⟩
  · exact h

variable [LawfulMachine R w I]

/-- Lowering an operand, behind code that has been emitted already. -/
theorem lowerOperand_standsFor {v : ValueId} {x : BitVec b} {e₀ : Emitter I} {ρ₀ : Regs R I w}
    (h : StandsFor m symbols S sym ρ₀ v x) (hm : WellTyped m) (hfits : ConstFits m v)
    (hS : S.Below e₀.vregCounter) (hbefore : Emits sym [] e₀ e ρ₀ ρ) :
    ∃ r e' ρ', lowerOperand m symbols S v e = some (r, e') ∧ Emits sym [] e e' ρ ρ' ∧
      OldReg e'.vregCounter r ∧ (ρ'.get r).setWidth b = x := by
  obtain ⟨u, hvalue, hu⟩ := (h.congr (hbefore.values hS)).value hm hfits
  obtain ⟨r, e', ρ', hlower, hemits, hold, hget⟩ :=
    lowerOperand_value hvalue (hS.mono hbefore.counter_le)
  exact ⟨r, e', ρ', hlower, hemits, hold, hget ▸ hu⟩

/-! ## Normalised operands -/

omit [LawfulMachine R w I] [MachineSemantics R w I] [DecidableEq R] in
/-- The bits of an integer type. -/
theorem intBitsForValue_of_ty {v : ValueId} (h : m.valueTy v = some (.int b)) :
    intBitsForValue m v = some (some b) := by
  simp [intBitsForValue, h]

/-- A test of all elements returns. -/
theorem allM_isSome {α : Type} {p : α → Option Bool} {l : List α} (h : ∀ a ∈ l, (p a).isSome) :
    (l.allM p).isSome := by
  induction l with
  | nil => rfl
  | cons a l ih =>
    obtain ⟨k, hk⟩ := Option.isSome_iff_exists.mp (h a List.mem_cons_self)
    have hl := ih fun a' ha' => h a' (List.mem_cons_of_mem _ ha')
    cases k with
    | true => simpa [List.allM, hk] using hl
    | false => simp [List.allM, hk]

/-- The test of a value returns. -/
theorem knownSignExtendedOr_isSome {v : ValueId} {wordSize bits : Nat} {k : Option Bool}
    (hty : (m.valueTy v).isSome) (hk : k.isSome) :
    (knownSignExtendedOr m wordSize v bits k).isSome := by
  obtain ⟨ty, hty⟩ := Option.isSome_iff_exists.mp hty
  have hbits : ∃ n, intBitsForValue m v = some n := by
    unfold intBitsForValue
    rw [hty]
    cases ty <;> exact ⟨_, rfl⟩
  obtain ⟨n, hn⟩ := hbits
  unfold knownSignExtendedOr
  split
  · rfl
  · split
    · rfl
    · rw [hn]
      simp only [Option.bind_eq_bind, Option.bind_some]
      split
      · rfl
      · exact hk

/-- The search for a sign extension looks at values that are there. -/
theorem isKnownSignExtended_isSome (hm : WellTyped m) (wordSize bits depth : Nat) (v : ValueId)
    (hty : (m.valueTy v).isSome) :
    (isKnownSignExtendedIntValueDepth m wordSize bits depth v).isSome := by
  induction depth generalizing v with
  | zero => exact knownSignExtendedOr_isSome hty rfl
  | succ depth ih =>
    refine knownSignExtendedOr_isSome hty ?_
    cases v with
    | inst inst =>
      obtain ⟨d, hd⟩ : ∃ d, m.inst inst = some d := by
        simpa [ModuleCore.valueTy, Option.isSome_iff_exists] using hty
      simp only [hd, Option.bind_eq_bind, Option.bind_some]
      cases hk : d.kind with
      | phi incomings idx =>
        exact allM_isSome fun inc hinc => ih _ (hm.incomings inst d incomings idx hd hk inc hinc)
      | binary op lhs rhs => cases op <;> rfl
      | _ => rfl
    | _ => rfl

/-- A register is known to be sign-extended only at the full width, or at 32 bits of 64. -/
theorem of_known {v : ValueId} {wordSize bits depth : Nat}
    (h : isKnownSignExtendedIntValueDepth m wordSize bits depth v = some true) :
    8 * wordSize ≤ bits ∨ wordSize = 8 ∧ bits = 32 := by
  have hor : ∀ k, knownSignExtendedOr m wordSize v bits k = some true →
      8 * wordSize ≤ bits ∨ wordSize = 8 ∧ bits = 32 := by
    intro k hk
    unfold knownSignExtendedOr at hk
    split at hk
    · next hle => exact Or.inl hle
    · split at hk
      · cases hk
      · next hnot =>
        simp only [not_or, not_not] at hnot
        exact Or.inr hnot
  cases depth with
  | zero => exact hor _ h
  | succ depth => exact hor _ h

/-- At the full width nothing is extended. -/
theorem extend_of_full {signed : Bool} {r : BitVec w} (hb : w ≤ b) (hle : b ≤ w) :
    extend w signed (r.setWidth b) = r := by
  obtain rfl : b = w := Nat.le_antisymm hle hb
  cases signed with
  | false => simp [extend]
  | true => simp [extend]

variable (sym) in
/-- A normalised operand: its low bits are as they were, and the rest extends them, unless it has 32
bits in a register of 64 and has passed for extended. -/
theorem emitNormalizedIntOperand_yields (hm : WellTyped m) {v : ValueId} {src : Register R}
    {x : BitVec b} (signed : Bool) (hty : m.valueTy v = some (.int b)) (hb : b ≤ w)
    (hsrc : OldReg e.vregCounter src) (hx : (ρ.get src).setWidth b = x) :
    ∃ r e' u, emitNormalizedIntOperand m v src b signed e = some (r, e') ∧ Yields sym e ρ r u e' ∧
      u.setWidth b = x ∧ (¬(signed = true ∧ b = 32 ∧ w ≠ 32) → u = extend w signed x) := by
  have hbpos : 0 < b := hm.intTypes v b hty
  have hvalue := emitNormalizedIntValue_yields sym signed hbpos hb hsrc (ρ := ρ)
  rw [hx] at hvalue
  have hwidth : w = 8 * LoweringTarget.wordSize I := LawfulMachine.width
  unfold emitNormalizedIntOperand
  split
  · next hsigned =>
    obtain ⟨known, hknown⟩ := Option.isSome_iff_exists.mp
      (isKnownSignExtended_isSome hm (LoweringTarget.wordSize I) b 4 v (by rw [hty]; rfl))
    simp only [isKnownSignExtendedIntValue, hknown, Option.bind_eq_bind, Option.bind_some]
    cases known with
    | false => exact ⟨_, _, _, rfl, hvalue, setWidth_extend _ _ hb, fun _ => rfl⟩
    | true =>
      refine ⟨_, _, _, rfl, .same hsrc, hx, fun hnot => ?_⟩
      rcases of_known hknown with hfull | ⟨hword, h32⟩
      · rw [← hx, extend_of_full (by omega) hb]
      · exact absurd ⟨hsigned, h32, by omega⟩ hnot
  · exact ⟨_, _, _, rfl, hvalue, setWidth_extend _ _ hb, fun _ => rfl⟩

/-! ## Operands of binary operations -/

variable [ArithTarget R I] {op : BinaryOpcode}

/-- The signed operations have a word form. -/
theorem has32_of_signed (h : binaryOperandsAreSigned op = true) :
    binaryOpHas32BitMachineResult op 32 = true := by
  cases op <;> first | rfl | cases h

variable (sym) (op) in
omit [ArithTarget R I] in
/-- The left operand as the operation needs it. -/
theorem normalizeBinaryOperand_left (hm : WellTyped m) {v : ValueId} {src : Register R} {x : BitVec b}
    (hty : m.valueTy v = some (.int b)) (hb : b ≤ w) (hsrc : OldReg e.vregCounter src)
    (hx : (ρ.get src).setWidth b = x) :
    ∃ r e' ρ', normalizeBinaryOperand m op (binaryOpHas32BitMachineResult op b) v src b e =
        some (r, e') ∧
      Emits sym [] e e' ρ ρ' ∧ OldReg e'.vregCounter r ∧ Ready op (ρ'.get r) x := by
  unfold normalizeBinaryOperand
  cases hword : binaryOpHas32BitMachineResult op b with
  | true =>
    refine ⟨src, e, ρ, rfl, .refl e ρ, hsrc, hx, fun _ hplain => ?_⟩
    rw [hword] at hplain
    cases hplain
  | false =>
    obtain ⟨r, e', u, hcode, ⟨ρ', hemits, hold, rfl⟩, hlow, hext⟩ :=
      emitNormalizedIntOperand_yields sym hm (binaryOperandsAreSigned op) hty hb hsrc hx
    refine ⟨r, e', ρ', hcode, hemits, hold, hlow, fun _ _ => hext ?_⟩
    rintro ⟨hsigned, rfl, -⟩
    rw [has32_of_signed hsigned] at hword
    cases hword

/-- The register of the amount of a shift is good enough. Where the amount is read as it is, the bits
read are its own; where its sign is extended, it has all the bits that are read, no sign, or leaves
nothing but the sign of the shifted value anyway. -/
def ReadsAmount (op : BinaryOpcode) (b : Nat) (r : BitVec w) (y : BitVec c) : Prop :=
  if binaryOpHas32BitMachineResult op b then r.toNat % 32 = y.toNat
  else op = .ashr → w ≤ 2 ^ c ∨ y.msb = false ∨ b ≤ y.toNat + 1

omit [DecidableEq R] [LawfulMachine R w I] in
/-- The shift amount of a register has exactly the bits that the instruction reads. -/
theorem word_eq_two_pow [LawfulArith R w I] : w = 2 ^ shiftAmtBits I :=
  LawfulArith.shiftAmt.symm

omit [DecidableEq R] [LawfulMachine R w I] in
/-- The width divides a power of two. -/
theorem word_dvd_two_pow [LawfulArith R w I] : w ∣ 2 ^ w := by
  have hle : shiftAmtBits I ≤ w := by
    conv_rhs => rw [word_eq_two_pow (I := I)]
    exact Nat.lt_two_pow_self.le
  conv_lhs => rw [word_eq_two_pow (I := I)]
  exact pow_dvd_pow 2 hle

omit [DecidableEq R] [LawfulMachine R w I] in
/-- And every larger one. -/
theorem word_dvd_of_le [LawfulArith R w I] (h : w ≤ 2 ^ c) : w ∣ 2 ^ c := by
  rw [word_eq_two_pow (I := I)] at h ⊢
  exact pow_dvd_pow 2 ((Nat.pow_le_pow_iff_right (by decide)).mp h)

omit [DecidableEq R] [LawfulMachine R w I] [ArithTarget R I] in
/-- Low bits decide a remainder. -/
theorem toNat_mod_of_low {n : Nat} {r : BitVec w} {y : BitVec c} (hlow : r.setWidth c = y)
    (hn : n ∣ 2 ^ c) (hy : y.toNat < n) : r.toNat % n = y.toNat := by
  rw [← hlow, BitVec.toNat_setWidth] at hy ⊢
  rw [← Nat.mod_mod_of_dvd r.toNat hn, Nat.mod_eq_of_lt hy]

omit [DecidableEq R] [LawfulMachine R w I] in
variable (I) in
/-- What a shift to the right reads of an amount whose sign has been extended. -/
theorem shiftsBy_extend [LawfulArith R w I] {r : BitVec w} {y : BitVec c}
    (hread : w ≤ 2 ^ c ∨ y.msb = false ∨ b ≤ y.toNat + 1) (hy : y.toNat < b) (hb : b ≤ w)
    (hc : c ≤ w) (hlow : r.setWidth c = y)
    (hext : c ≠ 32 → r = extend w (binaryOperandsAreSigned .ashr) y) :
    ShiftsBy .ashr b (r.toNat % w) y.toNat := by
  by_cases hwide : w ≤ 2 ^ c
  · exact Or.inl (toNat_mod_of_low hlow (word_dvd_of_le (I := I) hwide) (hy.trans_le hb))
  · have hne : c ≠ 32 := by
      rintro rfl
      rcases LawfulArith.width_cases (I := I) with rfl | rfl <;> exact hwide (by decide)
    have hr : r = y.signExtend w := hext hne
    cases hmsb : y.msb with
    | false =>
      rw [hr, BitVec.signExtend_eq_setWidth_of_msb_false hmsb, BitVec.toNat_setWidth_of_le hc]
      exact Or.inl (Nat.mod_eq_of_lt (hy.trans_le hb))
    | true =>
      have hsign : b ≤ y.toNat + 1 := by
        rcases hread with hle | hfalse | hsign
        · exact absurd hle hwide
        · rw [hmsb] at hfalse
          cases hfalse
        · exact hsign
      rw [hr, toNat_signExtend_mod y (word_dvd_two_pow (I := I)) (Nat.lt_of_not_le hwide) hmsb]
      exact Or.inr ⟨rfl, hsign, Nat.le_add_left _ _⟩

variable (sym) in
/-- The right operand: an amount as it is read, anything else extended as the operation needs. -/
theorem normalizeBinaryOperand_right [LawfulArith R w I] (hm : WellTyped m) {v : ValueId}
    {src : Register R} {x z : BitVec b} {y : BitVec c} (hz : intBinary op x y = some z)
    (hamount : op.isShift = true → ReadsAmount op b (ρ.get src) y)
    (hty : m.valueTy v = some (.int c)) (hb : b ≤ w) (hc : c ≤ w)
    (hsrc : OldReg e.vregCounter src) (hy : (ρ.get src).setWidth c = y) :
    ∃ r e' ρ', normalizeBinaryOperand m op (binaryOpHas32BitMachineResult op b) v src c e =
        some (r, e') ∧
      Emits sym [] e e' ρ ρ' ∧ OldReg e'.vregCounter r ∧ ReadyRight op b (ρ'.get r) y := by
  by_cases hop : op.isShift = true
  · have hlt : y.toNat < b := Ir.lt_of_intBinary hop hz
    have hread := hamount hop
    simp only [ReadyRight, hop, if_true]
    unfold normalizeBinaryOperand
    unfold ReadsAmount at hread
    cases hword : binaryOpHas32BitMachineResult op b with
    | true =>
      rw [if_pos hword] at hread
      exact ⟨src, e, ρ, rfl, .refl e ρ, hsrc, hread⟩
    | false =>
      rw [hword, if_neg Bool.false_ne_true] at hread
      obtain ⟨r, e', u, hcode, ⟨ρ', hemits, hold, rfl⟩, hlow, hext⟩ :=
        emitNormalizedIntOperand_yields sym hm (binaryOperandsAreSigned op) hty hc hsrc hy
      refine ⟨r, e', ρ', hcode, hemits, hold, ?_⟩
      rw [if_neg Bool.false_ne_true]
      by_cases hashr : op = .ashr
      · subst hashr
        exact shiftsBy_extend I (hread rfl) hlt hb hc hlow fun hne => hext fun hnot => hne hnot.2.1
      · have hzext : ρ'.get r = y.setWidth w := by
          have hunsigned : binaryOperandsAreSigned op = false := by
            cases op with
            | ashr => exact absurd rfl hashr
            | shl | lshr => rfl
            | _ => cases hop
          rw [hext fun hnot => absurd hnot.1 (by simp [hunsigned]), hunsigned]
          rfl
        rw [hzext, BitVec.toNat_setWidth_of_le hc]
        exact Or.inl (Nat.mod_eq_of_lt (hlt.trans_le hb))
  · have hop' : op.isShift = false := by simpa using hop
    rw [intBinary, if_neg hop] at hz
    split at hz
    · next hwidth =>
      subst hwidth
      obtain ⟨r, e', ρ', hcode, hemits, hold, hready⟩ :=
        normalizeBinaryOperand_left sym op hm hty hc hsrc hy
      refine ⟨r, e', ρ', hcode, hemits, hold, ?_⟩
      rw [ReadyRight, hop', if_neg Bool.false_ne_true, BitVec.setWidth_eq]
      exact hready
    · cases hz

/-! ## Results -/

omit [ArithTarget R I] [LawfulMachine R w I] in
/-- Code in front that writes no value. -/
theorem Puts.after {e₀ : Emitter I} {ρ₀ : Regs R I w} {rd : VRegId} {z : BitVec b}
    (h : Emits sym [] e₀ e ρ₀ ρ) (hputs : Puts sym e ρ rd z e') : Puts sym e₀ ρ₀ rd z e' := by
  obtain ⟨ρ', hemits, hz⟩ := hputs
  exact ⟨ρ', (h.widen _).trans hemits, hz⟩

variable (sym) in
omit [ArithTarget R I] [LawfulMachine R w I] in
/-- The register the instruction has or gets. -/
theorem ensureInstVreg_spec (inst : InstRef) (hS : S.Below e.vregCounter) (ρ : Regs R I w) :
    ∃ rd S' e', ensureInstVreg S inst e = (rd, S', e') ∧ Emits sym [] e e' ρ ρ ∧
      S'.Below e'.vregCounter ∧ S'.vregForValue (.inst inst) = some rd := by
  unfold ensureInstVreg
  split
  · next rd hrd => exact ⟨rd, S, e, rfl, .refl e ρ, hS, hrd⟩
  · refine ⟨_, _, _, rfl, (Emits.refl e ρ).newVreg, fun v r hr => ?_, ?_⟩
    · simp only [FunctionLoweringState.vregForValue, FunctionLoweringState.recordVreg,
        HashMap.lookup_insert_ite] at hr
      split at hr
      · cases hr
        exact Nat.lt_succ_self _
      · exact (hS v r hr).trans (Nat.lt_succ_self _)
    · simp [FunctionLoweringState.vregForValue, FunctionLoweringState.recordVreg]

variable (sym) (op) in
omit [ArithTarget R I] in
/-- Where the result goes first, and what is left to do once it is there. -/
theorem rawResult_spec (rd : VRegId) (hb : b ≤ w) (hbpos : 0 < b) (e : Emitter I)
    (ρ : Regs R I w) :
    ∃ raw e₁, rawResult op (binaryOpHas32BitMachineResult op b) (.virtual rd : Register R) e =
        (.virtual raw, e₁) ∧
      Emits sym [] e e₁ ρ ρ ∧ ∀ (z : BitVec b) e', Puts sym e₁ ρ raw z e' →
        Puts sym e ρ rd z
          (finishBinary op (binaryOpHas32BitMachineResult op b) (.virtual rd) (.virtual raw) b e') := by
  have hall : binaryResultNeedsNormalization op = true := by cases op <;> rfl
  unfold rawResult finishBinary
  cases hword : binaryOpHas32BitMachineResult op b with
  | true => exact ⟨rd, e, by simp, .refl e ρ, fun z e' h => by simpa using h⟩
  | false =>
    refine ⟨e.vregCounter, e.newVreg, by simp [hall], (Emits.refl e ρ).newVreg, fun z e' h => ?_⟩
    obtain ⟨ρ', hemits, hz⟩ := h
    simp only [hall, Bool.not_false, and_self, if_true]
    have habsorb : Emits sym [] e e' ρ ρ' := hemits.absorb
    have hold : OldReg e'.vregCounter (.virtual e.vregCounter : Register R) :=
      oldReg_virtual hemits.counter_le
    obtain ⟨ρ₂, hnorm, -, hget⟩ := emitNormalizedIntValue_yields sym (ρ := ρ')
      (binaryResultIsSigned op) hbpos hb hold
    refine .copy ((habsorb.trans hnorm).widen _) ?_
    rw [hget, setWidth_extend _ _ hb, hz]

/-! ## The whole operation -/

/-- The code of an instruction leaves `z` in the low bits of the register of the instruction. -/
def Computes (sym : SymbolId → BitVec w) (e : Emitter I) (ρ : Regs R I w) (inst : InstRef)
    (z : BitVec b) (code : Option (Lowered I)) : Prop :=
  ∃ rd S' e', code = some (rd, S', e') ∧ S'.vregForValue (.inst inst) = some rd ∧
    Puts sym e ρ rd z e'

variable [LawfulArith R w I] {inst : InstRef} {lhs rhs : ValueId} {x z : BitVec b} {y : BitVec c}

omit [LawfulArith R w I] in
/-- With its right operand in a register, the operation computes what its instruction does. -/
theorem lowerBinaryReg_of_sets {rs1 rs2 r : Register R} {operandBits : Nat} {e₁ e₂ : Emitter I}
    {ρ₂ : Regs R I w} (hb : b ≤ w) (hbpos : 0 < b) (hty : m.valueTy rhs = some (.int c))
    (hS : S.Below e.vregCounter) (hlower : lowerOperand m symbols S rhs e = some (r, e₁))
    (hnorm : normalizeBinaryOperand m op (binaryOpHas32BitMachineResult op b) rhs r c e₁ =
      some (rs2, e₂)) (hemits : Emits sym [] e e₂ ρ ρ₂)
    (hsets : ∀ rd, Sets sym ρ₂.get (emitBinaryReg op (binaryOpHas32BitMachineResult op b) rd rs1 rs2 :
      I) rd z) :
    Computes sym e ρ inst z (lowerBinaryReg m symbols S inst op
      (binaryOpHas32BitMachineResult op b) rs1 rhs operandBits b e) := by
  obtain ⟨rd, S', e₃, hensure, hemits₃, -, hrd⟩ :=
    ensureInstVreg_spec sym inst (hS.mono hemits.counter_le) ρ₂
  obtain ⟨raw, e₄, hraw, hemits₄, hfinish⟩ := rawResult_spec sym op rd hb hbpos e₃ ρ₂
  obtain ⟨u, halu, hu⟩ := hsets (.virtual raw)
  refine ⟨rd, S', _, ?_, hrd,
    .after (hemits.trans hemits₃) (hfinish z _ (.push (.refl e₄ ρ₂) halu hu))⟩
  simp only [lowerBinaryReg, hlower, intBitsForValue_of_ty hty, Option.bind_eq_bind, Option.bind_some,
    Option.getD_some, hnorm, hensure, hraw]

/-- The register form computes the operation. -/
theorem lowerBinaryReg_computes (hm : WellTyped m) {rs1 : Register R} {operandBits : Nat}
    (hz : intBinary op x y = some z)
    (hamount : op.isShift = true → ∀ u, operandValue m symbols S sym ρ rhs = some u →
      ReadsAmount op b u y)
    (hb : b ≤ w) (hbpos : 0 < b) (hty : m.valueTy rhs = some (.int c))
    (hrhs : StandsFor m symbols S sym ρ rhs y) (hfits : ConstFits m rhs)
    (hS : S.Below e.vregCounter) (hrs1 : OldReg e.vregCounter rs1)
    (hready : Ready op (ρ.get rs1) x) :
    Computes sym e ρ inst z (lowerBinaryReg m symbols S inst op
      (binaryOpHas32BitMachineResult op b) rs1 rhs operandBits b e) := by
  obtain ⟨u, hvalue, hu⟩ := hrhs.value hm hfits
  obtain ⟨r, e₁, ρ₁, hlower, hemits₁, hold₁, hget⟩ := lowerOperand_value hvalue hS
  have hlow : (ρ₁.get r).setWidth c = y := hget ▸ hu
  have hread : op.isShift = true → ReadsAmount op b (ρ₁.get r) y :=
    fun hop => hget ▸ hamount hop u hvalue
  obtain ⟨rs2, e₂, ρ₂, hnorm, hemits₂, hold₂, hright⟩ :=
    normalizeBinaryOperand_right sym hm hz hread hty hb hrhs.1 hold₁ hlow
  have hemits := hemits₁.trans hemits₂
  have hleft : Ready op (ρ₂.get rs1) x := by
    rw [hemits.get_oldReg hrs1]
    exact hready
  exact lowerBinaryReg_of_sets hb hbpos hty hS hlower hnorm hemits fun rd =>
    sets_binary (I := I) hb hz hleft hright sym rd

omit [DecidableEq R] [MachineSemantics R w I] [LawfulMachine R w I] [ArithTarget R I]
  [LawfulArith R w I] in
/-- A typed value is a constant integer or it is not. -/
theorem constInt_isSome {v : ValueId} (h : (m.valueTy v).isSome) : (constInt m v).isSome := by
  cases v with
  | const c =>
    obtain ⟨d, hd⟩ : ∃ d, m.constData c = some d := by
      simpa [ModuleCore.valueTy, Option.isSome_iff_exists] using h
    simp only [constInt, hd, Option.bind_eq_bind, Option.bind_some]
    cases d.kind <;> rfl
  | _ => rfl

/-- The right operand of an unsigned division, if it is a constant, is a divisor that the immediate
stands for. -/
def DivisorFits (w : Nat) (m : ModuleCore) (op : BinaryOpcode) (rhs : ValueId) : Prop :=
  op = .udiv ∨ op = .urem → ∀ number, constInt m rhs = some (some number) →
    UnsignedDivisorFits w number

/-- An amount of `c` bits is read right. The shifts of 32 bits read five bits of the register and leave
it as it is; the other shifts extend the amount, by its sign if they shift the sign in, and then the
least amount with a sign, `n`, must have all the bits that are read or leave nothing but the sign. -/
def ShiftAmountFits (w : Nat) (op : BinaryOpcode) (b c n : Nat) : Prop :=
  if binaryOpHas32BitMachineResult op b then 5 ≤ c
  else op = .ashr → w ≤ 2 ^ c ∨ b ≤ n + 1

/-- The amount of a shift is read right. An integer constant that is not negative is taken in as an
immediate, and the constants that are no integers stand for zero. -/
def AmountFits (w : Nat) (m : ModuleCore) (op : BinaryOpcode) (b : Nat) (rhs : ValueId) : Prop :=
  match constInt m rhs with
  | some (some number) => 0 ≤ number.asI64 ∨ ShiftAmountFits w op b number.bitWidth number.value
  | _ => (∃ c, rhs = .const c) ∨
      ∀ c, m.valueTy rhs = some (.int c) → ShiftAmountFits w op b c (2 ^ (c - 1))

omit [MachineSemantics R w I] [LawfulMachine R w I] [DecidableEq R] in
/-- An amount with its highest bit set is large. -/
theorem two_pow_le_of_msb {y : BitVec c} (h : y.msb = true) : 2 ^ (c - 1) ≤ y.toNat := by
  rw [BitVec.msb_eq_true_iff_two_mul_ge] at h
  rcases Nat.eq_zero_or_pos c with rfl | hpos
  · omega
  · have htwo : 2 ^ c = 2 * 2 ^ (c - 1) := by
      rw [← Nat.pow_succ', Nat.succ_eq_add_one, Nat.sub_add_cancel hpos]
    omega

/-- An amount that fits is read as it is. -/
theorem ShiftAmountFits.reads {n : Nat} {u : BitVec w} (h : ShiftAmountFits w op b c n)
    (hmsb : y.msb = true → n ≤ y.toNat) (hy : y.toNat < b) (hu : u.setWidth c = y) :
    ReadsAmount op b u y := by
  unfold ShiftAmountFits at h
  unfold ReadsAmount
  split
  · next hword =>
    rw [if_pos hword] at h
    obtain rfl := eq_32_of_has32 hword
    exact toNat_mod_of_low hu (pow_dvd_pow 2 h) hy
  · next hword =>
    rw [if_neg hword] at h
    intro hop
    rcases h hop with hwide | hsign
    · exact Or.inl hwide
    · cases hbit : y.msb with
      | false => exact Or.inr (Or.inl rfl)
      | true => exact Or.inr (Or.inr (hsign.trans (Nat.succ_le_succ (hmsb hbit))))

omit [DecidableEq R] [LawfulMachine R w I] [ArithTarget R I] [LawfulArith R w I] in
/-- An amount in a register, or one that is no integer, is read right. -/
theorem AmountFits.reads_of_none (h : AmountFits w m op b rhs) (hconst : constInt m rhs = some none)
    (hty : m.valueTy rhs = some (.int c)) (hrhs : StandsFor m symbols S sym ρ rhs y)
    (hy : y.toNat < b) {u : BitVec w} (hu : operandValue m symbols S sym ρ rhs = some u) :
    ReadsAmount op b u y := by
  obtain ⟨-, hvalue⟩ := hrhs
  simp only [AmountFits, hconst] at h hvalue
  obtain ⟨u', hu', hlow⟩ := hvalue
  rw [hu] at hu'
  cases hu'
  rcases h with ⟨k, rfl⟩ | hall
  · have hzero : u = 0 := by
      obtain ⟨d, hd, hvalue⟩ := Option.bind_eq_some_iff.mp hu
      simp only [constInt, hd, Option.bind_eq_bind, Option.bind_some] at hconst
      cases hk : d.kind with
      | int number =>
        rw [hk] at hconst
        cases hconst
      | null | undef =>
        rw [hk] at hvalue
        cases hvalue
        rfl
      | _ =>
        rw [hk] at hvalue
        cases hvalue
    subst hzero
    have hy0 : y = 0 := hlow.symm.trans (by simp)
    subst hy0
    unfold ReadsAmount
    split
    · simp
    · exact fun _ => Or.inr (Or.inl (by simp))
  · exact (hall c hty).reads two_pow_le_of_msb hy hlow

omit [LawfulMachine R w I] in
/-- A constant amount that is no immediate is negative. -/
theorem neg_of_no_immediate {number : CoreInt} {rd rs : Register R} {has32 : Bool}
    (hwf : number.Wf) (hop : op.isShift = true) (hlt : number.value < b) (hb : b ≤ w)
    (h : emitBinaryConst (I := I) op has32 rd rs number.asI64 b e = none) : number.asI64 < 0 := by
  by_contra hneg
  have heq := asI64_of_nonneg hwf (Int.not_lt.mp hneg)
  have hword := word_eq_two_pow (I := I)
  have hrange : 0 ≤ number.asI64 ∧ number.asI64 < 2 ^ shiftAmtBits I := by
    refine ⟨Int.not_lt.mp hneg, ?_⟩
    have hcast : ((2 ^ shiftAmtBits I : Nat) : Int) = w := by rw [← hword]
    push_cast at hcast
    rw [heq, hcast]
    exact_mod_cast hlt.trans_le hb
  cases op with
  | shl | lshr | ashr =>
    simp only [emitBinaryConst, if_pos hrange] at h
    cases h
  | _ => cases hop

theorem lowerBinary_computes (hm : WellTyped m) (hinst : m.valueTy (.inst inst) = some (.int b))
    (hlhsTy : m.valueTy lhs = some (.int b)) (hrhsTy : m.valueTy rhs = some (.int c))
    (hlhs : StandsFor m symbols S sym ρ lhs x) (hrhs : StandsFor m symbols S sym ρ rhs y)
    (hz : intBinary op x y = some z) (hS : S.Below e.vregCounter)
    (hlhsFits : ConstFits m lhs) (hrhsFits : ConstFits m rhs)
    (hshift : op.isShift = true → AmountFits w m op b rhs) (hdiv : DivisorFits w m op rhs) :
    Computes sym e ρ inst z (lowerBinary m symbols S inst op lhs rhs e) := by
  have hb : b ≤ w := hlhs.1
  have hbpos : 0 < b := hm.intTypes lhs b hlhsTy
  obtain ⟨r, e₁, ρ₁, hlower, hemits₁, hold₁, hlow⟩ :=
    lowerOperand_standsFor hlhs hm hlhsFits hS (.refl e ρ)
  obtain ⟨rs1, e₂, ρ₂, hnorm, hemits₂, hold₂, hready⟩ :=
    normalizeBinaryOperand_left sym op hm hlhsTy hb hold₁ hlow
  have hemits := hemits₁.trans hemits₂
  have hS₂ : S.Below e₂.vregCounter := hS.mono hemits.counter_le
  have hrhs₂ : StandsFor m symbols S sym ρ₂ rhs y := hrhs.congr (hemits.values hS)
  have hafter : ∀ {code : Option (Lowered I)}, Computes sym e₂ ρ₂ inst z code →
      Computes sym e ρ inst z code := by
    rintro code ⟨rd, S', e', hcode, hrd, hputs⟩
    exact ⟨rd, S', e', hcode, hrd, .after hemits hputs⟩
  obtain ⟨const, hconst⟩ := Option.isSome_iff_exists.mp
    (constInt_isSome (m := m) (v := rhs) (by rw [hrhsTy]; rfl))
  simp only [lowerBinary, intBitsForValue_of_ty hinst, intBitsForValue_of_ty hlhsTy, hlower, hnorm,
    hconst, Option.bind_eq_bind, Option.bind_some, Option.getD_some]
  cases const with
  -- no constant on the right: the register form
  | none =>
    refine hafter (lowerBinaryReg_computes hm hz (fun hop u hu => ?_) hb hbpos hrhsTy hrhs₂ hrhsFits
      hS₂ hold₂ hready)
    exact (hshift hop).reads_of_none hconst hrhsTy hrhs₂ (Ir.lt_of_intBinary hop hz) hu
  -- a constant: its immediate form where there is one
  | some number =>
    obtain ⟨rd, S', e₃, hensure, hemits₃, hS₃, hrd⟩ := ensureInstVreg_spec sym inst hS₂ ρ₂
    obtain ⟨raw, e₄, hraw, hemits₄, hfinish⟩ :=
      rawResult_spec sym op rd hb hbpos e₃ ρ₂
    have hold₄ : OldReg e₄.vregCounter rs1 :=
      hold₂.mono (hemits₃.counter_le.trans hemits₄.counter_le)
    simp only [hensure, hraw]
    cases hcode : emitBinaryConst op (binaryOpHas32BitMachineResult op b) (.virtual raw) rs1
        (asI32 number.asI64) b e₄ with
    | some e₅ =>
      obtain ⟨cid, d, rfl, hd, hk⟩ := constInt_eq_some hconst
      have hwf := (hm.consts cid d number hd hk).2
      obtain ⟨-, hvalue⟩ := hrhs
      rw [hconst] at hvalue
      obtain ⟨rfl, rfl⟩ := hvalue
      have hputs : Puts sym e₄ ρ₂ raw z e₅ :=
        emitBinaryConst_puts hb hwf (hrhsFits cid d number rfl hd hk) hz
          (fun hop => hdiv hop number hconst) hold₄ hready hcode
      exact ⟨rd, S', _, rfl, hrd, .after (hemits.trans hemits₃) (hfinish z e₅ hputs)⟩
    | none =>
      -- nothing has been emitted, but the instruction has its register by now
      have hrhs₄ : StandsFor m symbols S' sym ρ₂ rhs y := by
        unfold StandsFor at hrhs₂ ⊢
        rw [hconst] at hrhs₂ ⊢
        exact hrhs₂
      have hamount : op.isShift = true → ∀ u, operandValue m symbols S' sym ρ₂ rhs = some u →
          ReadsAmount op b u y := by
        intro hop u hu
        obtain ⟨cid, d, rfl, hd, hk⟩ := constInt_eq_some hconst
        have hwf := (hm.consts cid d number hd hk).2
        obtain ⟨u', hu', hlow⟩ := hrhs₄.value hm hrhsFits
        rw [hu] at hu'
        cases hu'
        obtain ⟨-, hvalue⟩ := hrhs
        rw [hconst] at hvalue
        obtain ⟨rfl, rfl⟩ := hvalue
        have hlt := Ir.lt_of_intBinary hop hz
        have hto := toNat_ofNat_value hwf
        rw [asI32_asI64 hwf (hrhsFits cid d number rfl hd hk)] at hcode
        have hneg := neg_of_no_immediate hwf hop (hto ▸ hlt) hb hcode
        have hfits := hshift hop
        simp only [AmountFits, hconst] at hfits
        exact (hfits.resolve_left (Int.not_le.mpr hneg)).reads (fun _ => hto.ge) hlt hlow
      have hreg : Computes sym e₄ ρ₂ inst z (lowerBinaryReg m symbols S' inst op
          (binaryOpHas32BitMachineResult op b) rs1 rhs b b e₄) :=
        lowerBinaryReg_computes hm hz hamount hb hbpos hrhsTy hrhs₄ hrhsFits
          (hS₃.mono hemits₄.counter_le) hold₄ hready
      obtain ⟨rd', S'', e', hcode', hrd', hputs⟩ := hreg
      exact hafter ⟨rd', S'', e', hcode', hrd', .after (hemits₃.trans hemits₄) hputs⟩

end Mir
