import C0mpiler.Mir.ShiftExact
import Mathlib

/-!
# Unsigned divisors, exactly

The divisors that the immediate of an unsigned division does not stand for: the code then divides by
another number, and there is a dividend that tells the two apart. With that, the contract of
instruction selection.
-/

namespace Mir

open Ir (ModuleCore ValueId InstRef InstKind BinaryOpcode ICmpCode CoreInt intArith intBinary
  intICmp)
open LowBits

/-! ## The divisors left out -/

section Divisor

variable {number : CoreInt} {w : Nat}

/-- A divisor with its highest bit set, at a width other than 32 and less than a register's unless it
becomes `2 ^ 31`. -/
theorem not_unsignedDivisorFits (hwf : number.Wf) (h : ¬UnsignedDivisorFits w number) :
    number.bitWidth ≠ 32 ∧ 2 ^ (number.bitWidth - 1) ≤ number.value ∧
      number.asI64 = (number.value : Int) - 2 ^ number.bitWidth ∧
      (number.bitWidth = w → number.asI64 = -2 ^ 31) := by
  unfold UnsignedDivisorFits at h
  simp only [not_or, not_and, not_not, Nat.not_lt] at h
  obtain ⟨hone, h32, hhigh, hmin⟩ := h
  exact ⟨h32, hhigh, by rw [hwf.asI64_eq hone, if_pos hhigh], hmin⟩

end Divisor

variable {R I : Type} {w : Nat} [DecidableEq R] [MachineSemantics R w I] {m : ModuleCore}
  {symbols : HashMap String SymbolId} {S : FunctionLoweringState} {sym : SymbolId → BitVec w}
  {e e' : Emitter I} {ρ ρ' : Regs R I w} {b : Nat} {inst : InstRef} {kind : InstKind}

variable [ArithTarget R I] [LawfulMachine R w I] [LawfulArith R w I]

omit [LawfulArith R w I] in
/-- A binary operation with a constant that is taken in as an immediate. -/
theorem lowerBinary_of_const (hm : WellTyped m) {op : BinaryOpcode} {lhs rhs : ValueId}
    {number : CoreInt} {x z : BitVec b} (hinst : m.valueTy (.inst inst) = some (.int b))
    (hlhsTy : m.valueTy lhs = some (.int b)) (hlhs : StandsFor m symbols S sym ρ lhs x)
    (hlhsFits : ConstFits m lhs) (hconst : constInt m rhs = some (some number))
    (hS : S.Below e.vregCounter)
    (hcode : ∀ (raw : VRegId) rs1 e₁ ρ₁, OldReg e₁.vregCounter rs1 →
      Ready op (RegFile.get ρ₁ rs1) x →
      ∃ e', emitBinaryConst (I := I) op (binaryOpHas32BitMachineResult op b) (.virtual raw) rs1
          (asI32 number.asI64) b e₁ = some e' ∧ Puts sym e₁ ρ₁ raw z e') :
    Computes sym e ρ inst z (lowerBinary m symbols S inst op lhs rhs e) := by
  have hb : b ≤ w := hlhs.1
  have hbpos : 0 < b := hm.intTypes lhs b hlhsTy
  obtain ⟨r, e₁, ρ₁, hlower, hemits₁, hold₁, hlow⟩ :=
    lowerOperand_standsFor hlhs hm hlhsFits hS (.refl e ρ)
  obtain ⟨rs1, e₂, ρ₂, hnorm, hemits₂, hold₂, hready⟩ :=
    normalizeBinaryOperand_left sym op hm hlhsTy hb hold₁ hlow
  have hemits := hemits₁.trans hemits₂
  obtain ⟨rd, S', e₃, hensure, hemits₃, -, hrd⟩ :=
    ensureInstVreg_spec sym inst (hS.mono hemits.counter_le) ρ₂
  obtain ⟨raw, e₄, hraw, hemits₄, hfinish⟩ :=
    rawResult_spec sym op rd hb hbpos e₃ ρ₂
  obtain ⟨e₅, hop, hputs⟩ := hcode raw rs1 e₄ ρ₂
    (hold₂.mono (hemits₃.counter_le.trans hemits₄.counter_le)) hready
  refine ⟨rd, S', _, ?_, hrd, .after (hemits.trans hemits₃) (hfinish z e₅ hputs)⟩
  simp only [lowerBinary, intBitsForValue_of_ty hinst, intBitsForValue_of_ty hlhsTy, hlower, hnorm,
    hconst, hensure, hraw, hop, Option.bind_eq_bind, Option.bind_some, Option.getD_some]

section Code

variable {number : CoreInt} {op : BinaryOpcode} {x z : BitVec number.bitWidth} {raw : VRegId}
  {rs1 : Register R}

/-- The logarithm of `2 ^ 31`. -/
theorem log2_two_pow_31 : (2 ^ 31).log2 = 31 :=
  Nat.log2_two_pow

/-- It is a power of two. -/
theorem isPowerOfTwo_two_pow_31 : isPowerOfTwo (2 ^ 31) = true := by
  rw [isPowerOfTwo_iff, log2_two_pow_31]

/-- The code of an unsigned division by the immediate leaves `z` in its register, for the dividend
`x`. -/
def Divides (sym : SymbolId → BitVec w) (I : Type) [MachineSemantics R w I] [ArithTarget R I]
    (op : BinaryOpcode) (number : CoreInt) (x z : BitVec number.bitWidth) : Prop :=
  ∀ (raw : VRegId) (rs1 : Register R) (e : Emitter I) (ρ : Regs R I w),
    OldReg e.vregCounter rs1 → Ready op (ρ.get rs1) x →
    ∃ e', emitBinaryConst op (binaryOpHas32BitMachineResult op number.bitWidth) (.virtual raw) rs1
        number.asI64 number.bitWidth e = some e' ∧ Puts sym e ρ raw z e'

variable (sym) in
/-- Where the immediate becomes `2 ^ 31`, the code divides by that. -/
theorem divides_min (hb : number.bitWidth ≤ w) (hlt : 2 ^ 31 < 2 ^ number.bitWidth)
    (hmin : number.asI64 = -2 ^ 31) (x : BitVec number.bitWidth) :
    Divides sym I .udiv number x (x / BitVec.ofNat number.bitWidth (2 ^ 31)) ∧
      Divides sym I .urem number x (x % BitVec.ofNat number.bitWidth (2 ^ 31)) := by
  have himm : asU32 (-2 ^ 31) = 2 ^ 31 := by decide
  refine ⟨fun raw rs1 e ρ hrs1 hready => ?_, fun raw rs1 e ρ hrs1 hready => ?_⟩
  · have hcode : ∃ e', emitUdivConst (.virtual raw) rs1 (2 ^ 31) number.bitWidth e = some e' := by
      rw [emitUdivConst, if_neg (by decide), if_neg (by decide), if_pos isPowerOfTwo_two_pow_31]
      exact ⟨_, rfl⟩
    obtain ⟨e', hcode⟩ := hcode
    refine ⟨e', ?_, emitUdivConst_puts hb hlt (by decide) (reads_of_ready hready rfl) hcode⟩
    simp only [emitBinaryConst, hmin, himm, hcode, emitExpanded]
  · have hcode : ∃ e', emitUremConst (.virtual raw) rs1 (2 ^ 31) e = some e' := by
      rw [emitUremConst, if_neg (by decide), if_neg (by decide), if_pos isPowerOfTwo_two_pow_31]
      exact ⟨_, rfl⟩
    obtain ⟨e', hcode⟩ := hcode
    refine ⟨e', ?_, emitUremConst_puts hb hlt hrs1 hready.low hcode⟩
    simp only [emitBinaryConst, hmin, himm, hcode, emitExpanded]

/-- A negative constant is larger than every value of the width. -/
theorem toNat_lt_negative (hwf : number.Wf) (hb : number.bitWidth < w) (hneg : number.asI64 < 0)
    (x : BitVec number.bitWidth) :
    (x.setWidth w).toNat < (BitVec.ofInt w number.asI64).toNat := by
  have hone : number.bitWidth ≠ 1 := by
    intro hone
    rw [CoreInt.asI64, if_pos hone] at hneg
    omega
  obtain ⟨hlo, -⟩ := hwf.asI64_bounds hone
  have hlt : (x.toNat : Int) < 2 * 2 ^ (number.bitWidth - 1) := by
    exact_mod_cast hwf.two_pow ▸ x.isLt
  have hpow : (2 : Int) * (2 * 2 ^ (number.bitWidth - 1)) ≤ 2 ^ w := by
    have hle : 2 ^ (number.bitWidth + 1) ≤ 2 ^ w := Nat.pow_le_pow_right (by decide) hb
    rw [Nat.pow_succ', hwf.two_pow] at hle
    exact_mod_cast hle
  have hmod : number.asI64 % 2 ^ w = number.asI64 + 2 ^ w := by
    rw [← Int.add_emod_right]
    exact Int.emod_eq_of_lt (by linarith) (by linarith)
  rw [BitVec.toNat_ofInt, BitVec.toNat_setWidth_of_le hb.le]
  push_cast
  rw [hmod]
  omega

variable (sym) in
/-- Otherwise it divides by the sign-extended immediate, which is larger than every dividend. -/
theorem divides_loaded (hwf : number.Wf) (hfit : FitsI32 number) (hb : number.bitWidth < w)
    (hword : number.bitWidth ≠ 32) (hneg : number.asI64 < 0) (hmin : number.asI64 ≠ -2 ^ 31)
    (x : BitVec number.bitWidth) :
    Divides sym I .udiv number x 0 ∧ Divides sym I .urem number x x := by
  have hbounds := asI32_bounds number.asI64
  rw [asI32_asI64 hwf hfit] at hbounds
  have hlo : 2 ^ 31 < asU32 number.asI64 := by unfold asU32; omega
  have hhi : asU32 number.asI64 < 2 ^ 32 := by unfold asU32; omega
  have hpow := not_isPowerOfTwo hlo hhi
  have hplain : ∀ op, binaryOpHas32BitMachineResult op number.bitWidth = false := by
    intro op
    simp [binaryOpHas32BitMachineResult, hword]
  have hlarge : (x.setWidth w).toNat < (BitVec.ofInt w number.asI64).toNat :=
    toNat_lt_negative hwf hb hneg x
  have hne : BitVec.ofInt w number.asI64 ≠ 0 := by
    intro hzero
    rw [hzero] at hlarge
    exact Nat.not_lt_zero _ hlarge
  refine ⟨fun raw rs1 e ρ hrs1 hready => ?_, fun raw rs1 e ρ hrs1 hready => ?_⟩
  · have hcode : emitUdivConst (.virtual raw) rs1 (asU32 number.asI64) number.bitWidth e = none := by
      rw [emitUdivConst, if_neg (by omega), if_neg (by omega), hpow]
      rfl
    refine ⟨emitExpanded .udiv (binaryOpHas32BitMachineResult .udiv number.bitWidth) (.virtual raw)
      rs1 number.asI64 none e, by simp only [emitBinaryConst, hcode],
      emitExpanded_loaded hrs1 fun g hleft hright => ?_⟩
    rw [hplain]
    refine ⟨_, LawfulArith.alu_divu .., ?_⟩
    rw [hleft, hright, hready.extended rfl (hplain _), divUnsigned, if_neg hne]
    have hzero : (x.setWidth w) / BitVec.ofInt w number.asI64 = 0 := by
      apply BitVec.eq_of_toNat_eq
      rw [BitVec.toNat_udiv, Nat.div_eq_of_lt hlarge]
      rfl
    exact (congrArg _ hzero).trans (by simp)
  · have hcode : emitUremConst (.virtual raw) rs1 (asU32 number.asI64) e = none := by
      rw [emitUremConst, if_neg (by omega), if_neg (by omega), hpow]
      rfl
    refine ⟨emitExpanded .urem (binaryOpHas32BitMachineResult .urem number.bitWidth) (.virtual raw)
      rs1 number.asI64 none e, by simp only [emitBinaryConst, hcode],
      emitExpanded_loaded hrs1 fun g hleft hright => ?_⟩
    rw [hplain]
    refine ⟨_, LawfulArith.alu_remu .., ?_⟩
    rw [hleft, hright, hready.extended rfl (hplain _), remUnsigned, if_neg hne]
    have hsame : (x.setWidth w) % BitVec.ofInt w number.asI64 = x.setWidth w := by
      apply BitVec.eq_of_toNat_eq
      rw [BitVec.toNat_umod, Nat.mod_eq_of_lt hlarge]
    exact (congrArg _ hsame).trans (setWidth_extend false x hb.le)

/-- A divisor that is left out is told apart by some dividend. -/
theorem exists_wrong_dividend (sym : SymbolId → BitVec w) (hwf : number.Wf) (hfit : FitsI32 number)
    (hb : number.bitWidth ≤ w) (hop : op = .udiv ∨ op = .urem)
    (hnot : ¬UnsignedDivisorFits w number) :
    ∃ x z z' : BitVec number.bitWidth,
      intArith op x (BitVec.ofNat number.bitWidth number.value) = some z ∧ z ≠ z' ∧
      Divides sym I op number x z' := by
  obtain ⟨hword, hhigh, hasI64, hfull⟩ := not_unsignedDivisorFits hwf hnot
  have hpos : 0 < 2 ^ (number.bitWidth - 1) := Nat.two_pow_pos _
  have hlt := hwf.value_lt
  have htwo := hwf.two_pow
  have hvalue := toNat_ofNat_value hwf
  have hbit : (1 : Nat) < 2 ^ number.bitWidth := Nat.one_lt_two_pow (Nat.pos_iff_ne_zero.mp hwf.width_pos)
  have hne : BitVec.ofNat number.bitWidth number.value ≠ 0 := by
    intro hzero
    rw [hzero] at hvalue
    have hnz : number.value = 0 := hvalue.symm
    omega
  -- the divisor cut to `-2 ^ 31` is taken for a shift by 31
  by_cases hmin : number.asI64 = -2 ^ 31
  · have hsum : number.value + 2 ^ 31 = 2 ^ number.bitWidth := by
      have hcast : (number.value : Int) + 2 ^ 31 = 2 ^ number.bitWidth := by linarith
      exact_mod_cast hcast
    have h33 : 33 ≤ number.bitWidth := by
      have hle : 2 ^ 31 ≤ 2 ^ (number.bitWidth - 1) := by omega
      have hexp := (Nat.pow_le_pow_iff_right (by decide)).mp hle
      omega
    have hlarge : 2 ^ 32 < 2 ^ number.bitWidth := Nat.pow_lt_pow_right (by decide) h33
    obtain ⟨hdiv, hrem⟩ := divides_min (I := I) sym hb (by omega) hmin
      (BitVec.ofNat number.bitWidth (2 ^ 31))
    have hdividend : (BitVec.ofNat number.bitWidth (2 ^ 31)).toNat = 2 ^ 31 := by
      rw [BitVec.toNat_ofNat, Nat.mod_eq_of_lt (by omega)]
    rcases hop with rfl | rfl
    · refine ⟨_, _, _, if_neg hne, ?_, hdiv⟩
      rw [Ne, ← BitVec.toNat_inj, BitVec.toNat_udiv, BitVec.toNat_udiv, hdividend, hvalue,
        Nat.div_self (by decide), Nat.div_eq_of_lt (by omega)]
      decide
    · refine ⟨_, _, _, if_neg hne, ?_, hrem⟩
      rw [Ne, ← BitVec.toNat_inj, BitVec.toNat_umod, BitVec.toNat_umod, hdividend, hvalue,
        Nat.mod_self, Nat.mod_eq_of_lt (by omega)]
      decide
  · have hless : number.bitWidth < w := lt_of_le_of_ne hb fun heq => hmin (hfull heq)
    have hneg : number.asI64 < 0 := by
      have hcast : (number.value : Int) < 2 ^ number.bitWidth := by exact_mod_cast hlt
      linarith
    obtain ⟨hdiv, hrem⟩ := divides_loaded (I := I) sym hwf hfit hless hword hneg hmin
      (BitVec.ofNat number.bitWidth number.value)
    rcases hop with rfl | rfl
    · refine ⟨_, _, _, if_neg hne, ?_, hdiv⟩
      rw [Ne, ← BitVec.toNat_inj, BitVec.toNat_udiv, hvalue, Nat.div_self (by omega)]
      simp
    · refine ⟨_, _, _, if_neg hne, ?_, hrem⟩
      rw [Ne, ← BitVec.toNat_inj, BitVec.toNat_umod, hvalue, Nat.mod_self]
      omega

end Code

omit [ArithTarget R I] [LawfulMachine R w I] [LawfulArith R w I] in
/-- A register file in which one register holds `x`. -/
theorem exists_regs (r : VRegId) (x : BitVec w) : ∃ ρ : Regs R I w, ρ.get (.virtual r) = x :=
  ⟨RegFile.set ⟨fun _ => 0, rfl⟩ (.virtual r) x, RegFile.get_set_virtual _ _ _⟩

/-- The code of an unsigned division by a constant that fits is right for every dividend exactly if the
immediate stands for the divisor. -/
theorem unsigned_selects_iff (symbols : HashMap String SymbolId) (sym : SymbolId → BitVec w)
    (hm : WellTyped m) {op : BinaryOpcode}
    {lhs rhs : ValueId} {number : CoreInt} {r : VRegId} (hop : op = .udiv ∨ op = .urem)
    (hinst : m.valueTy (.inst inst) = some (.int b)) (hlhsTy : m.valueTy lhs = some (.int b))
    (hrhsTy : m.valueTy rhs = some (.int b)) (hb : b ≤ w)
    (hlhs : constInt m lhs = some none) (hconst : constInt m rhs = some (some number))
    (hreg : ∀ ρ : Regs R I w, operandValue m symbols S sym ρ lhs = some (ρ.get (.virtual r)))
    (hfits : ConstFits m rhs) (hS : S.Below e.vregCounter) :
    (∀ ρ z, Evaluates m symbols S sym ρ inst (.binary op lhs rhs) b z →
        Selects m symbols S sym e ρ inst (.binary op lhs rhs) z) ↔ UnsignedDivisorFits w number := by
  obtain ⟨c, d, rfl, hd, hk⟩ := constInt_eq_some hconst
  obtain ⟨hty, hwf⟩ := hm.consts c d number hd hk
  obtain rfl : number.bitWidth = b := by
    simpa [ModuleCore.valueTy, hd, hty] using hrhsTy
  have hfit : FitsI32 number := hfits c d number rfl hd hk
  have hlhsFits : ConstFits m lhs := by
    intro c' d' number' hc hd' hk'
    simp [hc, constInt, hd', hk'] at hlhs
  constructor
  · intro hall
    by_contra hnot
    obtain ⟨x, z, z', hz, hne, hdivides⟩ :=
      exists_wrong_dividend (I := I) sym hwf hfit hb hop hnot
    obtain ⟨ρ, hρ⟩ := exists_regs (I := I) r (x.setWidth w)
    have hx : StandsFor m symbols S sym ρ lhs x := by
      refine ⟨hb, ?_⟩
      rw [hlhs]
      exact ⟨_, hreg ρ, by rw [hρ]; exact setWidth_extend false x hb⟩
    have hy : StandsFor m symbols S sym ρ (.const c)
        (BitVec.ofNat number.bitWidth number.value) := by
      refine ⟨hb, ?_⟩
      rw [hconst]
      exact ⟨rfl, rfl⟩
    have heval : intBinary op x (BitVec.ofNat number.bitWidth number.value) = some z := by
      have hshift : op.isShift = false := by rcases hop with rfl | rfl <;> rfl
      rw [intBinary, hshift, if_neg Bool.false_ne_true, if_pos rfl, BitVec.setWidth_eq]
      exact hz
    have hright := hall ρ z (.binary hinst hlhsTy hrhsTy hx hy heval)
    have hwrong : Computes sym e ρ inst z' (lowerBinary m symbols S inst op lhs (.const c) e) :=
      lowerBinary_of_const hm hinst hlhsTy hx hlhsFits hconst hS fun raw rs1 e₁ ρ₁ hold hready => by
        rw [asI32_asI64 hwf hfit]
        exact hdivides raw rs1 e₁ ρ₁ hold hready
    exact hne (hright.unique (selects_of_computes hwrong rfl))
  · intro hdiv ρ z heval
    refine selects_of_selectable hm heval ⟨hlhsFits, hfits, ?_, ?_⟩ (by simp) hS
    · intro _ number' hconst'
      rw [hconst] at hconst'
      cases hconst'
      exact hdiv
    · intro _ _ hshift
      rcases hop with rfl | rfl <;> cases hshift

/-! ## The whole contract -/

/-- What the code of integer instructions computes. A materialised instruction that meets the condition
leaves its result in the low bits of its register; a comparison that is fused into a branch decides it;
an unsigned division by a constant that fits is right exactly if the immediate stands for the divisor;
and a shift is right exactly if its amount is one that is read right. -/
theorem instruction_selection (hm : WellTyped m) (symbols : HashMap String SymbolId)
    (sym : SymbolId → BitVec w) :
    (∀ (S : FunctionLoweringState) (e : Emitter I) (ρ : Regs R I w) (inst : InstRef)
        (kind : InstKind) (b : Nat) (z : BitVec b),
      S.Below e.vregCounter → Evaluates m symbols S sym ρ inst kind b z → Selectable w m kind →
      (∀ icmpCode lhs rhs, kind = .icmp icmpCode lhs rhs →
        icmpIsOnlyBranchCond m inst = some false) →
      Selects m symbols S sym e ρ inst kind z) ∧
    (∀ (S : FunctionLoweringState) (e : Emitter I) (ρ : Regs R I w) (cond : ValueId)
        (label : BlockId) (icmpCode : ICmpCode) (lhs rhs : ValueId) (b : Nat) (x y : BitVec b),
      S.Below e.vregCounter → branchCondIcmp m cond = some (some (icmpCode, lhs, rhs)) →
      ComparedAt m w b lhs → ComparedAt m w b rhs → ¬ReliesOnExtension w icmpCode b →
      StandsFor m symbols S sym ρ lhs x → StandsFor m symbols S sym ρ rhs y →
      Selectable w m (.icmp icmpCode lhs rhs) →
      ∃ e' i ρ', lowerTest m symbols S cond label e = some (e'.push i) ∧ Emits sym [] e e' ρ ρ' ∧
        MachineSemantics.branch i ρ'.get =
          some (if intICmp icmpCode x y then some label else none)) ∧
    (∀ (S : FunctionLoweringState) (e : Emitter I) (inst : InstRef) (op : BinaryOpcode)
        (lhs rhs : ValueId) (number : CoreInt) (r : VRegId) (b : Nat),
      S.Below e.vregCounter → (op = .udiv ∨ op = .urem) → b ≤ w →
      m.valueTy (.inst inst) = some (.int b) → m.valueTy lhs = some (.int b) →
      m.valueTy rhs = some (.int b) → constInt m lhs = some none →
      (∀ ρ : Regs R I w, operandValue m symbols S sym ρ lhs = some (ρ.get (.virtual r))) →
      constInt m rhs = some (some number) → FitsI32 number →
      ((∀ (ρ : Regs R I w) (z : BitVec b),
          Evaluates m symbols S sym ρ inst (.binary op lhs rhs) b z →
          Selects m symbols S sym e ρ inst (.binary op lhs rhs) z) ↔
        UnsignedDivisorFits w number)) ∧
    (∀ (S : FunctionLoweringState) (e : Emitter I) (inst : InstRef) (op : BinaryOpcode)
        (lhs rhs : ValueId) (r : VRegId) (b c : Nat),
      S.Below e.vregCounter → op.isShift = true → b ≤ w → c ≤ w →
      m.valueTy (.inst inst) = some (.int b) → m.valueTy lhs = some (.int b) →
      m.valueTy rhs = some (.int c) → constInt m lhs = some none →
      (∀ ρ : Regs R I w, operandValue m symbols S sym ρ lhs = some (ρ.get (.virtual r))) →
      AmountOperand I m symbols S sym r rhs →
      ((∀ (ρ : Regs R I w) (z : BitVec b),
          Evaluates m symbols S sym ρ inst (.binary op lhs rhs) b z →
          Selects m symbols S sym e ρ inst (.binary op lhs rhs) z) ↔
        AmountFits w m op b rhs)) := by
  refine ⟨?_, ?_, ?_, ?_⟩
  · intro S e ρ inst kind b z hS heval hsel hused
    exact selects_of_selectable hm heval hsel hused hS
  · intro S e ρ cond label icmpCode lhs rhs b x y hS hcond hlhsTy hrhsTy hrely hlhs hrhs hsel
    exact lowerTest_fused hm label hcond hlhsTy hrhsTy hlhs hrhs hsel.1 hsel.2 hrely hS
  · intro S e inst op lhs rhs number r b hS hop hb hinst hlhsTy hrhsTy hlhs hreg hconst hfit
    refine unsigned_selects_iff symbols sym hm hop hinst hlhsTy hrhsTy hb hlhs hconst hreg ?_ hS
    intro c d number' hrhs hd hk
    simp only [hrhs, constInt, hd, hk, Option.bind_eq_bind, Option.bind_some, Option.some.injEq] at hconst
    exact hconst ▸ hfit
  · intro S e inst op lhs rhs r b c hS hop hb hc hinst hlhsTy hrhsTy hlhs hreg hrhs
    exact shift_selects_iff symbols sym hm hop hinst hlhsTy hrhsTy hb hc hlhs hreg hrhs hS

/-! ## A divisor of eight bits and an amount of two -/

namespace DivConst

/-- `x / n` on integers of eight bits, and `x >> y` for an amount of two bits. -/
def quotient (n : Nat) : ModuleCore where
  functions := SlotMap.empty.insert
    { name := "quotient", ty := ⟨.int 8, [.int 8, .int 2]⟩
      args := (SlotMap.empty.insert ⟨none, .int 8, 1, []⟩).insert ⟨none, .int 2, 2, []⟩
      blocks := SlotMap.empty.insert ⟨none, [], [1, 2], some 3, 1, []⟩
      insts := ((SlotMap.empty.insert
        ⟨some ⟨1, 1⟩, .int 8, .binary .udiv (.arg ⟨1, 1⟩) (.const 1), [], none⟩).insert
        ⟨some ⟨1, 1⟩, .int 8, .binary .ashr (.arg ⟨1, 1⟩) (.arg ⟨1, 2⟩), [], none⟩).insert
        ⟨some ⟨1, 1⟩, .void, .ret (some (.inst ⟨1, 1⟩)), [], none⟩
      blockOrder := [1], entry := 1, isDeclare := false }
  globals := .empty
  consts := SlotMap.empty.insert ⟨.int 8, .int ⟨n, 8⟩, []⟩
  functionGlobals := ∅

/-- The instructions of the example. -/
theorem inst_cases {n : Nat} {i : InstRef} {d : Ir.InstData} (h : (quotient n).inst i = some d) :
    (d.ty = .int 8 ∨ d.ty = .void) ∧ ¬d.kind.isPhi := by
  obtain ⟨fd, hfd, hd⟩ := Option.bind_eq_some_iff.mp h
  simp only [ModuleCore.func, quotient, SlotMap.get?_insert, SlotMap.get?_empty] at hfd
  split at hfd
  · cases hfd
    simp only [SlotMap.get?_insert, SlotMap.get?_empty] at hd
    repeat' split at hd
    all_goals first
      | (cases hd; exact ⟨by simp, by simp [InstKind.isPhi]⟩)
      | cases hd
  · cases hfd

/-- The example is well typed. -/
theorem wellTyped {n : Nat} (hn : n < 2 ^ 8) : WellTyped (quotient n) where
  intTypes := by
    intro v bits h
    cases v with
    | inst i =>
      obtain ⟨d, hd, hty⟩ := Option.map_eq_some_iff.mp h
      rcases (inst_cases hd).1 with hint | hvoid
      · rw [hint] at hty
        cases hty
        decide
      · rw [hvoid] at hty
        cases hty
    | arg a =>
      obtain ⟨d, hd, hty⟩ := Option.map_eq_some_iff.mp h
      obtain ⟨fd, hfd, hd⟩ := Option.bind_eq_some_iff.mp hd
      simp only [ModuleCore.func, quotient, SlotMap.get?_insert, SlotMap.get?_empty] at hfd
      split at hfd
      · cases hfd
        simp only [SlotMap.get?_insert, SlotMap.get?_empty] at hd
        repeat' split at hd
        all_goals first
          | (cases hd; cases hty; decide)
          | cases hd
      · cases hfd
    | global g => cases h
    | const c =>
      obtain ⟨d, hd, hty⟩ := Option.map_eq_some_iff.mp h
      simp only [ModuleCore.constData, quotient, SlotMap.get?_insert, SlotMap.get?_empty] at hd
      split at hd
      · cases hd
        cases hty
        decide
      · cases hd
  consts := by
    intro c d number hd hk
    simp only [ModuleCore.constData, quotient, SlotMap.get?_insert, SlotMap.get?_empty] at hd
    split at hd
    · cases hd
      cases hk
      exact ⟨rfl, Nat.one_le_of_lt (by decide : 1 < 8), (by decide : 8 ≤ 64), hn⟩
    · cases hd
  incomings := by
    intro phi d incomings idx hd hk
    have hphi := (inst_cases hd).2
    rw [hk] at hphi
    exact absurd rfl hphi

/-- The arguments are in the registers 0 and 1. -/
def state : FunctionLoweringState :=
  (FunctionLoweringState.new.recordVreg (.arg ⟨1, 1⟩) 0).recordVreg (.arg ⟨1, 2⟩) 1

/-- Its registers. -/
theorem state_below : state.Below 2 := by
  intro v r h
  simp only [state, FunctionLoweringState.vregForValue, FunctionLoweringState.recordVreg,
    HashMap.lookup_insert_ite, FunctionLoweringState.new] at h
  repeat' split at h
  all_goals first
    | (cases h; decide)
    | cases h

/-- The arguments are 200 and 3. -/
def regs : Regs RV64Reg RV64Inst 64 :=
  RegFile.set (RegFile.set ⟨fun _ => 0, rfl⟩ (.virtual 0) 200) (.virtual 1) 3

/-- Its value. -/
theorem evaluates (n : Nat) {z : BitVec 8}
    (hz : intBinary .udiv (200 : BitVec 8) (BitVec.ofNat 8 n) = some z) :
    Evaluates (I := RV64Inst) (quotient n) ∅ state (fun _ => 0) regs ⟨1, 1⟩
      (.binary .udiv (.arg ⟨1, 1⟩) (.const 1)) 8 z :=
  .binary rfl rfl rfl ⟨by decide, _, rfl, by decide⟩ ⟨by decide, rfl, rfl⟩ hz

theorem instruction_selection_quotient :
    Selects (I := RV64Inst) (quotient 7) ∅ state (fun _ => 0) ⟨[], 2⟩ regs ⟨1, 1⟩
      (.binary .udiv (.arg ⟨1, 1⟩) (.const 1)) (28 : BitVec 8) := by
  refine (instruction_selection (I := RV64Inst) (wellTyped (n := 7) (by decide)) ∅
    (fun _ => 0)).1 state ⟨[], 2⟩ regs ⟨1, 1⟩ _ 8 28 state_below (evaluates 7 (by decide)) ?_ (by simp)
  have hlhs : ConstFits (quotient 7) (.arg ⟨1, 1⟩) := fun c d number h => by cases h
  refine ⟨hlhs, ?_, ?_, ?_⟩
  · intro c d number hc hd hk
    cases hc
    cases hd
    cases hk
    exact Or.inl (by decide)
  · intro _ number hconst
    cases hconst
    exact Or.inr (Or.inr (Or.inl (by decide)))
  · intro b _ hshift
    cases hshift

/-- The result of the code for 200 divided by 200, as integers of eight bits. -/
theorem selects_quotient (hm : WellTyped (quotient 200)) :
    Selects (I := RV64Inst) (quotient 200) ∅ state (fun _ => 0) ⟨[], 2⟩ regs ⟨1, 1⟩
      (.binary .udiv (.arg ⟨1, 1⟩) (.const 1)) (0 : BitVec 8) := by
  have hwf : CoreInt.Wf ⟨200, 8⟩ := ⟨by decide, by decide, by decide⟩
  have hx : StandsFor (I := RV64Inst) (quotient 200) ∅ state (fun _ => 0) regs (.arg ⟨1, 1⟩)
      (200 : BitVec 8) := ⟨by decide, _, rfl, by decide⟩
  have hconst : constInt (quotient 200) (.const 1) = some (some ⟨200, 8⟩) := rfl
  have hwrong : Computes (I := RV64Inst) (fun _ => 0) ⟨[], 2⟩ regs ⟨1, 1⟩ (0 : BitVec 8)
      (lowerBinary (quotient 200) ∅ state ⟨1, 1⟩ .udiv (.arg ⟨1, 1⟩) (.const 1) ⟨[], 2⟩) :=
    lowerBinary_of_const hm rfl rfl hx (fun c d number h => by cases h) hconst state_below
      (divides_loaded _ hwf (Or.inl (by decide)) (by decide) (by decide) (by decide) (by decide) _).1
  exact selects_of_computes hwrong rfl

/-- The result of the code for 200 shifted to the right by 3 with its sign, the amount being an integer
of two bits: it shifts by 63. -/
theorem selects_shift (hm : WellTyped (quotient 200)) :
    Selects (I := RV64Inst) (quotient 200) ∅ state (fun _ => 0) ⟨[], 2⟩ regs ⟨1, 2⟩
      (.binary .ashr (.arg ⟨1, 1⟩) (.arg ⟨1, 2⟩)) (255 : BitVec 8) := by
  have hx : StandsFor (I := RV64Inst) (quotient 200) ∅ state (fun _ => 0) regs (.arg ⟨1, 1⟩)
      (200 : BitVec 8) := ⟨by decide, _, rfl, by decide⟩
  have hwrong : Computes (I := RV64Inst) (fun _ => 0) ⟨[], 2⟩ regs ⟨1, 2⟩ (255 : BitVec 8)
      (lowerBinary (quotient 200) ∅ state ⟨1, 2⟩ .ashr (.arg ⟨1, 1⟩) (.arg ⟨1, 2⟩) ⟨[], 2⟩) := by
    refine lowerBinary_of_reg (c := 2) (x := 200) (v := 3) hm rfl rfl rfl rfl hx
      (fun c d number h => by cases h) (fun number h => by cases h) rfl state_below ?_
    intro S e ρ inst rs1 operandBits hS hvalue hrs1 hready
    have hresult : (200 : BitVec 8).sshiftRight (((3 : BitVec 2).signExtend 64).toNat % 64) = 255 := by
      decide
    rw [← hresult]
    exact computes_sign_extended hm rfl (by decide) (by decide) (by decide) rfl (by decide) hS hvalue
      hrs1 hready
  exact selects_of_computes hwrong rfl

/-- For 200 divided by 200, as integers of eight bits, the code answers 0; and it shifts by 63 where
the amount is the integer 3 of two bits. -/
theorem quotient_wrong :
    WellTyped (quotient 200) ∧ state.Below 2 ∧
      Evaluates (I := RV64Inst) (quotient 200) ∅ state (fun _ => 0) regs ⟨1, 1⟩
        (.binary .udiv (.arg ⟨1, 1⟩) (.const 1)) 8 (1 : BitVec 8) ∧
      Selects (I := RV64Inst) (quotient 200) ∅ state (fun _ => 0) ⟨[], 2⟩ regs ⟨1, 1⟩
        (.binary .udiv (.arg ⟨1, 1⟩) (.const 1)) (0 : BitVec 8) ∧
      ¬Selects (I := RV64Inst) (quotient 200) ∅ state (fun _ => 0) ⟨[], 2⟩ regs ⟨1, 1⟩
        (.binary .udiv (.arg ⟨1, 1⟩) (.const 1)) (1 : BitVec 8) ∧
      Evaluates (I := RV64Inst) (quotient 200) ∅ state (fun _ => 0) regs ⟨1, 2⟩
        (.binary .ashr (.arg ⟨1, 1⟩) (.arg ⟨1, 2⟩)) 8 (249 : BitVec 8) ∧
      Selects (I := RV64Inst) (quotient 200) ∅ state (fun _ => 0) ⟨[], 2⟩ regs ⟨1, 2⟩
        (.binary .ashr (.arg ⟨1, 1⟩) (.arg ⟨1, 2⟩)) (255 : BitVec 8) ∧
      ¬Selects (I := RV64Inst) (quotient 200) ∅ state (fun _ => 0) ⟨[], 2⟩ regs ⟨1, 2⟩
        (.binary .ashr (.arg ⟨1, 1⟩) (.arg ⟨1, 2⟩)) (249 : BitVec 8) := by
  have hm : WellTyped (quotient 200) := wellTyped (by decide)
  have hdiv := selects_quotient hm
  have hshift := selects_shift hm
  have hamount : Evaluates (I := RV64Inst) (quotient 200) ∅ state (fun _ => 0) regs ⟨1, 2⟩
      (.binary .ashr (.arg ⟨1, 1⟩) (.arg ⟨1, 2⟩)) 8 (249 : BitVec 8) :=
    .binary (c := 2) (x := 200) (y := 3) rfl rfl rfl ⟨by decide, _, rfl, by decide⟩
      ⟨by decide, _, rfl, by decide⟩ (by decide)
  exact ⟨hm, state_below, evaluates 200 (by decide), hdiv,
    fun h => absurd (hdiv.unique h) (by decide), hamount, hshift,
    fun h => absurd (hshift.unique h) (by decide)⟩

end DivConst

end Mir
