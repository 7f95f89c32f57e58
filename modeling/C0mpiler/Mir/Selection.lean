import C0mpiler.Mir.CompareSound
import Mathlib

/-!
# Instruction selection

Selects and conversions, and the contract of the lowering of integer instructions as a whole: if
every operand is in the low bits of its register, then so is the result. Constants that are no `i32`
and unsigned divisors that an `i32` does not stand for are what the code gets wrong.
-/

namespace Mir

open Ir (ModuleCore ValueId InstRef InstKind BinaryOpcode ICmpCode CoreInt intBinary intICmp)
open LowBits

variable {R I : Type} {w : Nat} [DecidableEq R] [MachineSemantics R w I] [LawfulMachine R w I]
  {m : ModuleCore} {symbols : HashMap String SymbolId} {S : FunctionLoweringState}
  {sym : SymbolId → BitVec w} {e e' : Emitter I} {ρ ρ' : Regs R I w} {b c : Nat} {inst : InstRef}
  {operand : ValueId} {x y : BitVec b}

/-! ## Conversions -/

/-- A sign extension, cut down. -/
theorem setWidth_signExtend_of_le (x : BitVec b) {n : Nat} (h : b ≤ n) (hn : n ≤ w) :
    (x.signExtend w).setWidth n = x.signExtend n := by
  rw [setWidth_eq_ofInt _ hn, BitVec.toInt_signExtend_of_le (h.trans hn),
    ← BitVec.toInt_signExtend_of_le h, BitVec.ofInt_toInt]

variable (sym) (inst) in
/-- The last step of a conversion. -/
theorem finishConversion_computes {src : Register R} {z : BitVec b} (hS : S.Below e.vregCounter)
    (hz : (ρ.get src).setWidth b = z) :
    Computes sym e ρ inst z (some (finishConversion S inst src e)) := by
  obtain ⟨rd, S', e₁, hensure, hemits, -, hrd⟩ := ensureInstVreg_spec sym inst hS ρ
  have hcode : finishConversion S inst src e =
      (rd, S', if src ≠ .virtual rd then e₁.push (mv (.virtual rd) src) else e₁) := by
    simp only [finishConversion, hensure]
  refine ⟨rd, S', _, congrArg some hcode, hrd, ?_⟩
  split
  · exact .push (hemits.widen _) (LawfulMachine.alu_mv ..) hz
  · next heq =>
    rw [not_not] at heq
    exact ⟨ρ, hemits.widen _, heq ▸ hz⟩

omit [LawfulMachine R w I] in
/-- Code in front. -/
theorem Computes.after {e₀ : Emitter I} {ρ₀ : Regs R I w} {z : BitVec b} {code : Option (Lowered I)}
    (h : Emits sym [] e₀ e ρ₀ ρ) (hcode : Computes sym e ρ inst z code) :
    Computes sym e₀ ρ₀ inst z code := by
  obtain ⟨rd, S', e', hcode, hrd, hputs⟩ := hcode
  exact ⟨rd, S', e', hcode, hrd, .after h hputs⟩

/-- Truncation masks the operand. -/
theorem lowerTrunc_computes {x : BitVec c} (hm : WellTyped m)
    (hinst : m.valueTy (.inst inst) = some (.int b)) (hbc : b ≤ c)
    (hvalue : StandsFor m symbols S sym ρ operand x) (hfits : ConstFits m operand)
    (hS : S.Below e.vregCounter) :
    Computes sym e ρ inst (x.setWidth b) (lowerTrunc m symbols S inst operand e) := by
  have hc : c ≤ w := hvalue.1
  obtain ⟨src, e₁, ρ₁, hlower, hemits₁, hold, hlow⟩ :=
    lowerOperand_standsFor hvalue hm hfits hS (.refl e ρ)
  obtain ⟨ρ₂, hemits₂, -, hget⟩ := emitMaskedValue_yields sym (ρ := ρ₁) b hold
  have hemits := hemits₁.trans hemits₂
  have hz : (ρ₂.get (emitMaskedValue src b e₁).1).setWidth b = x.setWidth b := by
    rw [hget, BitVec.setWidth_setWidth_of_le _ (hbc.trans hc), BitVec.setWidth_eq, ← hlow,
      BitVec.setWidth_setWidth_of_le _ hbc]
  have hcomputes := finishConversion_computes sym inst
    (hS.mono hemits.counter_le) hz
  simp only [lowerTrunc, hinst, hlower, Option.bind_eq_bind, Option.bind_some]
  exact hcomputes.after hemits

/-- Zero extension masks it at its old width. -/
theorem lowerZext_computes {x : BitVec c} (hm : WellTyped m) (hty : m.valueTy operand = some (.int c))
    (hb : b ≤ w) (hvalue : StandsFor m symbols S sym ρ operand x) (hfits : ConstFits m operand)
    (hS : S.Below e.vregCounter) :
    Computes sym e ρ inst (x.setWidth b) (lowerZext m symbols S inst operand e) := by
  obtain ⟨src, e₁, ρ₁, hlower, hemits₁, hold, hlow⟩ :=
    lowerOperand_standsFor hvalue hm hfits hS (.refl e ρ)
  obtain ⟨ρ₂, hemits₂, -, hget⟩ := emitMaskedValue_yields sym (ρ := ρ₁) c hold
  have hemits := hemits₁.trans hemits₂
  have hz : (ρ₂.get (emitMaskedValue src c e₁).1).setWidth b = x.setWidth b := by
    rw [hget, hlow, BitVec.setWidth_setWidth_of_le _ hb]
  have hcomputes := finishConversion_computes sym inst
    (hS.mono hemits.counter_le) hz
  simp only [lowerZext, hty, hlower, Option.bind_eq_bind, Option.bind_some]
  exact hcomputes.after hemits

/-- Sign extension takes two shifts. -/
theorem lowerSext_computes {x : BitVec c} (hm : WellTyped m) (hty : m.valueTy operand = some (.int c))
    (hcb : c ≤ b) (hb : b ≤ w) (hvalue : StandsFor m symbols S sym ρ operand x)
    (hfits : ConstFits m operand) (hS : S.Below e.vregCounter) :
    Computes sym e ρ inst (x.signExtend b) (lowerSext m symbols S inst operand e) := by
  have hw : regBits I = w := regBits_eq
  have hpos : 0 < c := hm.intTypes operand c hty
  obtain ⟨src, e₁, ρ₁, hlower, hemits₁, hold, hlow⟩ :=
    lowerOperand_standsFor hvalue hm hfits hS (.refl e ρ)
  obtain ⟨rd, S', e₂, hensure, hemits₂, -, hrd⟩ :=
    ensureInstVreg_spec sym inst (hS.mono hemits₁.counter_le) ρ₁
  have hemits : Emits sym [.virtual rd] e e₂ ρ ρ₁ := (hemits₁.trans hemits₂).widen _
  have hrdMem : (.virtual rd : Register R) ∈ [.virtual rd] := List.mem_singleton.mpr rfl
  simp only [lowerSext, hlower, hensure, hty, hw, Option.bind_eq_bind, Option.bind_some]
  split
  · next hge =>
    obtain rfl : b = w := Nat.le_antisymm hb (hge.trans hcb)
    obtain rfl : c = b := Nat.le_antisymm hcb hge
    refine ⟨rd, S', _, rfl, hrd, .push hemits (LawfulMachine.alu_mv ..) ?_⟩
    rw [hlow, BitVec.signExtend_eq]
  · have hshift : w - c < w := by omega
    have hleft := hemits.push (Or.inl hrdMem)
      (LawfulMachine.alu_slli (I := I) (.virtual rd) src hshift _ sym)
    refine ⟨rd, S', _, rfl, hrd, .push hleft (LawfulMachine.alu_srai _ _ hshift _ _) ?_⟩
    rw [RegFile.get_set_virtual, shiftLeft_sshiftRight _ hpos (hcb.trans hb), hlow,
      setWidth_signExtend_of_le x hcb hb]

/-! ## Selects -/

/-- The condition `v` of a select: an integer constant of one bit, or a register that is 0 or 1. -/
def CondIs (m : ModuleCore) (symbols : HashMap String SymbolId) (S : FunctionLoweringState)
    (sym : SymbolId → BitVec w) (ρ : Regs R I w) (v : ValueId) (k : Bool) : Prop :=
  match constInt m v with
  | some (some number) => number.bitWidth = 1 ∧ number.value = k.toNat
  | _ => operandValue m symbols S sym ρ v = some (boolToReg k)

omit [DecidableEq R] [LawfulMachine R w I] in
/-- The register of a condition is its bit. -/
theorem CondIs.value {v : ValueId} {k : Bool} (h : CondIs m symbols S sym ρ v k) :
    operandValue m symbols S sym ρ v = some (boolToReg k) := by
  unfold CondIs at h
  split at h
  · next number hconst =>
    obtain ⟨c, d, rfl, hd, hk⟩ := constInt_eq_some hconst
    obtain ⟨hone, hvalue⟩ := h
    have himm : number.asI64 = k.toNat := by rw [CoreInt.asI64, if_pos hone, hvalue]
    simp only [operandValue, hd, hk, CoreInt.asU64, hvalue, himm, Option.bind_eq_bind,
      Option.bind_some]
    cases k with
    | false => rfl
    | true =>
      have hone : asI32 ((true.toNat : Nat) : Int) = 1 := asI32_of_bounds (by decide)
      rw [hone]
      rfl
  · exact h

/-- The mask of the condition, and its complement. -/
theorem and_masks (k : Bool) (r r' : BitVec w) :
    r &&& (0 - boolToReg k) ||| r' &&& ((0 - boolToReg k) ^^^ BitVec.ofInt w (-1)) =
      if k then r else r' := by
  have hones : BitVec.ofInt w (-1) = BitVec.allOnes w := by
    rw [BitVec.ofInt_neg]
    exact BitVec.neg_one_eq_allOnes
  cases k with
  | false => simp [boolToReg, hones]
  | true =>
    have hmask : (0 : BitVec w) - 1 = BitVec.allOnes w := by
      rw [← hones, BitVec.ofInt_neg]
      exact BitVec.zero_sub _
    show r &&& (0 - 1) ||| r' &&& ((0 - 1) ^^^ BitVec.ofInt w (-1)) = r
    rw [hmask, hones]
    simp

/-- Minus one fits an immediate. -/
theorem fitsImm12_neg_one : FitsImm12 (-1) := by
  decide

variable [ArithTarget R I] [LawfulArith R w I]

/-- A select without a branch: `cond - 1` masks one value, and its complement the other. -/
theorem lowerSelect_computes (hm : WellTyped m) {cond thenVal elseVal : ValueId} {k : Bool}
    (hcond : CondIs m symbols S sym ρ cond k) (hthen : StandsFor m symbols S sym ρ thenVal x)
    (helse : StandsFor m symbols S sym ρ elseVal y) (hthenFits : ConstFits m thenVal)
    (helseFits : ConstFits m elseVal) (hS : S.Below e.vregCounter) :
    Computes sym e ρ inst (if k then x else y)
      (lowerSelect m symbols S inst cond thenVal elseVal e) := by
  obtain ⟨rc, e₁, ρ₁, hlowerC, hemits₁, hold₁, hgetC⟩ := lowerOperand_value hcond.value hS
  obtain ⟨rt, e₂, ρ₂, hlowerT, hemits₂, hold₂, hlowT⟩ :=
    lowerOperand_standsFor hthen hm hthenFits hS hemits₁
  obtain ⟨rf, e₃, ρ₃, hlowerF, hemits₃, hold₃, hlowF⟩ :=
    lowerOperand_standsFor helse hm helseFits hS (hemits₁.trans hemits₂)
  have hemits : Emits sym [] e e₃ ρ ρ₃ := (hemits₁.trans hemits₂).trans hemits₃
  have hgetC₃ : ρ₃.get rc = boolToReg k := by
    rw [hemits₃.get_oldReg (hold₁.mono hemits₂.counter_le), hemits₂.get_oldReg hold₁, hgetC]
  have hlowT₃ : (ρ₃.get rt).setWidth b = x := by rw [hemits₃.get_oldReg hold₂, hlowT]
  have holdT : OldReg e₃.vregCounter rt := hold₂.mono hemits₃.counter_le
  -- the four new registers, one after the other
  have hrefl : Emits sym [] e₃ e₃ ρ₃ ρ₃ := .refl e₃ ρ₃
  have hmask1 := hrefl.newVreg.newVreg.push (Or.inr ⟨_, le_rfl, Nat.lt_add_of_pos_right two_pos, rfl⟩)
    (LawfulArith.alu_sub (I := I) (.virtual e₃.vregCounter) (zeroOperand I) rc _ sym)
  have hmask2 := hmask1.push (Or.inr ⟨_, Nat.le_succ _, Nat.lt_succ_self _, rfl⟩)
    (LawfulArith.alu_xori (I := I) (.virtual (e₃.vregCounter + 1)) (.virtual e₃.vregCounter)
      fitsImm12_neg_one _ sym)
  have hthenPart := hmask2.newVreg.newVreg.push
    (Or.inr ⟨_, Nat.le_add_right _ 2, Nat.lt_add_of_pos_right two_pos, rfl⟩)
    (LawfulMachine.alu_and (I := I) (.virtual (e₃.vregCounter + 2)) rt (.virtual e₃.vregCounter) _ sym)
  have helsePart := hthenPart.push
    (Or.inr ⟨_, Nat.le_add_right _ 3, Nat.lt_succ_self _, rfl⟩)
    (LawfulMachine.alu_and (I := I) (.virtual (e₃.vregCounter + 3)) rf
      (.virtual (e₃.vregCounter + 1)) _ sym)
  -- the four new registers at the end of the code
  obtain ⟨ρ₄, hemits₄, hget⟩ : ∃ ρ₄, Emits sym [] e₃ _ ρ₃ ρ₄ ∧
      ρ₄.get (.virtual (e₃.vregCounter + 2)) ||| ρ₄.get (.virtual (e₃.vregCounter + 3)) =
        if k then ρ₃.get rt else ρ₃.get rf := by
    refine ⟨_, helsePart, ?_⟩
    have hT : ∀ i, rt ≠ .virtual (e₃.vregCounter + i) := fun i => holdT _ (Nat.le_add_right _ i)
    have hF : ∀ i, rf ≠ .virtual (e₃.vregCounter + i) := fun i => hold₃ _ (Nat.le_add_right _ i)
    have hT₀ : rt ≠ .virtual e₃.vregCounter := hT 0
    have hF₀ : rf ≠ .virtual e₃.vregCounter := hF 0
    rw [← and_masks]
    simp [RegFile.get_set_ne, RegFile.get_set_virtual, hT, hF, hT₀, hF₀, hgetC₃, ρ₃.get_zero]
  obtain ⟨rd, S', e₅, hensure, hemits₅, -, hrd⟩ :=
    ensureInstVreg_spec sym inst (hS.mono (hemits.trans hemits₄).counter_le) ρ₄
  refine ⟨rd, S', _, ?_, hrd, .push (((hemits.trans hemits₄).trans hemits₅).widen _)
    (LawfulArith.alu_or (I := I) (.virtual rd) (.virtual (e₃.vregCounter + 2))
      (.virtual (e₃.vregCounter + 3)) _ sym) ?_⟩
  · simp only [lowerSelect, hlowerC, hlowerT, hlowerF, Option.bind_eq_bind, Option.bind_some]
    exact congrArg (fun p : Lowered I => some (p.1, p.2.1, p.2.2.push (emitOr (.virtual p.1)
      (.virtual (e₃.vregCounter + 2)) (.virtual (e₃.vregCounter + 3))))) hensure
  · rw [hget]
    split
    · exact hlowT₃
    · exact hlowF

/-! ## Integer instructions -/

variable (m symbols S) in
/-- `lower_instruction` for the instructions on integers; a comparison that only branches use has no
register. -/
def lowerIntInst (inst : InstRef) (kind : InstKind) (e : Emitter I) :
    Option (Option VRegId × FunctionLoweringState × Emitter I) :=
  let lowered : Lowered I → Option VRegId × FunctionLoweringState × Emitter I :=
    fun (rd, S, e) => (some rd, S, e)
  match kind with
  | .binary op lhs rhs => (lowerBinary m symbols S inst op lhs rhs e).map lowered
  | .icmp icmpCode lhs rhs => lowerIcmp m symbols S inst icmpCode lhs rhs e
  | .select cond thenVal elseVal => (lowerSelect m symbols S inst cond thenVal elseVal e).map lowered
  | .trunc operand => (lowerTrunc m symbols S inst operand e).map lowered
  | .zext operand => (lowerZext m symbols S inst operand e).map lowered
  | .sext operand => (lowerSext m symbols S inst operand e).map lowered
  | _ => none

/-- A well-typed integer instruction is defined when the registers are `ρ`, and its result is `z`;
that of a comparison is a word that is 0 or 1. Signed comparisons of 32 bits in registers of 64 are
left out: they rely on more than the low bits of their operands. -/
inductive Evaluates (m : ModuleCore) (symbols : HashMap String SymbolId) (S : FunctionLoweringState)
    (sym : SymbolId → BitVec w) (ρ : Regs R I w) (inst : InstRef) :
    InstKind → (b : Nat) → BitVec b → Prop where
  | binary {op : BinaryOpcode} {lhs rhs : ValueId} {b c : Nat} {x z : BitVec b} {y : BitVec c}
      (hinst : m.valueTy (.inst inst) = some (.int b)) (hlhsTy : m.valueTy lhs = some (.int b))
      (hrhsTy : m.valueTy rhs = some (.int c)) (hlhs : StandsFor m symbols S sym ρ lhs x)
      (hrhs : StandsFor m symbols S sym ρ rhs y) (hz : intBinary op x y = some z) :
      Evaluates m symbols S sym ρ inst (.binary op lhs rhs) b z
  | icmp {icmpCode : ICmpCode} {lhs rhs : ValueId} {b : Nat} {x y : BitVec b}
      (hrely : ¬ReliesOnExtension w icmpCode b) (hlhsTy : ComparedAt m w b lhs)
      (hrhsTy : ComparedAt m w b rhs) (hlhs : StandsFor m symbols S sym ρ lhs x)
      (hrhs : StandsFor m symbols S sym ρ rhs y) :
      Evaluates m symbols S sym ρ inst (.icmp icmpCode lhs rhs) w (boolToReg (intICmp icmpCode x y))
  | select {cond thenVal elseVal : ValueId} {k : Bool} {b : Nat} {x y : BitVec b}
      (hcond : CondIs m symbols S sym ρ cond k) (hthen : StandsFor m symbols S sym ρ thenVal x)
      (helse : StandsFor m symbols S sym ρ elseVal y) :
      Evaluates m symbols S sym ρ inst (.select cond thenVal elseVal) b (if k then x else y)
  | trunc {operand : ValueId} {b c : Nat} {x : BitVec c} (hinst : m.valueTy (.inst inst) = some (.int b))
      (hbc : b ≤ c) (hvalue : StandsFor m symbols S sym ρ operand x) :
      Evaluates m symbols S sym ρ inst (.trunc operand) b (x.setWidth b)
  | zext {operand : ValueId} {b c : Nat} {x : BitVec c} (hty : m.valueTy operand = some (.int c)) (hcb : c ≤ b)
      (hb : b ≤ w) (hvalue : StandsFor m symbols S sym ρ operand x) :
      Evaluates m symbols S sym ρ inst (.zext operand) b (x.setWidth b)
  | sext {operand : ValueId} {b c : Nat} {x : BitVec c} (hty : m.valueTy operand = some (.int c)) (hcb : c ≤ b)
      (hb : b ≤ w) (hvalue : StandsFor m symbols S sym ρ operand x) :
      Evaluates m symbols S sym ρ inst (.sext operand) b (x.signExtend b)

/-- The constants of the instruction fit into an `i32`, an unsigned divisor is one that the `i32`
stands for, and the amount of a shift is one that is read right. -/
def Selectable (w : Nat) (m : ModuleCore) : InstKind → Prop
  | .binary op lhs rhs => ConstFits m lhs ∧ ConstFits m rhs ∧ DivisorFits w m op rhs ∧
      ∀ b, m.valueTy lhs = some (.int b) → op.isShift = true → AmountFits w m op b rhs
  | .icmp _ lhs rhs => ConstFits m lhs ∧ ConstFits m rhs
  | .select _ thenVal elseVal => ConstFits m thenVal ∧ ConstFits m elseVal
  | .trunc operand | .zext operand | .sext operand => ConstFits m operand
  | _ => True

/-- The code of the instruction leaves its result in the register of the instruction. -/
def Selects (m : ModuleCore) (symbols : HashMap String SymbolId) (S : FunctionLoweringState)
    (sym : SymbolId → BitVec w) (e : Emitter I) (ρ : Regs R I w) (inst : InstRef) (kind : InstKind)
    (z : BitVec b) : Prop :=
  ∃ rd S' e', lowerIntInst m symbols S inst kind e = some (some rd, S', e') ∧
    S'.vregForValue (.inst inst) = some rd ∧ Puts sym e ρ rd z e'

omit [LawfulMachine R w I] [LawfulArith R w I] in
/-- What the lowering computes it selects. -/
theorem selects_of_computes {kind : InstKind} {z : BitVec b} {code : Option (Lowered I)}
    (h : Computes sym e ρ inst z code)
    (hkind : lowerIntInst m symbols S inst kind e = code.map fun (rd, S, e) => (some rd, S, e)) :
    Selects m symbols S sym e ρ inst kind z := by
  obtain ⟨rd, S', e', rfl, hrd, hputs⟩ := h
  exact ⟨rd, S', e', hkind, hrd, hputs⟩

/-- Whatever the registers hold, the code of an instruction that meets the condition leaves the result
of the instruction in the low bits of its register. -/
theorem selects_of_selectable (hm : WellTyped m) {kind : InstKind} {z : BitVec b}
    (heval : Evaluates m symbols S sym ρ inst kind b z) (hsel : Selectable w m kind)
    (hused : ∀ icmpCode lhs rhs, kind = .icmp icmpCode lhs rhs →
      icmpIsOnlyBranchCond m inst = some false)
    (hS : S.Below e.vregCounter) : Selects m symbols S sym e ρ inst kind z := by
  cases heval with
  | binary hinst hlhsTy hrhsTy hlhs hrhs hz =>
    obtain ⟨hlhsFits, hrhsFits, hdiv, hshift⟩ := hsel
    exact selects_of_computes (lowerBinary_computes hm hinst hlhsTy hrhsTy hlhs hrhs hz hS hlhsFits
      hrhsFits (hshift _ hlhsTy) hdiv) rfl
  | icmp hrely hlhsTy hrhsTy hlhs hrhs =>
    exact lowerIcmp_puts hm (hused _ _ _ rfl) hlhsTy hrhsTy hlhs hrhs hsel.1 hsel.2 hrely hS
  | select hcond hthen helse =>
    exact selects_of_computes (lowerSelect_computes hm hcond hthen helse hsel.1 hsel.2 hS) rfl
  | trunc hinst hbc hvalue =>
    exact selects_of_computes (lowerTrunc_computes hm hinst hbc hvalue hsel hS) rfl
  | zext hty _ hb hvalue =>
    exact selects_of_computes (lowerZext_computes hm hty hb hvalue hsel hS) rfl
  | sext hty hcb hb hvalue =>
    exact selects_of_computes (lowerSext_computes hm hty hcb hb hvalue hsel hS) rfl

omit [ArithTarget R I] [LawfulMachine R w I] [LawfulArith R w I] in
/-- A run of emitted code has one result. -/
theorem Puts.unique {rd : VRegId} {z z' : BitVec b} (h : Puts sym e ρ rd z e')
    (h' : Puts sym e ρ rd z' e') : z = z' := by
  obtain ⟨ρ₁, hemits, rfl⟩ := h
  obtain ⟨ρ₂, hemits', rfl⟩ := h'
  rw [hemits.unique hemits']

omit [LawfulMachine R w I] [LawfulArith R w I] in
/-- Code has one result. -/
theorem Selects.unique {kind : InstKind} {z z' : BitVec b} (h : Selects m symbols S sym e ρ inst kind z)
    (h' : Selects m symbols S sym e ρ inst kind z') : z = z' := by
  obtain ⟨rd, S', e', hcode, -, hputs⟩ := h
  obtain ⟨rd', S'', e'', hcode', -, hputs'⟩ := h'
  rw [hcode] at hcode'
  cases hcode'
  exact hputs.unique hputs'

end Mir
