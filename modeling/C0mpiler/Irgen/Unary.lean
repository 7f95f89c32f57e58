import C0mpiler.Irgen.Emit
import C0mpiler.Opt.FoldConst
import Mathlib

/-!
# Unary operators and casts

`visit_unary_expr` (`!` and `-`; `*` is in `Irgen.Deref`) and `visit_cast_expr` of the generator on
the scalar types, with `build_bitwise_not` and `build_neg` of the builder. A cast looks at the widths
only: it zero-extends, truncates or does nothing. `Right` has the operands on which the emitted code
computes what the language says.
-/

open Ir Semantics

namespace Ir.ModuleCore

/-- `add_int_const`. -/
def addIntConst (m : ModuleCore) (bits : Nat) (value : Int) : Option (ConstId × ModuleCore) := do
  let c ← CoreInt.fromSigned value bits
  some (m.addConst (.int bits) (.int c))

def buildZext (m : ModuleCore) (location : BuilderLocation) (value : ValueId) (toTy : Ty)
    (name : Option String) : Option (InstRef × ModuleCore) :=
  m.buildInst location toTy (.zext value) name

def buildTrunc (m : ModuleCore) (location : BuilderLocation) (value : ValueId) (toTy : Ty)
    (name : Option String) : Option (InstRef × ModuleCore) :=
  m.buildInst location toTy (.trunc value) name

def buildBinary (m : ModuleCore) (location : BuilderLocation) (op : BinaryOpcode) (ty : Ty)
    (lhs rhs : ValueId) (name : Option String) : Option (InstRef × ModuleCore) :=
  m.buildInst location ty (.binary op lhs rhs) name

/-- The mask of `build_bitwise_not`, an `i64`. -/
def notMask (bits : Nat) : Int := if 63 ≤ bits then 2 ^ 63 - 1 else 2 ^ bits - 1

def buildBitwiseNot (m : ModuleCore) (location : BuilderLocation) (operand : ValueId) :
    Option (InstRef × ModuleCore) := do
  let ty ← m.valueTy operand
  let bits ← ty.asInt
  let (mask, m) ← m.addIntConst bits (notMask bits)
  m.buildBinary location .xor ty operand (.const mask) none

def buildNeg (m : ModuleCore) (location : BuilderLocation) (operand : ValueId) :
    Option (InstRef × ModuleCore) := do
  let ty ← m.valueTy operand
  let bits ← ty.asInt
  let (minuend, m) ← m.addIntConst bits 0
  m.buildBinary location .sub ty (.const minuend) operand none

end Ir.ModuleCore

namespace Irgen

/-- `!`, `-` and `as`. -/
inductive ScalarOp where
  | not
  | neg
  | cast (toTy : BuiltInTyKind)
  deriving DecidableEq

/-- `transform_interned_ty_faithfully` on the scalar types, as a width. -/
def scalarBits (t : TargetDataLayout) : BuiltInTyKind → Nat
  | .bool => 1
  | .char => 8
  | .i32 | .u32 => 32
  | .isize | .usize => t.pointerSize * 8
  | .str => 0

namespace IRGenerator

def visitNotExpr (g : IRGenerator) (exprValue : CoreValueContainer) :
    Option (CoreValueContainer × IRGenerator) := do
  let (raw, g) ← g.getRawValue exprValue
  let (r, m) ← g.module.buildBitwiseNot g.builder raw
  some (⟨.inst r, .raw none⟩, { g with module := m })

def visitNegExpr (g : IRGenerator) (exprValue : CoreValueContainer) :
    Option (CoreValueContainer × IRGenerator) := do
  let (raw, g) ← g.getRawValue exprValue
  let (r, m) ← g.module.buildNeg g.builder raw
  some (⟨.inst r, .raw none⟩, { g with module := m })

/-- The conversion of `visit_cast_expr`. -/
def buildCast (g : IRGenerator) (raw : ValueId) (ty : Ty) : Option (ValueId × IRGenerator) := do
  let srcBits ← (← g.module.valueTy raw).asInt
  let targetBits ← ty.asInt
  if srcBits < targetBits then do
    let (r, m) ← g.module.buildZext g.builder raw ty none
    some (.inst r, { g with module := m })
  else if srcBits = targetBits then some (raw, g)
  else do
    let (r, m) ← g.module.buildTrunc g.builder raw ty none
    some (.inst r, { g with module := m })

def visitCastExpr (g : IRGenerator) (exprValue : CoreValueContainer) (ty : Ty) :
    Option (CoreValueContainer × IRGenerator) := do
  let (raw, g) ← g.getRawValue exprValue
  let (value, g) ← g.buildCast raw ty
  some (⟨value, .raw none⟩, g)

/-- `visit_unary_expr` and `visit_cast_expr` after their operand. -/
def visitScalarOp (g : IRGenerator) (exprValue : CoreValueContainer) :
    ScalarOp → Option (CoreValueContainer × IRGenerator)
  | .not => g.visitNotExpr exprValue
  | .neg => g.visitNegExpr exprValue
  | .cast toTy => g.visitCastExpr exprValue (.int (scalarBits g.target toTy))

/-! ## What is emitted -/

/-- The operand holds a scalar of the given width. -/
def HasBits (g : IRGenerator) (c : CoreValueContainer) (bits : Nat) : Prop :=
  match c.kind with
  | .raw _ => g.code.valueTy c.value = some (.int bits)
  | .ptr ty => ty.ty = .int bits ∧ g.module.Defined c.value

/-- The value of the operand in a state: that of a slot is in memory. -/
def Holds (g : IRGenerator) (E : Env) (s : State) (c : CoreValueContainer) (v : Val) : Prop :=
  match c.kind with
  | .raw _ => g.code.evalOperand E s.regs c.value = some v
  | .ptr ty => ∃ p, g.code.evalOperand E s.regs c.value = some p ∧
      s.mem.load E.target ty.ty p = v

/-- Running the instructions `rs` gives the operand `w` the value `f v` when `c` held `v` before. -/
def Computes (g : IRGenerator) (C : Code) (rs : List InstRef) (c : CoreValueContainer) (w : ValueId)
    (f : Val → Val) : Prop :=
  ∀ E s v, g.Holds E s c v → ∃ s', C.Run E s rs [] s' ∧ s'.mem = s.mem ∧
    C.evalOperand E s'.regs w = some (f v)

variable {g g' : IRGenerator} {rs : List InstRef} {c : CoreValueContainer} {bits : Nat}

theorem getRawValue_computes (hg : g.Ready) (hc : g.HasBits c bits) :
    ∃ raw g' rs, g.getRawValue c = some (raw, g') ∧ g.Emits g' [] rs ∧
      g'.code.valueTy raw = some (.int bits) ∧
      ∀ C', g'.code.Grows C' → g.Computes C' rs c raw id := by
  obtain ⟨value, kind⟩ := c
  cases kind with
  | raw fat =>
    refine ⟨value, g, [], rfl, .refl g, hc, fun C' hgrows E s v hv => ?_⟩
    exact ⟨s, .nil s, rfl, hgrows.evalOperand hv⟩
  | ptr ty =>
    obtain ⟨hty, hdef⟩ := hc
    obtain ⟨r, g', hrun, hemits, d, hd, hdty, hkind⟩ := buildLoad_emits hg ty.ty hdef
    refine ⟨.inst r, g', [r], hrun, hemits, ?_, fun C' hgrows E s v hv => ?_⟩
    · exact (congrArg (Option.map InstData.ty) hd).trans (congrArg some (hdty.trans hty))
    · obtain ⟨p, hp, hload⟩ := hv
      have hd' : C'.inst r = some d := hgrows.inst r d hd
      have hp' : C'.evalOperand E s.regs value = some p := (hemits.grows.trans hgrows).evalOperand hp
      refine ⟨_, .cons (.load hd' hkind hp') (.nil _), rfl, ?_⟩
      show Function.update s.regs r _ r = _
      rw [Function.update_self, hdty, hload]
      rfl

/-- One more instruction, whose value is a function of the operand's. -/
theorem Computes.snoc {C : Code} {raw : ValueId} {r : InstRef} {d : InstData} {f : Val → Val}
    (h : g.Computes C rs c raw id) (hd : C.inst r = some d)
    (hval : ∀ E regs v, C.evalOperand E regs raw = some v →
      evalPure E d.ty d.kind (C.evalOperand E regs) = some (f v)) :
    g.Computes C (rs ++ [r]) c (.inst r) f := by
  intro E s v hv
  obtain ⟨s', hrun, hmem, hraw⟩ := h E s v hv
  exact ⟨_, hrun.snoc (.pure hd (hval E s'.regs v hraw)), hmem, Function.update_self ..⟩

/-- A constant is added to the module, not to a block. -/
theorem addIntConst_emits (g : IRGenerator) {bits : Nat} (hbits : 1 ≤ bits ∧ bits ≤ 64) (value : Int) :
    ∃ k m', g.module.addIntConst bits value = some (k, m') ∧
      g.Emits { g with module := m' } [] [] ∧ { g with module := m' }.module.Defined (.const k) ∧
      ∀ C E regs, m'.code.Grows C → C.evalOperand E regs (.const k) = some (.ofInt bits value) := by
  have hnew := CoreInt.fromSigned_eq_ofBitVec hbits value
  have hconst := g.module.constData_addConst (.int bits) (.int (.ofBitVec (.ofInt bits value)))
  refine ⟨g.module.consts.next, (g.module.addConst (.int bits) _).2, ?_, ⟨rfl, rfl, rfl, rfl,
    g.module.grows_addConst _ _, (fun _ h => nomatch h), (fun _ h => nomatch h), fun b => ?_⟩,
    defined_const hconst, fun C E regs hgrows => ?_⟩
  · simp only [ModuleCore.addIntConst, hnew, Option.bind_eq_bind, Option.bind_some]
    rfl
  · show g.code.block b = _
    cases g.code.block b with
    | none => rfl
    | some bd => simp
  · show (C.constData _).bind evalConst = _
    rw [hgrows.constData _ _ hconst]
    show some (Val.int bits (BitVec.ofInt bits value).toNat) = _
    rw [BitVec.toNat_ofInt]
    rfl

variable {g₁ : IRGenerator} {raw : ValueId} {f : Val → Val}

/-- An instruction on an operand that has been computed. -/
theorem buildInst_computes (hg : g.Ready) (hemits : g.Emits g₁ [] rs)
    (hraw : ∀ C', g₁.code.Grows C' → g.Computes C' rs c raw id) (ty : Ty) (kind : InstKind)
    (hphi : kind.isPhi = false) (hterm : kind.isTerminator = false)
    (hops : ∀ op ∈ kind.valueOperands, g₁.module.Defined op.1)
    (hval : ∀ C' E regs v, g₁.code.Grows C' → C'.evalOperand E regs raw = some v →
      evalPure E ty kind (C'.evalOperand E regs) = some (f v)) :
    ∃ r m', g₁.module.buildInst g₁.builder ty kind none = some (r, m') ∧
      g.Emits { g₁ with module := m' } [] (rs ++ [r]) ∧
      g.Computes m'.code (rs ++ [r]) c (.inst r) f := by
  obtain ⟨r, m', hrun, hinst, hd⟩ :=
    buildInst_emits (hemits.ready hg) ty kind none hphi hterm hops
  refine ⟨r, m', hrun, hemits.trans hinst, (hraw m'.code hinst.grows).snoc hd ?_⟩
  exact fun E regs v hv => hval m'.code E regs v hinst.grows hv

/-- A binary operation on the operand and a constant of its width. -/
theorem buildBinary_computes (hg : g.Ready) (hemits : g.Emits g₁ [] rs)
    (hraw : ∀ C', g₁.code.Grows C' → g.Computes C' rs c raw id)
    (hty : g₁.code.valueTy raw = some (.int bits)) (hbits : 1 ≤ bits ∧ bits ≤ 64) (value : Int)
    (op : BinaryOpcode) :
    ∃ k m₁, g₁.module.addIntConst bits value = some (k, m₁) ∧
      (∃ r m', m₁.buildBinary g₁.builder op (.int bits) raw (.const k) none = some (r, m') ∧
        g.Emits { g₁ with module := m' } [] (rs ++ [r]) ∧
        g.Computes m'.code (rs ++ [r]) c (.inst r) fun v => .binary op v (.ofInt bits value)) ∧
      ∃ r m', m₁.buildBinary g₁.builder op (.int bits) (.const k) raw none = some (r, m') ∧
        g.Emits { g₁ with module := m' } [] (rs ++ [r]) ∧
        g.Computes m'.code (rs ++ [r]) c (.inst r) fun v => .binary op (.ofInt bits value) v := by
  -- the constant is new and changes no block
  obtain ⟨k, m₁, hconst, hadd, hdef, hk⟩ := g₁.addIntConst_emits hbits value
  have hemits₁ : g.Emits { g₁ with module := m₁ } [] rs := by
    have htrans := hemits.trans hadd
    rwa [List.append_nil rs] at htrans
  have hrawDef : ModuleCore.Defined { g₁ with module := m₁ }.module raw :=
    hadd.defined (Option.isSome_iff_exists.mpr ⟨_, hty⟩)
  -- the code that follows keeps the operand
  have hraw₁ : ∀ C', m₁.code.Grows C' → g.Computes C' rs c raw id :=
    fun C' hgrows => hraw C' (hadd.grows.trans hgrows)
  -- the operand on the left, then the operand on the right
  refine ⟨k, m₁, hconst, ?_, ?_⟩
  · refine buildInst_computes hg hemits₁ hraw₁ (.int bits) (.binary op raw (.const k)) rfl rfl
      (fun o ho => ?_) fun C' E regs v hgrows hv => ?_
    · simp only [InstKind.valueOperands, List.mem_cons, List.not_mem_nil, or_false] at ho
      rcases ho with rfl | rfl
      · exact hrawDef
      · exact hdef
    · rw [evalPure, hv, hk C' E regs hgrows]
      rfl
  · refine buildInst_computes hg hemits₁ hraw₁ (.int bits) (.binary op (.const k) raw) rfl rfl
      (fun o ho => ?_) fun C' E regs v hgrows hv => ?_
    · simp only [InstKind.valueOperands, List.mem_cons, List.not_mem_nil, or_false] at ho
      rcases ho with rfl | rfl
      · exact hdef
      · exact hrawDef
    · rw [evalPure, hv, hk C' E regs hgrows]
      rfl

theorem visitNotExpr_computes (hg : g.Ready) (hc : g.HasBits c bits) (hbits : 1 ≤ bits ∧ bits ≤ 64) :
    ∃ w g' rs, g.visitNotExpr c = some (⟨w, .raw none⟩, g') ∧ g.Emits g' [] rs ∧
      g.Computes g'.code rs c w fun v => .binary .xor v (.ofInt bits (ModuleCore.notMask bits)) := by
  obtain ⟨raw, g₁, rs, hraw, hemits, hty, hcomputes⟩ := getRawValue_computes hg hc
  obtain ⟨k, m₁, hconst, ⟨r, m', hrun, hemits', hresult⟩, -⟩ := buildBinary_computes hg hemits
    hcomputes hty hbits (ModuleCore.notMask bits) .xor
  refine ⟨.inst r, { g₁ with module := m' }, rs ++ [r], ?_, hemits', hresult⟩
  have hvalueTy : g₁.module.valueTy raw = some (.int bits) := (ModuleCore.code_valueTy ..).symm.trans hty
  simp only [visitNotExpr, hraw, ModuleCore.buildBitwiseNot, hvalueTy, Ty.asInt, hconst, hrun,
    Option.bind_eq_bind, Option.bind_some]

theorem visitNegExpr_computes (hg : g.Ready) (hc : g.HasBits c bits) (hbits : 1 ≤ bits ∧ bits ≤ 64) :
    ∃ w g' rs, g.visitNegExpr c = some (⟨w, .raw none⟩, g') ∧ g.Emits g' [] rs ∧
      g.Computes g'.code rs c w fun v => .binary .sub (.ofInt bits 0) v := by
  obtain ⟨raw, g₁, rs, hraw, hemits, hty, hcomputes⟩ := getRawValue_computes hg hc
  obtain ⟨k, m₁, hconst, -, r, m', hrun, hemits', hresult⟩ := buildBinary_computes hg hemits
    hcomputes hty hbits 0 .sub
  refine ⟨.inst r, { g₁ with module := m' }, rs ++ [r], ?_, hemits', hresult⟩
  have hvalueTy : g₁.module.valueTy raw = some (.int bits) := (ModuleCore.code_valueTy ..).symm.trans hty
  simp only [visitNegExpr, hraw, ModuleCore.buildNeg, hvalueTy, Ty.asInt, hconst, hrun,
    Option.bind_eq_bind, Option.bind_some]

/-- What a cast does to the value. -/
def castVal (srcBits targetBits : Nat) (v : Val) : Val :=
  if srcBits < targetBits then v.zext targetBits
  else if srcBits = targetBits then v
  else v.trunc targetBits

theorem visitCastExpr_computes (hg : g.Ready) (hc : g.HasBits c bits) (targetBits : Nat) :
    ∃ w g' rs, g.visitCastExpr c (.int targetBits) = some (⟨w, .raw none⟩, g') ∧ g.Emits g' [] rs ∧
      g.Computes g'.code rs c w (castVal bits targetBits) := by
  obtain ⟨raw, g₁, rs, hraw, hemits, hty, hcomputes⟩ := getRawValue_computes hg hc
  have hvalueTy : g₁.module.valueTy raw = some (.int bits) := (ModuleCore.code_valueTy ..).symm.trans hty
  have hdef : g₁.module.Defined raw := Option.isSome_iff_exists.mpr ⟨_, hty⟩
  -- a wider target type extends by zeros
  by_cases hlt : bits < targetBits
  · obtain ⟨r, m', hrun, hemits', hresult⟩ := buildInst_computes hg hemits hcomputes
      (.int targetBits) (.zext raw) rfl rfl (fun o ho => (List.mem_singleton.mp ho) ▸ hdef)
      (f := Val.zext targetBits) fun C' E regs v _ hv => by
        rw [evalPure, hv]
        rfl
    refine ⟨.inst r, { g₁ with module := m' }, rs ++ [r], ?_, hemits', ?_⟩
    · simp only [visitCastExpr, hraw, buildCast, hvalueTy, Ty.asInt, if_pos hlt,
        ModuleCore.buildZext, hrun, Option.bind_eq_bind, Option.bind_some]
    · rw [show castVal bits targetBits = Val.zext targetBits from funext fun _ => if_pos hlt]
      exact hresult
  -- the same width keeps the value
  · by_cases heq : bits = targetBits
    · refine ⟨raw, g₁, rs, ?_, hemits, ?_⟩
      · simp only [visitCastExpr, hraw, buildCast, hvalueTy, Ty.asInt, if_neg hlt, if_pos heq,
          Option.bind_eq_bind, Option.bind_some]
      · rw [show castVal bits targetBits = id from
          funext fun _ => (if_neg hlt).trans (if_pos heq)]
        exact hcomputes g₁.code (.refl _)
    -- a narrower one cuts it
    · obtain ⟨r, m', hrun, hemits', hresult⟩ := buildInst_computes hg hemits hcomputes
        (.int targetBits) (.trunc raw) rfl rfl (fun o ho => (List.mem_singleton.mp ho) ▸ hdef)
        (f := Val.trunc targetBits) fun C' E regs v _ hv => by
          rw [evalPure, hv]
          rfl
      refine ⟨.inst r, { g₁ with module := m' }, rs ++ [r], ?_, hemits', ?_⟩
      · simp only [visitCastExpr, hraw, buildCast, hvalueTy, Ty.asInt, if_neg hlt, if_neg heq,
          ModuleCore.buildTrunc, hrun, Option.bind_eq_bind, Option.bind_some]
      · rw [show castVal bits targetBits = Val.trunc targetBits from
          funext fun _ => (if_neg hlt).trans (if_neg heq)]
        exact hresult

end IRGenerator

end Irgen
