import C0mpiler.Ir.CoreIntOps
import C0mpiler.Opt.AlgebraicPanic
import C0mpiler.Opt.NonnegSound
import Mathlib

/-!
# Strength reduction keeps the values

A reduced instruction has the value it had, by the arithmetic of its operation, and for the signed
operations because the analysis is right about the dividend. It also meets the condition of its new
row if it met that of the old one, so a run of the program whose steps meet the condition is a run
of every module the pass goes through, and there the analysis is right again.
-/

namespace Ir

/-! ## One operation -/

section Arithmetic

open ModuleCore

variable {b : Nat}

/-- What the tests on the constant say: a power of two of the width, and at width one none. -/
theorem eq_of_reducible {k : Nat} (h : reducible b k = true) (hk : k < 2 ^ b) :
    k = 2 ^ k.log2 ∧ k.log2 < b ∧ b ≠ 1 := by
  rw [reducible, Bool.and_eq_true, Bool.and_eq_true, decide_eq_true_eq, isPowerOfTwo,
    decide_eq_true_eq, Bool.not_eq_true'] at h
  obtain ⟨⟨-, hpow⟩, hhigh⟩ := h
  refine ⟨hpow, ?_, ?_⟩
  · rw [hpow] at hk
    exact (Nat.pow_lt_pow_iff_right one_lt_two).mp hk
  · rintro rfl
    have hone : k = 1 := by
      have hpos := Nat.two_pow_pos k.log2
      omega
    subst hone
    exact absurd hhigh (by decide)

/-- The new operation, on the integer of the new constant, gives what the old one gave, and meets
the condition of its row. -/
theorem reduced_arith {op newOp : BinaryOpcode} {k newVal : Nat} {x : BitVec b}
    (h : reducible b k = true) (hk : k < 2 ^ b) (hop : reducedOp op k = some (newOp, newVal))
    (hx : op = .sdiv ∨ op = .srem → SignClear x) (hok : RowOk op x k) :
    newVal < 2 ^ b ∧ RowOk newOp x newVal ∧
      intBinary newOp x (BitVec.ofNat b newVal) = intBinary op x (BitVec.ofNat b k) := by
  obtain ⟨hpow, hlog, hb⟩ := eq_of_reducible h hk
  have hlogb : k.log2 < 2 ^ b := hlog.trans Nat.lt_two_pow_self
  have hne : BitVec.ofNat b k ≠ 0 := fun hzero => by
    have hto := congrArg BitVec.toNat hzero
    rw [hpow, toNat_twoPow hlog] at hto
    exact absurd hto (Nat.two_pow_pos _).ne'
  -- what the two shifts compute by the logarithm
  have hshl : intBinary .shl x (BitVec.ofNat b k.log2) = some (x <<< k.log2) := by
    simp [intBinary, intShift, BinaryOpcode.isShift, Nat.mod_eq_of_lt hlogb, hlog]
  have hlshr : intBinary .lshr x (BitVec.ofNat b k.log2) = some (x >>> k.log2) := by
    simp [intBinary, intShift, BinaryOpcode.isShift, Nat.mod_eq_of_lt hlogb, hlog]
  -- the other operators compute what `intArith` says
  have harith : ∀ op : BinaryOpcode, op.isShift = false → ∀ y : BitVec b,
      intBinary op x y = intArith op x y := fun op hop y => by
    simp [intBinary, hop]
  have hmsb : SignClear x → x.msb = false := fun hx => hx.resolve_left hb
  cases op with
  | mul =>
    cases hop
    refine ⟨hlogb, hok hpow, ?_⟩
    rw [hshl, harith .mul rfl, intArith, ← mul_twoPow, ← hpow]
  | udiv =>
    cases hop
    -- a shift by zero keeps the value, as a division by one does
    have hone : k = 1 ∨ k.log2 ≠ 0 := by
      by_cases hzero : k.log2 = 0
      · rw [hzero] at hpow
        exact Or.inl hpow
      · exact Or.inr hzero
    refine ⟨hlogb, hok.imp_left hone.resolve_left, ?_⟩
    · rw [hlshr, harith .udiv rfl, intArith, if_neg hne, ← udiv_twoPow x hlog, ← hpow]
  | sdiv =>
    cases hop
    refine ⟨hlogb, Or.inr (hx (Or.inl rfl)), ?_⟩
    rw [hlshr, harith .sdiv rfl, intArith, if_neg hne, ← sdiv_twoPow (hmsb (hx (Or.inl rfl))) hlog,
      ← hpow]
  | urem =>
    cases hop
    -- the mask is the divisor minus one
    refine ⟨(Nat.sub_le _ _).trans_lt hk, trivial, ?_⟩
    rw [harith .and rfl, harith .urem rfl, intArith, intArith, if_neg hne]
    conv => enter [2, 1]; rw [hpow, umod_twoPow x hlog, ← hpow]
  | srem =>
    cases hop
    refine ⟨(Nat.sub_le _ _).trans_lt hk, trivial, ?_⟩
    rw [harith .and rfl, harith .srem rfl, intArith, intArith, if_neg hne]
    conv => enter [2, 1]; rw [hpow, srem_twoPow (hmsb (hx (Or.inr rfl))) hlog, ← hpow]
  | _ => cases hop

end Arithmetic

/-! ## One reduction -/

namespace Code

/-- `C'` is `C` with the operation of one instruction replaced. -/
structure Reduces (C C' : Code) where
  inst : InstRef
  data : InstData
  op : BinaryOpcode
  newOp : BinaryOpcode
  lhs : ValueId
  const : ConstId
  value : CoreInt
  newConst : ConstId
  newVal : Nat
  bits : Nat
  inst_eq : C.inst inst = some data
  kind_eq : data.kind = .binary op lhs (.const const)
  ty_eq : data.ty.asInt = some bits
  value_eq : ∃ d, C.constData const = some d ∧ d.kind = .int value
  reducible : ModuleCore.reducible bits value.value = true
  op_eq : ModuleCore.reducedOp op value.value = some (newOp, newVal)
  nonneg : op = .sdiv ∨ op = .srem → C.Derives lhs
  newConst_eq : ∃ d new, C'.constData newConst = some d ∧ d.kind = .int new ∧
    CoreInt.new newVal bits = some new
  newInst : C'.inst = Function.update C.inst inst
    (some { data with kind := .binary newOp lhs (.const newConst) })
  consts : ∀ c d, C.constData c = some d → C'.constData c = some d

/-- In a state, an evaluation whose operands meet the condition is one of the new code, under the
condition there, and its instruction has the same values. -/
def KeepsValues (C C' : Code) (args : ArgRef → Option IntVal) (regs : IntRegs) : Prop :=
  ∀ undef r d v, C.inst r = some d → C.OperandsOk ⟨args, undef⟩ regs d →
    C.Evaluates ⟨args, undef⟩ regs d v →
    ∃ d', C'.inst r = some d' ∧ C'.OperandsOk ⟨args, undef⟩ regs d' ∧
      ∀ w, C'.Evaluates ⟨args, undef⟩ regs d' w ↔ C.Evaluates ⟨args, undef⟩ regs d w

variable {C C' C'' : Code} {args : ArgRef → Option IntVal} {regs : IntRegs} {E : IntEnv}

theorem KeepsValues.refl (C : Code) : C.KeepsValues C args regs :=
  fun _ _ d _ hd hok _ => ⟨d, hd, hok, fun _ => Iff.rfl⟩

theorem KeepsValues.trans (h : C.KeepsValues C' args regs) (h' : C'.KeepsValues C'' args regs) :
    C.KeepsValues C'' args regs := by
  intro undef r d v hd hok hev
  obtain ⟨d', hd', hok', hiff⟩ := h undef r d v hd hok hev
  obtain ⟨d'', hd'', hok'', hiff'⟩ := h' undef r d' v hd' hok' ((hiff v).mpr hev)
  exact ⟨d'', hd'', hok'', fun w => (hiff' w).trans (hiff w)⟩

/-- A run stays a run where each of its states keeps the values. -/
theorem OkRun.of_keeps (hkeeps : ∀ regs, C.OkRun args regs → C.KeepsValues C' args regs)
    (h : C.OkRun args regs) : C'.OkRun args regs := by
  induction h with
  | start => exact .start
  | step undef hrun hstep ih =>
    refine .step undef ih fun r => (hstep r).imp_right ?_
    rintro ⟨d, v, hd, hev, hok, hv⟩
    obtain ⟨d', hd', hok', hiff⟩ := hkeeps _ hrun undef r d v hd hok hev
    exact ⟨d', v, hd', (hiff v).mpr hev, hok', hv⟩

/-- The operations that are reduced take two integers of one width. -/
theorem width_of_reduced {op newOp : BinaryOpcode} {k newVal b c : Nat} {x z : BitVec b}
    {y : BitVec c} (hop : ModuleCore.reducedOp op k = some (newOp, newVal))
    (hz : intBinary op x y = some z) : c = b := by
  have hshift : ¬ op.isShift = true := by
    intro hshift
    cases op with
    | shl | lshr | ashr => cases hop
    | _ => cases hshift
  unfold intBinary at hz
  rw [if_neg hshift] at hz
  by_contra hne
  rw [if_neg hne] at hz
  cases hz

theorem ofCore_new {value bits : Nat} {c : CoreInt} (h : CoreInt.new value bits = some c)
    (hv : value < 2 ^ bits) : IntVal.ofCore c = ⟨bits, BitVec.ofNat bits value⟩ := by
  unfold CoreInt.new at h
  split at h
  · next hw =>
    cases h
    have hlt : value < 2 ^ 64 := hv.trans_le (Nat.pow_le_pow_right two_pos hw.2)
    rw [IntVal.ofCore, Nat.mod_eq_of_lt hlt, Nat.mod_eq_of_lt hv]
  · cases h

section Congruence

variable {d : InstData} {v : IntVal}

theorem Evaluates.congr (h : C.Evaluates E regs d v)
    (hread : ∀ op ∈ d.kind.valueOperands, C'.readInt E regs op.1 = C.readInt E regs op.1) :
    C'.Evaluates E regs d v := by
  -- the constructors read operands only
  cases h with
  | binary hk hty hl hr hz =>
    simp only [hk, InstKind.valueOperands, List.forall_mem_cons] at hread
    exact .binary hk hty (hread.1.trans hl) (hread.2.1.trans hr) hz
  | icmp hk hl hr =>
    simp only [hk, InstKind.valueOperands, List.forall_mem_cons] at hread
    exact .icmp hk (hread.1.trans hl) (hread.2.1.trans hr)
  | icmpPtr hk hl hr result =>
    simp only [hk, InstKind.valueOperands, List.forall_mem_cons] at hread
    exact .icmpPtr hk (hread.1.trans hl) (hread.2.1.trans hr) result
  | select hk hc hv =>
    simp only [hk, InstKind.valueOperands, List.forall_mem_cons] at hread
    refine .select hk (hread.1.trans hc) ?_
    rw [← hv]
    split
    · exact hread.2.2.1
    · exact hread.2.1
  | @phi incomings idx v e hk he hv =>
    have hop : (e.2.value, OperandSlot.phiIncomingVal e.1) ∈ d.kind.valueOperands := by
      rw [hk]
      exact List.mem_map_of_mem he
    exact .phi hk he ((hread _ hop).trans hv)
  | trunc hk hty hv =>
    simp only [hk, InstKind.valueOperands, List.forall_mem_cons] at hread
    exact .trunc hk hty (hread.1.trans hv)
  | zext hk hty hv =>
    simp only [hk, InstKind.valueOperands, List.forall_mem_cons] at hread
    exact .zext hk hty (hread.1.trans hv)
  | sext hk hty hv =>
    simp only [hk, InstKind.valueOperands, List.forall_mem_cons] at hread
    exact .sext hk hty (hread.1.trans hv)
  | «open» hk hty x => exact .open hk hty x

theorem OperandsOk.congr (h : C.OperandsOk E regs d)
    (hread : ∀ op ∈ d.kind.valueOperands, C'.readInt E regs op.1 = C.readInt E regs op.1) :
    C'.OperandsOk E regs d := by
  unfold OperandsOk at h ⊢
  cases hk : d.kind with
  | binary op lhs rhs =>
    simp only [hk, InstKind.valueOperands, List.forall_mem_cons] at hread h
    intro x y hx hy
    exact h x y (hread.1 ▸ hx) (hread.2.1 ▸ hy)
  | zext value =>
    simp only [hk, InstKind.valueOperands, List.forall_mem_cons] at hread h
    intro x b hx hb
    exact h x b (hread.1 ▸ hx) hb
  | _ => trivial

/-- The evaluations of a binary operation with these operands. -/
theorem evaluates_binary_iff {op : BinaryOpcode} {lhs rhs : ValueId} {b c : Nat} {x : BitVec b}
    {y : BitVec c} (hk : d.kind = .binary op lhs rhs) (hty : d.ty.asInt = some b)
    (hl : C.readInt E regs lhs = some ⟨b, x⟩) (hr : C.readInt E regs rhs = some ⟨c, y⟩) :
    C.Evaluates E regs d v ↔ ∃ z, intBinary op x y = some z ∧ v = ⟨b, z⟩ := by
  constructor
  · intro h
    obtain ⟨b', c', x', z, y', -, hl', hr', hz, rfl⟩ := h.binary_inv hk
    cases hl.symm.trans hl'
    cases hr.symm.trans hr'
    exact ⟨z, hz, rfl⟩
  · rintro ⟨z, hz, rfl⟩
    exact .binary hk hty hl hr hz

end Congruence

namespace Reduces

variable (h : C.Reduces C')

include h in
/-- An operand that exists reads the same. -/
theorem readInt {v : ValueId} (hv : C.Known v) : C'.readInt E regs v = C.readInt E regs v := by
  cases v with
  | const c =>
    obtain ⟨d, hd⟩ := Option.isSome_iff_exists.mp hv
    rw [Code.readInt, Code.readInt, hd, h.consts c d hd]
  | _ => rfl

include h in
/-- The values are kept in a state where the analysis is right. -/
theorem keeps (hC : C.Foldable) (hheld : ∀ undef, C.HoldsIn ⟨args, undef⟩ regs) :
    C.KeepsValues C' args regs := by
  intro undef r d v hd hok hev
  have hread : ∀ op ∈ d.kind.valueOperands,
      C'.readInt ⟨args, undef⟩ regs op.1 = C.readInt ⟨args, undef⟩ regs op.1 :=
    fun op hop => h.readInt (hC.operands r d hd op hop)
  have hnewInst := congrFun h.newInst r
  by_cases hr : r = h.inst
  · subst hr
    cases hd.symm.trans h.inst_eq
    rw [Function.update_self] at hnewInst
    obtain ⟨b, c, x, z, y, hty, hl, hrhs, hz, rfl⟩ := hev.binary_inv h.kind_eq
    cases hty.symm.trans h.ty_eq
    -- the second operand is the constant, at the width of the first one
    obtain ⟨dc, hdc, hkc⟩ := h.value_eq
    have hwf := hC.consts _ dc h.value hdc hkc
    have hvalue : C.readInt ⟨args, undef⟩ regs (.const h.const) = some (.ofCore h.value) := by
      rw [Code.readInt, hdc, Option.bind_some, hkc]
    cases hvalue.symm.trans hrhs
    have hwidth : h.value.bitWidth = h.bits := width_of_reduced h.op_eq hz
    have hk : h.value.value < 2 ^ h.bits := hwidth ▸ hwf.value_lt
    have hrow : RowOk h.op x h.value.value := by
      rw [OperandsOk, h.kind_eq] at hok
      have hrow : RowOk h.op x (BitVec.ofNat h.value.bitWidth h.value.value).toNat :=
        hok _ _ hl hrhs
      rwa [BitVec.toNat_ofNat, Nat.mod_eq_of_lt hwf.value_lt] at hrow
    have hdividend : h.op = .sdiv ∨ h.op = .srem → SignClear x :=
      fun hop => hheld undef _ (h.nonneg hop) _ hl
    obtain ⟨hnewVal, hnewRow, hsame⟩ := reduced_arith h.reducible hk h.op_eq hdividend hrow
    -- the new constant
    obtain ⟨dn, new, hdn, hkn, hnew⟩ := h.newConst_eq
    have hnewRead : C'.readInt ⟨args, undef⟩ regs (.const h.newConst) =
        some ⟨h.bits, BitVec.ofNat h.bits h.newVal⟩ := by
      rw [Code.readInt, hdn, Option.bind_some, hkn]
      exact congrArg some (ofCore_new hnew hnewVal)
    have hlNew : C'.readInt ⟨args, undef⟩ regs h.lhs = some ⟨h.bits, x⟩ :=
      (hread (h.lhs, .binaryLhs) (by rw [h.kind_eq]; exact List.mem_cons_self)).trans hl
    refine ⟨_, hnewInst, ?_, fun w => ?_⟩
    · intro x' y' hx' hy'
      cases hlNew.symm.trans hx'
      cases hnewRead.symm.trans hy'
      show RowOk h.newOp x (BitVec.ofNat h.bits h.newVal).toNat
      rwa [BitVec.toNat_ofNat, Nat.mod_eq_of_lt hnewVal]
    · have hnew : C'.Evaluates ⟨args, undef⟩ regs _ w ↔ _ :=
        evaluates_binary_iff (d := { h.data with kind := .binary h.newOp h.lhs (.const h.newConst) })
          rfl h.ty_eq hlNew hnewRead
      rw [hnew, evaluates_binary_iff h.kind_eq h.ty_eq hl hrhs, hsame, hwidth]
  · rw [Function.update_of_ne hr, hd] at hnewInst
    refine ⟨d, hnewInst, hok.congr hread, fun w => ⟨fun hw => ?_, fun hw => hw.congr hread⟩⟩
    exact hw.congr fun op hop => (hread op hop).symm

end Reduces

end Code

/-! ## The pass -/

namespace ModuleCore

variable {m m' m'' : ModuleCore}

theorem replaceInstKind_code {r : InstRef} {newKind : InstKind}
    (h : m.replaceInstKind r newKind = some m') :
    m'.code = m.code.updInst r fun d => { d with kind := newKind } := by
  obtain ⟨d, -, h⟩ := Option.bind_eq_some_iff.mp h
  obtain ⟨m₁, hunregister, h⟩ := Option.bind_eq_some_iff.mp h
  -- both loops write use lists only
  have hloop : ∀ {l : List (ValueId × OperandSlot)} {g : ValueId × OperandSlot → List Use → List Use}
      {m m' : ModuleCore}, l.foldlM (fun m op => m.updValueUses op.1 (g op)) m = some m' →
      SameCode m m' := fun hrun =>
    OptionFold.relates SameCode.refl (fun _ _ _ => SameCode.trans)
      (fun _ _ _ _ hstep => (updValueUses_spec hstep).choose_spec.code) hrun
  have hset : (m₁.updInst r fun d => { d with kind := newKind }).code =
      m₁.code.updInst r fun d => { d with kind := newKind } := code_updInst r fun _ => rfl
  rw [(hloop h).code_eq, hset, (hloop hunregister).code_eq]

theorem signAllows_spec {fuel : Nat} {op : BinaryOpcode} {lhs : ValueId}
    {cache cache' : NonnegCache} {b : Bool} (hcache : m.CacheOk cache)
    (h : m.signAllows fuel op lhs cache = some (b, cache')) :
    m.CacheOk cache' ∧ (b = true → op = .sdiv ∨ op = .srem → m.code.Derives lhs) := by
  cases op with
  | sdiv | srem =>
    obtain ⟨hcache', hlhs⟩ := m.isValueNonneg_spec fuel lhs cache b cache' hcache h
    exact ⟨hcache', fun hb _ => hlhs hb⟩
  | _ =>
    cases h
    exact ⟨hcache, fun _ hop => by rcases hop with hop | hop <;> cases hop⟩

theorem asIntConstSr_eq {v : ValueId} {value : CoreInt} (h : m.asIntConstSr v = some (some value)) :
    ∃ c, v = .const c ∧ ∃ d, m.code.constData c = some d ∧ d.kind = .int value := by
  cases v with
  | const c =>
    obtain ⟨d, hd, h⟩ := Option.bind_eq_some_iff.mp h
    refine ⟨c, rfl, d.code, Option.map_eq_some_iff.mpr ⟨d, hd, rfl⟩, ?_⟩
    split at h
    · next hk =>
      cases h
      exact hk
    · cases h
  | _ => cases h

/-- The code with a constant added and the operation of an instruction replaced. -/
theorem foldable_reduced (hm : m.code.Foldable) {r : InstRef} {d : InstData} {ty : Ty}
    {int : CoreInt} (hint : int.Wf) (hd : m.code.inst r = some d) {lhs : ValueId}
    (hlhs : m.code.Known lhs) (newOp : BinaryOpcode) :
    ((m.addConst ty (.int int)).2.code.updInst r fun d =>
      { d with kind := .binary newOp lhs (.const m.consts.next) }).Foldable := by
  have hadd : (m.addConst ty (.int int)).2.code.Foldable :=
    foldable_addConst hm fun value hvalue => by cases hvalue; exact hint
  have hgrows := grows_addConst m ty (.int int)
  refine ⟨hadd.consts, fun i d' bits hd' hbits => ?_, fun i d' hd' op hop => ?_, hadd.initializers⟩
  · by_cases hi : i = r
    · subst hi
      rw [Code.updInst_inst_self, hgrows.inst _ d hd] at hd'
      cases hd'
      exact hm.types i d bits hd hbits
    · rw [Code.updInst_inst_of_ne hi] at hd'
      exact hadd.types i d' bits hd' hbits
  · by_cases hi : i = r
    · subst hi
      rw [Code.updInst_inst_self, hgrows.inst _ d hd] at hd'
      cases hd'
      rcases List.mem_cons.mp hop with rfl | hop
      · exact known_of_grows hgrows hlhs
      · rcases List.mem_singleton.mp hop with rfl
        exact Option.isSome_iff_exists.mpr ⟨_, constData_addConst m ty (.int int)⟩
    · rw [Code.updInst_inst_of_ne hi] at hd'
      exact hadd.operands i d' hd' op hop

/-- What a turn of the loop does. -/
theorem reduceInst_cases {fuel : Nat} {r : InstRef} {cache cache' : NonnegCache}
    (hm : m.code.Foldable) (hcache : m.CacheOk cache)
    (h : m.reduceInst fuel r cache = some (m', cache')) :
    m' = m ∧ m.CacheOk cache' ∨
      cache' = ∅ ∧ m'.code.Foldable ∧ Nonempty (m.code.Reduces m'.code) := by
  have hkeep : some (m, cache) = some (m', cache') → m' = m ∧ m.CacheOk cache' := by
    intro h
    cases h
    exact ⟨rfl, hcache⟩
  obtain ⟨d, hd, h⟩ := Option.bind_eq_some_iff.mp h
  have hcode : m.code.inst r = some d.code := Option.map_eq_some_iff.mpr ⟨d, hd, rfl⟩
  split at h
  -- only binary instructions are looked at
  · next op lhs rhs hk =>
    obtain ⟨rhsConst, hconst, hbody⟩ := Option.bind_eq_some_iff.mp h
    split at hbody
    -- with an integer constant on the right, of the width the instruction has
    · next value bits hbits =>
      obtain ⟨c, rfl, dc, hdc, hkc⟩ := asIntConstSr_eq hconst
      split at hbody
      · next hred =>
        -- the operators that have a cheaper form
        split at hbody
        · next newOp newVal hop =>
          obtain ⟨⟨allowed, cache₁⟩, hallowed, hbody⟩ := Option.bind_eq_some_iff.mp hbody
          obtain ⟨hcache₁, hlhs⟩ := signAllows_spec hcache hallowed
          dsimp only at hbody
          split at hbody
          · next htrue =>
            right
            obtain ⟨int, hint, hbody⟩ := Option.bind_eq_some_iff.mp hbody
            obtain ⟨m₁, hreplace, hbody⟩ := Option.bind_eq_some_iff.mp hbody
            cases hbody
            have hcode' := replaceInstKind_code hreplace
            have hgrows := grows_addConst m d.ty (.int int)
            have hlhsKnown : m.code.Known lhs :=
              hm.operands r d.code hcode (lhs, .binaryLhs) (by
                show (lhs, OperandSlot.binaryLhs) ∈ d.kind.valueOperands
                rw [hk]
                exact List.mem_cons_self)
            refine ⟨rfl, ?_, ⟨r, d.code, op, newOp, lhs, c, value, m.consts.next, newVal, bits, hcode,
              hk, hbits, ⟨dc, hdc, hkc⟩, hred, hop, hlhs htrue, ⟨⟨d.ty, .int int, []⟩, int, ?_, rfl, hint⟩, ?_, ?_⟩⟩
            · rw [hcode']
              exact foldable_reduced hm (CoreInt.wf_of_new hint) hcode hlhsKnown newOp
            · rw [hcode']
              exact constData_addConst m d.ty (.int int)
            · rw [hcode', Code.updInst, hgrows.inst _ _ hcode]
              rfl
            · rw [hcode']
              exact hgrows.constData
          · cases hbody
            exact Or.inl ⟨rfl, hcache₁⟩
        · exact Or.inl (hkeep hbody)
      · exact Or.inl (hkeep hbody)
    · exact Or.inl (hkeep hbody)
  · exact Or.inl (hkeep h)

/-- The modules and the caches that the pass goes through. The cache is new for each function. -/
inductive ReduceRun (m : ModuleCore) : ModuleCore → NonnegCache → Prop
  | start : ReduceRun m m ∅
  | nextFunction {m' : ModuleCore} {cache : NonnegCache} (h : ReduceRun m m' cache) :
      ReduceRun m m' ∅
  | reduce {m' m'' : ModuleCore} {cache cache' : NonnegCache} {fuel : Nat} {r : InstRef}
      (h : ReduceRun m m' cache) (hrun : m'.reduceInst fuel r cache = some (m'', cache')) :
      ReduceRun m m'' cache'

/-- The pass goes through such modules only. -/
theorem optStrengthReduction_run {slots : SlotOrder} {fuel : Nat}
    (h : m.optStrengthReduction slots fuel = some m') :
    ∃ cache, m.ReduceRun m' cache := by
  refine OptionFold.preserves (fun m' => ∃ cache, m.ReduceRun m' cache) (fun id _ s s' hs hrun => ?_)
    ⟨∅, .start⟩ h
  obtain ⟨cache, hs⟩ := hs
  obtain ⟨function, -, hrun⟩ := Option.bind_eq_some_iff.mp hrun
  split at hrun
  · cases hrun
    exact ⟨cache, hs⟩
  · obtain ⟨⟨m₁, cache₁⟩, hloop, hrun⟩ := Option.bind_eq_some_iff.mp hrun
    cases hrun
    exact ⟨cache₁, OptionFold.preserves (fun s => m.ReduceRun s.1 s.2)
      (fun r _ s s' hs hrun => hs.reduce hrun) hs.nextFunction hloop⟩

/-- What holds of the modules the pass goes through. -/
theorem ReduceRun.invariant {cache : NonnegCache} (hm : m.code.Foldable)
    (h : m.ReduceRun m' cache) : m'.code.Foldable ∧ m'.CacheOk cache ∧
      ∀ args regs, m.code.OkRun args regs →
        m'.code.OkRun args regs ∧ m.code.KeepsValues m'.code args regs := by
  induction h with
  | start => exact ⟨hm, cacheOk_empty, fun args regs hrun => ⟨hrun, .refl _⟩⟩
  | nextFunction _ ih => exact ⟨ih.1, cacheOk_empty, ih.2.2⟩
  | reduce _ hrun ih =>
    obtain ⟨hfold, hcache, hkeeps⟩ := ih
    obtain ⟨rfl, hcache'⟩ | ⟨rfl, hfold', ⟨hreduces⟩⟩ := reduceInst_cases hfold hcache hrun
    · exact ⟨hfold, hcache', hkeeps⟩
    · refine ⟨hfold', cacheOk_empty, fun args regs hrun => ?_⟩
      obtain ⟨hrun', hkeep⟩ := hkeeps args regs hrun
      have hnext := fun regs (hregs : Code.OkRun _ args regs) =>
        hreduces.keeps hfold (hregs.holdsIn hfold.consts)
      exact ⟨hrun'.of_keeps hnext, hkeep.trans (hnext regs hrun')⟩

/-- In every run whose steps meet the condition, and in every module the pass goes through, what
`is_value_nonneg` says is right, and the instructions have the values they had. -/
theorem strengthReduction_sound {cache : NonnegCache} (hm : m.code.Foldable)
    (hpass : m.ReduceRun m' cache) {args : ArgRef → Option IntVal} {regs : IntRegs}
    (hrun : m.code.OkRun args regs) :
    (∀ fuel v cache', m'.isValueNonneg fuel v cache = some (true, cache') →
      ∀ undef x, m'.code.readInt ⟨args, undef⟩ regs v = some x → 0 ≤ x.signed) ∧
    m'.code.OkRun args regs ∧ m.code.KeepsValues m'.code args regs := by
  obtain ⟨hfold, hcache, hkeeps⟩ := hpass.invariant hm
  obtain ⟨hrun', hkeep⟩ := hkeeps args regs hrun
  refine ⟨fun fuel v cache' hv undef x hx => ?_, hrun', hkeep⟩
  obtain ⟨-, hder⟩ := m'.isValueNonneg_spec fuel v cache true cache' hcache hv
  exact IntVal.signed_nonneg_iff.mpr (hrun'.holdsIn hfold.consts undef v (hder rfl) x hx)

/-! ## Half of a remainder -/

/-- `(x % d) as i32 / 2` for an `x: u32`. -/
def remEdits (d : Nat) : List Edit :=
  [.addConst (.int 32) (.int ⟨d, 32⟩), .addConst (.int 32) (.int ⟨2, 32⟩),
    .createFunction "f" ⟨.int 32, [.int 32]⟩, .appendArg 1 (.int 32) none,
    .newInst 1 (.int 32) (.binary .urem (.arg ⟨1, 1⟩) (.const 1)) none, .appendInst ⟨1, 1⟩ ⟨1, 1⟩,
    .newInst 1 (.int 32) (.binary .sdiv (.inst ⟨1, 1⟩) (.const 2)) none, .appendInst ⟨1, 1⟩ ⟨1, 2⟩]

def remModule (d : Nat) : ModuleCore := (runEdits (remEdits d)).getD ModuleCore.new

theorem remModule_foldable {d : Nat} (h : d = 10 ∨ d = 4000000000) :
    (remModule d).code.Foldable := by
  rcases h with rfl | rfl <;> exact foldable_of_keys rfl (by decide) (by decide)

/-- `x` is 3000000000. -/
def remArgs : ArgRef → Option IntVal := fun _ => some ⟨32, 3000000000⟩

/-- The remainder, and nothing else. -/
def remRegs (v : BitVec 32) : IntRegs := fun r => if r = ⟨1, 1⟩ then some ⟨32, v⟩ else none

def remInst : InstData := ⟨some ⟨1, 1⟩, .int 32, .binary .urem (.arg ⟨1, 1⟩) (.const 1), [], none⟩

/-- The first step. -/
theorem remModule_run {d : Nat} {v : BitVec 32}
    (hd : (remModule d).code.inst ⟨1, 1⟩ = some remInst)
    (hc : (remModule d).code.constData 1 = some ⟨.int 32, .int ⟨d, 32⟩, []⟩)
    (hv : intBinary .urem (3000000000 : BitVec 32) (BitVec.ofNat 32 d) = some v)
    {ok : IntEnv → IntRegs → InstData → Prop}
    (hok : ok ⟨remArgs, fun _ => none⟩ (fun _ => none) remInst) :
    (remModule d).code.RunWith ok remArgs (remRegs v) := by
  refine .step (fun _ => none) .start fun r => ?_
  by_cases hr : r = ⟨1, 1⟩
  · subst hr
    refine Or.inr ⟨remInst, ⟨32, v⟩, hd, .binary rfl rfl rfl ?_ hv, hok, if_pos rfl⟩
    rw [Code.readInt, hc]
    rfl
  · exact Or.inl (if_neg hr)

theorem strengthReduction_sound_rem :
    ∃ m' cache, (remModule 10).ReduceRun m' cache ∧
      m'.code.OkRun remArgs (remRegs 0) ∧
      (remModule 10).code.KeepsValues m'.code remArgs (remRegs 0) := by
  have hrun : (remModule 10).code.OkRun remArgs (remRegs 0) := by
    refine remModule_run rfl rfl (by decide) fun x y hx hy => ?_
    cases hx
    have hconst : (remModule 10).code.constData 1 = some ⟨.int 32, .int ⟨10, 32⟩, []⟩ := rfl
    rw [Code.readInt, hconst] at hy
    cases hy
    exact fun hlt => absurd hlt (by decide)
  have hpass : ∃ m' cache, (remModule 10).reduceInst 3 ⟨1, 2⟩ ∅ = some (m', cache) := ⟨_, _, rfl⟩
  obtain ⟨m', cache, hpass⟩ := hpass
  refine ⟨m', cache, .reduce .start hpass, ?_⟩
  exact (strengthReduction_sound (remModule_foldable (Or.inl rfl)) (.reduce .start hpass) hrun).2

/-- With 4000000000 as the divisor the remainder may be negative as an `i32`. The analysis says it is
not, and the half of it changes. -/
theorem strengthReduction_unsound : ∃ m' args regs,
    (remModule 4000000000).code.Foldable ∧
    (remModule 4000000000).funcStrengthReduction .byCreation 3 1 = some m' ∧
    (remModule 4000000000).code.IntRun args regs ∧
    (¬ ∀ fuel v cache, (remModule 4000000000).isValueNonneg fuel v ∅ = some (true, cache) →
      ∀ undef x, (remModule 4000000000).code.readInt ⟨args, undef⟩ regs v = some x →
        0 ≤ x.signed) ∧
    ¬ (remModule 4000000000).code.KeepsValues m'.code args regs := by
  have hpass : ∃ m', (remModule 4000000000).funcStrengthReduction .byCreation 3 1 = some m' ∧
      m'.code.inst ⟨1, 2⟩ = some ⟨some ⟨1, 1⟩, .int 32, .binary .lshr (.inst ⟨1, 1⟩) (.const 3), [], none⟩ ∧
      m'.code.constData 3 = some ⟨.int 32, .int ⟨1, 32⟩, []⟩ := ⟨_, rfl, rfl, rfl⟩
  obtain ⟨m', hpass, hinst, hconst⟩ := hpass
  have hcache : ∃ cache, (remModule 4000000000).isValueNonneg 1 (.inst ⟨1, 1⟩) ∅ = some (true, cache) :=
    ⟨_, rfl⟩
  obtain ⟨cache, hcache⟩ := hcache
  refine ⟨m', remArgs, remRegs 3000000000, remModule_foldable (Or.inr rfl), hpass,
    remModule_run rfl rfl (by decide) trivial, fun h => ?_, fun h => ?_⟩
  -- `compute_nonneg` answers `true`, the value read is negative
  · have hneg : ¬ 0 ≤ IntVal.signed ⟨32, 3000000000⟩ := by decide
    exact hneg (h 1 _ cache hcache (fun _ => none) _ rfl)
  -- the rewritten remainder has another value
  · have hdata : (remModule 4000000000).code.inst ⟨1, 2⟩ =
        some ⟨some ⟨1, 1⟩, .int 32, .binary .sdiv (.inst ⟨1, 1⟩) (.const 2), [], none⟩ := rfl
    have hev : (remModule 4000000000).code.Evaluates ⟨remArgs, fun _ => none⟩ (remRegs 3000000000)
        ⟨some ⟨1, 1⟩, .int 32, .binary .sdiv (.inst ⟨1, 1⟩) (.const 2), [], none⟩
        ⟨32, 3647483648⟩ := .binary rfl rfl rfl rfl (by decide)
    obtain ⟨d', hd', -, hiff⟩ := h (fun _ => none) ⟨1, 2⟩ _ _ hdata (fun _ _ _ _ => trivial) hev
    cases hinst.symm.trans hd'
    obtain ⟨b, c, x, z, y, -, hl, hr, hz, heq⟩ := ((hiff _).mpr hev).binary_inv rfl
    cases hl
    rw [Code.readInt, hconst] at hr
    cases hr
    cases heq
    exact absurd hz (by decide)

end ModuleCore

end Ir
