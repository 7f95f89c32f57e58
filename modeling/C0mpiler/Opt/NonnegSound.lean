import C0mpiler.Opt.NonnegRows
import C0mpiler.Opt.Strength
import Mathlib

/-!
# The sign analysis is right

An execution is a sequence of states of the integer registers. In a step any number of instructions
are evaluated at once, as the phis of a block are, each from the operands before the step; what a
load or a call gives is left open. `OkRun` has the states reached by steps whose operands meet
`RowOk`. In each of them the integers of which `is_value_nonneg` is sure are not negative: the
answer is backed by a derivation from the rows (`Derives`), the placeholder in the cache being no
answer, and along a run a phi only takes what was there before it.
-/

namespace Ir

/-- The integers of the instructions executed so far. -/
abbrev IntRegs := InstRef → Option IntVal

/-- The arguments, and what the undefined constants read as. -/
structure IntEnv where
  args : ArgRef → Option IntVal
  undef : ConstId → Option IntVal

/-- An integer that comes from outside the function, or from an address. -/
def InstKind.isOpen : InstKind → Bool
  | .load _ | .call _ _ | .ptrToInt _ => true
  | _ => false

namespace Code

section Evaluate

variable (C : Code) (E : IntEnv) (regs : IntRegs)

/-- The integer of an operand; other values have none. -/
def readInt : ValueId → Option IntVal
  | .inst r => regs r
  | .arg a => E.args a
  | .global _ => none
  | .const c => (C.constData c).bind fun d =>
    match d.kind with
    | .int value => some (.ofCore value)
    | .undef => E.undef c
    | _ => none

/-- The integers an instruction may have. -/
inductive Evaluates (d : InstData) : IntVal → Prop
  | binary {op : BinaryOpcode} {lhs rhs : ValueId} {b c : Nat} {x z : BitVec b} {y : BitVec c}
      (hk : d.kind = .binary op lhs rhs) (hty : d.ty.asInt = some b)
      (hl : C.readInt E regs lhs = some ⟨b, x⟩) (hr : C.readInt E regs rhs = some ⟨c, y⟩)
      (hz : intBinary op x y = some z) : Evaluates d ⟨b, z⟩
  | icmp {op : ICmpCode} {lhs rhs : ValueId} {b : Nat} {x y : BitVec b}
      (hk : d.kind = .icmp op lhs rhs) (hl : C.readInt E regs lhs = some ⟨b, x⟩)
      (hr : C.readInt E regs rhs = some ⟨b, y⟩) : Evaluates d ⟨1, BitVec.ofBool (intICmp op x y)⟩
  /- pointers are compared by their addresses -/
  | icmpPtr {op : ICmpCode} {lhs rhs : ValueId} (hk : d.kind = .icmp op lhs rhs)
      (hl : C.readInt E regs lhs = none) (hr : C.readInt E regs rhs = none) (result : Bool) :
      Evaluates d ⟨1, BitVec.ofBool result⟩
  | select {cond thenVal elseVal : ValueId} {c : Nat} {x : BitVec c} {v : IntVal}
      (hk : d.kind = .select cond thenVal elseVal) (hc : C.readInt E regs cond = some ⟨c, x⟩)
      (hv : C.readInt E regs (if x = 0 then elseVal else thenVal) = some v) : Evaluates d v
  | phi {incomings : HashMap Nat PhiIncoming} {idx : Nat} {v : IntVal} {e}
      (hk : d.kind = .phi incomings idx) (he : e ∈ incomings.entries)
      (hv : C.readInt E regs e.2.value = some v) : Evaluates d v
  | trunc {value : ValueId} {b c : Nat} {x : BitVec c} (hk : d.kind = .trunc value)
      (hty : d.ty.asInt = some b) (hv : C.readInt E regs value = some ⟨c, x⟩) :
      Evaluates d ⟨b, x.setWidth b⟩
  | zext {value : ValueId} {b c : Nat} {x : BitVec c} (hk : d.kind = .zext value)
      (hty : d.ty.asInt = some b) (hv : C.readInt E regs value = some ⟨c, x⟩) :
      Evaluates d ⟨b, x.setWidth b⟩
  | sext {value : ValueId} {b c : Nat} {x : BitVec c} (hk : d.kind = .sext value)
      (hty : d.ty.asInt = some b) (hv : C.readInt E regs value = some ⟨c, x⟩) :
      Evaluates d ⟨b, x.signExtend b⟩
  | open {b : Nat} (hk : d.kind.isOpen = true) (hty : d.ty.asInt = some b) (x : BitVec b) :
      Evaluates d ⟨b, x⟩

/-- What the operands of an instruction have to meet. -/
def OperandsOk (d : InstData) : Prop :=
  match d.kind with
  | .binary op lhs rhs => ∀ x y, C.readInt E regs lhs = some x → C.readInt E regs rhs = some y →
    RowOk op x.x y.x.toNat
  | .zext value => ∀ x b, C.readInt E regs value = some x → d.ty.asInt = some b →
    x.bits < b ∨ x.bits = b ∧ SignClear x.x
  | _ => True

/-- A step in which each instruction that is evaluated meets a condition. -/
def StepWith (ok : IntEnv → IntRegs → InstData → Prop) (regs' : IntRegs) : Prop :=
  ∀ r, regs' r = regs r ∨
    ∃ d v, C.inst r = some d ∧ C.Evaluates E regs d v ∧ ok E regs d ∧ regs' r = some v

/-- The states that such steps lead to. The undefined constants may read differently at each. -/
inductive RunWith (ok : IntEnv → IntRegs → InstData → Prop) (args : ArgRef → Option IntVal) :
    IntRegs → Prop
  | start : RunWith ok args fun _ => none
  | step {regs regs' : IntRegs} (undef : ConstId → Option IntVal) (h : RunWith ok args regs)
      (hstep : C.StepWith ⟨args, undef⟩ regs ok regs') : RunWith ok args regs'

/-- All runs. -/
abbrev IntRun := C.RunWith fun _ _ _ => True

/-- The runs whose steps meet the condition. -/
abbrev OkRun := C.RunWith C.OperandsOk

end Evaluate

/-! ## Derivations from the rows -/

section Derivations

variable (C : Code)

/-- The values that the rows of `compute_nonneg` show not to be negative. -/
inductive Derives : ValueId → Prop
  | const {c : ConstId} {d : ConstData} (hd : C.constData c = some d)
      (h : ModuleCore.constNonneg d.kind = true) : Derives (.const c)
  | andLeft {r : InstRef} {d : InstData} {lhs rhs : ValueId} (hd : C.inst r = some d)
      (hk : d.kind = .binary .and lhs rhs) (hl : Derives lhs) : Derives (.inst r)
  | andRight {r : InstRef} {d : InstData} {lhs rhs : ValueId} (hd : C.inst r = some d)
      (hk : d.kind = .binary .and lhs rhs) (hr : Derives rhs) : Derives (.inst r)
  | both {r : InstRef} {d : InstData} {op : BinaryOpcode} {lhs rhs : ValueId}
      (hd : C.inst r = some d) (hk : d.kind = .binary op lhs rhs)
      (hop : op = .or ∨ op = .xor ∨ op = .sdiv ∨ op = .shl ∨ op = .ashr) (hl : Derives lhs)
      (hr : Derives rhs) : Derives (.inst r)
  | unsigned {r : InstRef} {d : InstData} {op : BinaryOpcode} {lhs rhs : ValueId}
      (hd : C.inst r = some d) (hk : d.kind = .binary op lhs rhs)
      (hop : op = .udiv ∨ op = .urem ∨ op = .lshr) : Derives (.inst r)
  | srem {r : InstRef} {d : InstData} {lhs rhs : ValueId} (hd : C.inst r = some d)
      (hk : d.kind = .binary .srem lhs rhs) (hl : Derives lhs) : Derives (.inst r)
  | zext {r : InstRef} {d : InstData} {value : ValueId} (hd : C.inst r = some d)
      (hk : d.kind = .zext value) : Derives (.inst r)
  | icmp {r : InstRef} {d : InstData} {op : ICmpCode} {lhs rhs : ValueId} (hd : C.inst r = some d)
      (hk : d.kind = .icmp op lhs rhs) : Derives (.inst r)
  | phi {r : InstRef} {d : InstData} {incomings : HashMap Nat PhiIncoming} {idx : Nat}
      (hd : C.inst r = some d) (hk : d.kind = .phi incomings idx)
      (h : ∀ e ∈ incomings.entries, Derives e.2.value) : Derives (.inst r)
  | select {r : InstRef} {d : InstData} {cond thenVal elseVal : ValueId} (hd : C.inst r = some d)
      (hk : d.kind = .select cond thenVal elseVal) (ht : Derives thenVal) (he : Derives elseVal) :
      Derives (.inst r)

end Derivations

end Code

namespace ModuleCore

variable {m : ModuleCore}

/-- The positive answers in the cache have derivations. -/
def CacheOk (m : ModuleCore) (cache : NonnegCache) : Prop :=
  ∀ v, cache.lookup v = some true → m.code.Derives v

/-- A positive answer has a derivation, and the cache stays right. -/
def TestOk (m : ModuleCore) (test : NonnegTest) : Prop :=
  ∀ v cache b cache', m.CacheOk cache → test v cache = some (b, cache') →
    m.CacheOk cache' ∧ (b = true → m.code.Derives v)

theorem cacheOk_empty : m.CacheOk ∅ := fun v h => by cases h

theorem CacheOk.insert {cache : NonnegCache} (h : m.CacheOk cache) {v : ValueId} {b : Bool}
    (hv : b = true → m.code.Derives v) : m.CacheOk (cache.insert v b) := by
  intro w hw
  rw [HashMap.lookup_insert_ite] at hw
  split at hw
  · next heq =>
    subst heq
    exact hv (Option.some.inj hw)
  · exact h w hw

section Rows

variable {test : NonnegTest} {lhs rhs : ValueId} {cache cache' : NonnegCache} {b : Bool}

theorem either_spec (ht : m.TestOk test) (hc : m.CacheOk cache)
    (h : test.either lhs rhs cache = some (b, cache')) :
    m.CacheOk cache' ∧ (b = true → m.code.Derives lhs ∨ m.code.Derives rhs) := by
  obtain ⟨⟨l, cache₁⟩, hl, h⟩ := Option.bind_eq_some_iff.mp h
  obtain ⟨hc₁, hlhs⟩ := ht lhs cache l cache₁ hc hl
  dsimp only at h
  split at h
  · next htrue =>
    cases h
    exact ⟨hc₁, fun _ => Or.inl (hlhs htrue)⟩
  · obtain ⟨hc₂, hrhs⟩ := ht rhs cache₁ b cache' hc₁ h
    exact ⟨hc₂, fun hb => Or.inr (hrhs hb)⟩

theorem both_spec (ht : m.TestOk test) (hc : m.CacheOk cache)
    (h : test.both lhs rhs cache = some (b, cache')) :
    m.CacheOk cache' ∧ (b = true → m.code.Derives lhs ∧ m.code.Derives rhs) := by
  obtain ⟨⟨l, cache₁⟩, hl, h⟩ := Option.bind_eq_some_iff.mp h
  obtain ⟨hc₁, hlhs⟩ := ht lhs cache l cache₁ hc hl
  dsimp only at h
  split at h
  · next htrue =>
    obtain ⟨hc₂, hrhs⟩ := ht rhs cache₁ b cache' hc₁ h
    exact ⟨hc₂, fun hb => ⟨hlhs htrue, hrhs hb⟩⟩
  · cases h
    exact ⟨hc₁, nofun⟩

theorem all_spec (ht : m.TestOk test) {values : List ValueId} (hc : m.CacheOk cache)
    (h : test.all values cache = some (b, cache')) :
    m.CacheOk cache' ∧ (b = true → ∀ v ∈ values, m.code.Derives v) := by
  induction values generalizing cache with
  | nil =>
    cases h
    exact ⟨hc, fun _ => nofun⟩
  | cons v values ih =>
    obtain ⟨⟨r, cache₁⟩, hr, h⟩ := Option.bind_eq_some_iff.mp h
    obtain ⟨hc₁, hv⟩ := ht v cache r cache₁ hc hr
    dsimp only at h
    split at h
    · next htrue =>
      obtain ⟨hc₂, hvalues⟩ := ih hc₁ h
      exact ⟨hc₂, fun hb => List.forall_mem_cons.mpr ⟨hv htrue, hvalues hb⟩⟩
    · cases h
      exact ⟨hc₁, nofun⟩

/-- The table, an instruction at a time. -/
theorem nonnegInst_spec (ht : m.TestOk test) {r : InstRef} {d : InstData}
    (hd : m.code.inst r = some d) (hc : m.CacheOk cache)
    (h : nonnegInst test d.kind cache = some (b, cache')) :
    m.CacheOk cache' ∧ (b = true → m.code.Derives (.inst r)) := by
  -- the cases follow the `match` of `compute_nonneg`
  cases hk : d.kind with
  | binary op lhs rhs =>
    rw [hk] at h
    cases op with
    -- one clear operand is enough
    | and =>
      obtain ⟨hc', hboth⟩ := either_spec ht hc h
      exact ⟨hc', fun hb => (hboth hb).elim (.andLeft hd hk) (.andRight hd hk)⟩
    -- both operands have to be clear
    | or | xor | shl | ashr | sdiv =>
      obtain ⟨hc', hboth⟩ := both_spec ht hc h
      exact ⟨hc', fun hb => .both hd hk (by decide) (hboth hb).1 (hboth hb).2⟩
    -- answered `true` without a look at the operands
    | lshr | udiv | urem =>
      cases h
      exact ⟨hc, fun _ => .unsigned hd hk (by decide)⟩
    -- only the dividend counts
    | srem =>
      obtain ⟨hc', hl⟩ := ht lhs cache b cache' hc h
      exact ⟨hc', fun hb => .srem hd hk (hl hb)⟩
    -- wrapping operators are answered `false`
    | add | sub | mul =>
      cases h
      exact ⟨hc, nofun⟩
  | zext value =>
    rw [hk] at h
    cases h
    exact ⟨hc, fun _ => .zext hd hk⟩
  | icmp op lhs rhs =>
    rw [hk] at h
    cases h
    exact ⟨hc, fun _ => .icmp hd hk⟩
  -- all incomings of a phi
  | phi incomings idx =>
    rw [hk] at h
    obtain ⟨hc', hall⟩ := all_spec ht hc h
    exact ⟨hc', fun hb => .phi hd hk fun e he => hall hb _ (List.mem_map_of_mem he)⟩
  | select cond thenVal elseVal =>
    rw [hk] at h
    obtain ⟨hc', hboth⟩ := both_spec ht hc h
    exact ⟨hc', fun hb => .select hd hk (hboth hb).1 (hboth hb).2⟩
  -- the other kinds are answered `false`
  | _ =>
    rw [hk] at h
    cases h
    exact ⟨hc, nofun⟩

theorem computeNonneg_spec (ht : m.TestOk test) {v : ValueId} (hc : m.CacheOk cache)
    (h : m.computeNonneg test v cache = some (b, cache')) :
    m.CacheOk cache' ∧ (b = true → m.code.Derives v) := by
  cases v with
  | const c =>
    obtain ⟨d, hd, h⟩ := Option.bind_eq_some_iff.mp h
    cases h
    refine ⟨hc, fun hb => .const (d := d.code) ?_ hb⟩
    show (m.constData c).map ConstData.code = _
    rw [hd]
    rfl
  | arg | global =>
    cases h
    exact ⟨hc, nofun⟩
  | inst r =>
    obtain ⟨d, hd, h⟩ := Option.bind_eq_some_iff.mp h
    refine nonnegInst_spec (d := d.code) ht ?_ hc h
    rw [code_inst, hd]
    rfl

end Rows

/-- The placeholder is a negative answer, so it needs no derivation. -/
theorem isValueNonneg_spec (m : ModuleCore) (fuel : Nat) : m.TestOk (m.isValueNonneg fuel) := by
  induction fuel with
  | zero => exact fun v cache b cache' hc h => by cases h
  | succ fuel ih =>
    intro v cache b cache' hc h
    unfold isValueNonneg at h
    dsimp only at h
    cases hlookup : cache.lookup v with
    | some known =>
      rw [hlookup] at h
      cases h
      exact ⟨hc, fun hb => hc v (by rw [hlookup, hb])⟩
    | none =>
      rw [hlookup] at h
      obtain ⟨⟨result, cache₁⟩, hcompute, h⟩ := Option.bind_eq_some_iff.mp h
      cases h
      have hplaceholder : m.CacheOk (cache.insert v false) := hc.insert nofun
      obtain ⟨hc₁, hv⟩ := computeNonneg_spec ih hplaceholder hcompute
      exact ⟨hc₁.insert hv, hv⟩

end ModuleCore

/-! ## Derivations hold along a run -/

namespace Code

variable {C : Code} {E : IntEnv} {regs regs' : IntRegs} {args : ArgRef → Option IntVal}

/-- A constant with a clear sign bit. -/
theorem signClear_const {d : ConstData} {value : CoreInt} (hk : d.kind = .int value)
    (hwf : value.Wf) (h : ModuleCore.constNonneg d.kind = true) :
    SignClear (IntVal.ofCore value).x := by
  right
  have hpos := hwf.width_pos
  rw [hk, ModuleCore.constNonneg, Bool.or_eq_true, decide_eq_true_eq, Bool.not_eq_true'] at h
  have hbit := h.resolve_left (by omega)
  show (BitVec.ofNat value.bitWidth value.value).msb = false
  rw [BitVec.msb_eq_getLsbD_last, BitVec.getLsbD_ofNat, hbit, Bool.and_false]

/-! What an evaluation says, by kind. -/

section Inversion

variable {d : InstData} {v : IntVal}

theorem Evaluates.binary_inv {op : BinaryOpcode} {lhs rhs : ValueId} (h : C.Evaluates E regs d v)
    (hk : d.kind = .binary op lhs rhs) :
    ∃ (b c : Nat) (x z : BitVec b) (y : BitVec c), d.ty.asInt = some b ∧
      C.readInt E regs lhs = some ⟨b, x⟩ ∧ C.readInt E regs rhs = some ⟨c, y⟩ ∧
      intBinary op x y = some z ∧ v = ⟨b, z⟩ := by
  cases h with
  | binary hk' hty hl hr hz =>
    rw [hk] at hk'
    cases hk'
    exact ⟨_, _, _, _, _, hty, hl, hr, hz, rfl⟩
  | icmp hk' | icmpPtr hk' | select hk' | phi hk' | trunc hk' | zext hk' | sext hk' | «open» hk' =>
    rw [hk] at hk'
    cases hk'

theorem Evaluates.icmp_inv {op : ICmpCode} {lhs rhs : ValueId} (h : C.Evaluates E regs d v)
    (hk : d.kind = .icmp op lhs rhs) : v.bits = 1 := by
  cases h with
  | icmp | icmpPtr => rfl
  | binary hk' | select hk' | phi hk' | trunc hk' | zext hk' | sext hk' | «open» hk' =>
    rw [hk] at hk'
    cases hk'

theorem Evaluates.zext_inv {value : ValueId} (h : C.Evaluates E regs d v)
    (hk : d.kind = .zext value) :
    ∃ (b c : Nat) (x : BitVec c), d.ty.asInt = some b ∧ C.readInt E regs value = some ⟨c, x⟩ ∧
      v = ⟨b, x.setWidth b⟩ := by
  cases h with
  | zext hk' hty hv =>
    rw [hk] at hk'
    cases hk'
    exact ⟨_, _, _, hty, hv, rfl⟩
  | binary hk' | icmp hk' | icmpPtr hk' | select hk' | phi hk' | trunc hk' | sext hk' | «open» hk' =>
    rw [hk] at hk'
    cases hk'

theorem Evaluates.phi_inv {incomings : HashMap Nat PhiIncoming} {idx : Nat}
    (h : C.Evaluates E regs d v) (hk : d.kind = .phi incomings idx) :
    ∃ e ∈ incomings.entries, C.readInt E regs e.2.value = some v := by
  cases h with
  | phi hk' he hv =>
    rw [hk] at hk'
    cases hk'
    exact ⟨_, he, hv⟩
  | binary hk' | icmp hk' | icmpPtr hk' | select hk' | trunc hk' | zext hk' | sext hk' | «open» hk' =>
    rw [hk] at hk'
    cases hk'

theorem Evaluates.select_inv {cond thenVal elseVal : ValueId} (h : C.Evaluates E regs d v)
    (hk : d.kind = .select cond thenVal elseVal) :
    C.readInt E regs thenVal = some v ∨ C.readInt E regs elseVal = some v := by
  cases h with
  | select hk' hc hv =>
    rw [hk] at hk'
    cases hk'
    split at hv
    · exact Or.inr hv
    · exact Or.inl hv
  | binary hk' | icmp hk' | icmpPtr hk' | phi hk' | trunc hk' | zext hk' | sext hk' | «open» hk' =>
    rw [hk] at hk'
    cases hk'

end Inversion

/-- What the derivations say holds of the operands in a state. -/
def HoldsIn (C : Code) (E : IntEnv) (regs : IntRegs) : Prop :=
  ∀ v, C.Derives v → ∀ x, C.readInt E regs v = some x → SignClear x.x

theorem signRow_evaluates {d : InstData} {v : IntVal} {op : BinaryOpcode} {lhs rhs : ValueId}
    (hk : d.kind = .binary op lhs rhs) (hev : C.Evaluates E regs d v)
    (hok : C.OperandsOk E regs d) :
    ∃ x y, C.readInt E regs lhs = some x ∧ C.readInt E regs rhs = some y ∧
      SignRow op (SignClear x.x) (SignClear y.x) (SignClear v.x) := by
  obtain ⟨b, c, x, z, y, -, hl, hr, hz, rfl⟩ := hev.binary_inv hk
  rw [OperandsOk, hk] at hok
  exact ⟨_, _, hl, hr, signRow_binary hz (hok _ _ hl hr)⟩

/-- One evaluation. -/
theorem signClear_evaluates {r : InstRef} {d : InstData} {v : IntVal} (hd : C.inst r = some d)
    (hheld : C.HoldsIn E regs) (hev : C.Evaluates E regs d v) (hok : C.OperandsOk E regs d)
    (h : C.Derives (.inst r)) : SignClear v.x := by
  -- on the derivation: a row of the table for each operator
  cases h with
  | andLeft hd' hk hl =>
    cases hd.symm.trans hd'
    obtain ⟨x, y, hx, hy, hrow⟩ := signRow_evaluates hk hev hok
    exact hrow (Or.inl (hheld _ hl x hx))
  | andRight hd' hk hr =>
    cases hd.symm.trans hd'
    obtain ⟨x, y, hx, hy, hrow⟩ := signRow_evaluates hk hev hok
    exact hrow (Or.inr (hheld _ hr y hy))
  | both hd' hk hop hl hr =>
    cases hd.symm.trans hd'
    obtain ⟨x, y, hx, hy, hrow⟩ := signRow_evaluates hk hev hok
    rcases hop with rfl | rfl | rfl | rfl | rfl <;>
      exact hrow (hheld _ hl x hx) (hheld _ hr y hy)
  | unsigned hd' hk hop =>
    cases hd.symm.trans hd'
    obtain ⟨x, y, hx, hy, hrow⟩ := signRow_evaluates hk hev hok
    rcases hop with rfl | rfl | rfl <;> exact hrow
  | srem hd' hk hl =>
    cases hd.symm.trans hd'
    obtain ⟨x, y, hx, hy, hrow⟩ := signRow_evaluates hk hev hok
    exact hrow (hheld _ hl x hx)
  -- a wider copy has a zero in its top bit
  | zext hd' hk =>
    cases hd.symm.trans hd'
    obtain ⟨b, c, x, hty, hx, rfl⟩ := hev.zext_inv hk
    rw [OperandsOk, hk] at hok
    exact signClear_zext (hok _ b hx hty)
  | icmp hd' hk =>
    cases hd.symm.trans hd'
    exact Or.inl (hev.icmp_inv hk)
  -- the phi holds one of its incomings
  | phi hd' hk hall =>
    cases hd.symm.trans hd'
    obtain ⟨e, he, hv⟩ := hev.phi_inv hk
    exact hheld _ (hall e he) v hv
  -- the select holds one of its two values
  | select hd' hk ht he =>
    cases hd.symm.trans hd'
    rcases hev.select_inv hk with hv | hv
    · exact hheld _ ht v hv
    · exact hheld _ he v hv

/-- Along a run whose steps meet the condition the derivations hold, whatever undefined constants
read as. -/
theorem OkRun.holdsIn (hwf : ∀ c d value, C.constData c = some d → d.kind = .int value → value.Wf)
    (h : C.OkRun args regs) (undef : ConstId → Option IntVal) : C.HoldsIn ⟨args, undef⟩ regs := by
  -- constants are read the same in every state
  have hconst : ∀ {undef : ConstId → Option IntVal} {regs : IntRegs} {c : ConstId},
      C.Derives (.const c) → ∀ x, C.readInt ⟨args, undef⟩ regs (.const c) = some x →
        SignClear x.x := by
    intro undef regs c hder x hx
    cases hder with
    | @const _ d hd hclear =>
      obtain ⟨d', hd', hx⟩ := Option.bind_eq_some_iff.mp hx
      cases hd.symm.trans hd'
      cases hk : d.kind with
      | int value =>
        rw [hk] at hx
        cases hx
        exact signClear_const hk (hwf c d value hd hk) hclear
      | _ =>
        rw [hk] at hclear
        cases hclear
  induction h generalizing undef with
  | start =>
    intro v hder x hx
    cases v with
    | const c => exact hconst hder x hx
    | inst r => cases hx
    | arg a => cases hder
    | global g => cases hder
  | step undef₀ hrun hstep ih =>
    intro v hder x hx
    cases v with
    | const c => exact hconst hder x hx
    | inst r =>
      rcases hstep r with hsame | ⟨d, v, hd, hev, hok, hv⟩
      · exact ih undef _ hder x (hsame.symm.trans hx)
      · have heq : v = x := Option.some.inj (hv.symm.trans hx)
        rw [← heq]
        exact signClear_evaluates hd (ih undef₀) hev hok hder
    | arg a => cases hder
    | global g => cases hder

end Code

end Ir
