import C0mpiler.Ir.CoreBuilder
import C0mpiler.Ir.UseListRun
import C0mpiler.Opt.Algebraic
import Mathlib

/-!
# When algebraic simplification panics

The folders assert that two constants have the same width. `foldWidth` is the width at which an
operand takes part: an undefined constant counts as one bit wide and a null pointer as 32 bits
wide, whatever their types are. An instruction makes `try_simplify_inst` panic exactly where the
two widths of a binary operation or a comparison differ, also in the modules a run of the pass goes
through, with the constants it has added.
-/

namespace Ir

/-- The width of the integer a constant is folded as. -/
def ConstKind.foldWidth : ConstKind → Option Nat
  | .int value => some value.bitWidth
  | .null => some 32
  | .undef => some 1
  | _ => none

namespace Code

variable (C : Code)

def foldWidth : ValueId → Option Nat
  | .const c => (C.constData c).bind fun d => d.kind.foldWidth
  | _ => none

/-- The two operands of a binary operation or a comparison are not constants of two widths. -/
def FoldsAgree : InstKind → Prop
  | .binary _ lhs rhs | .icmp _ lhs rhs =>
    ∀ a b, C.foldWidth lhs = some a → C.foldWidth rhs = some b → a = b
  | _ => True

/-- A constant or a global that is an operand exists. -/
def Known : ValueId → Prop
  | .const c => (C.constData c).isSome
  | .global g => (C.global g).isSome
  | _ => True

/-- What every module has that the front end and the passes build: integers as `CoreInt::new`
makes them, integer types of 1 to 64 bits, and operands and initializers that exist. -/
structure Foldable : Prop where
  consts : ∀ c d value, C.constData c = some d → d.kind = .int value → value.Wf
  types : ∀ i d bits, C.inst i = some d → d.ty.asInt = some bits → 1 ≤ bits ∧ bits ≤ 64
  operands : ∀ i d, C.inst i = some d → ∀ op ∈ d.kind.valueOperands, C.Known op.1
  initializers : ∀ g d isConstant c, C.global g = some d →
    d.kind = .globalVariable isConstant (some c) → (C.constData c).isSome

end Code

/-! ## The folders -/

namespace CoreInt

variable {a b : CoreInt}

theorem assert_of_eq (h : a.bitWidth = b.bitWidth) : a.assertSameBitWidth b = some () :=
  if_pos h

theorem assert_of_ne (h : a.bitWidth ≠ b.bitWidth) : a.assertSameBitWidth b = none :=
  if_neg h

theorem exists_new (h : 1 ≤ a.bitWidth ∧ a.bitWidth ≤ 64) (value : Nat) :
    ∃ c, new value a.bitWidth = some c ∧ c.Wf :=
  ⟨_, new_eq_some h value, wf_of_new (new_eq_some h value)⟩

end CoreInt

namespace ModuleCore

section Folders

variable {a b : CoreInt}

theorem foldBinaryConst_of_ne (op : BinaryOpcode) (h : a.bitWidth ≠ b.bitWidth) :
    foldBinaryConst op a b = none := by
  cases op <;>
    simp only [foldBinaryConst, CoreInt.wrappingAdd, CoreInt.wrappingSub, CoreInt.wrappingMul,
      CoreInt.checkedUdiv, CoreInt.checkedSdiv, CoreInt.checkedUrem, CoreInt.checkedSrem,
      CoreInt.checkedShl, CoreInt.checkedLshr, CoreInt.checkedAshr, CoreInt.bitand, CoreInt.bitor,
      CoreInt.bitxor, CoreInt.assert_of_ne h, Option.bind_eq_bind, Option.bind_none,
      Option.map_none]

/-- With one width the folders return, and what they give is well formed. -/
theorem foldBinaryConst_of_eq (op : BinaryOpcode) (ha : a.Wf) (h : a.bitWidth = b.bitWidth) :
    ∃ s, foldBinaryConst op a b = some s ∧ ∀ c, s = some c → c.Wf := by
  have hw := And.intro ha.width_pos ha.width_le
  -- an operation that always has a value
  have htotal : ∀ value : Nat, ∃ s, (CoreInt.new value a.bitWidth).map some = some s ∧
      ∀ c, s = some c → c.Wf := by
    intro value
    obtain ⟨c, hc, hwf⟩ := CoreInt.exists_new hw value
    exact ⟨some c, by rw [hc]; rfl, fun c' h => by cases h; exact hwf⟩
  -- a checked operation
  have hchecked : ∀ (p : Prop) [Decidable p] (value : Nat), ∃ s,
      (if p then some none else
        (CoreInt.new value a.bitWidth).bind fun c => some (some c)) = some s ∧
      ∀ c, s = some c → c.Wf := by
    intro p _ value
    split
    · exact ⟨none, rfl, fun c h => by cases h⟩
    · obtain ⟨c, hc, hwf⟩ := CoreInt.exists_new hw value
      exact ⟨some c, by rw [hc]; rfl, fun c' h => by cases h; exact hwf⟩
  cases op with
  | add | sub | mul | and | or | xor =>
    simp only [foldBinaryConst, CoreInt.wrappingAdd, CoreInt.wrappingSub, CoreInt.wrappingMul,
      CoreInt.bitand, CoreInt.bitor, CoreInt.bitxor, CoreInt.assert_of_eq h, Option.bind_eq_bind,
      Option.bind_some]
    exact htotal _
  | udiv | urem | sdiv | srem | shl | lshr | ashr =>
    simp only [foldBinaryConst, CoreInt.checkedUdiv, CoreInt.checkedUrem, CoreInt.checkedSdiv,
      CoreInt.checkedSrem, CoreInt.checkedShl, CoreInt.checkedLshr, CoreInt.checkedAshr,
      CoreInt.fromSigned, CoreInt.assert_of_eq h, Option.bind_eq_bind, Option.bind_some]
    exact hchecked _ _

theorem foldICmpConst_of_ne (op : ICmpCode) (h : a.bitWidth ≠ b.bitWidth) :
    foldICmpConst op a b = none := by
  cases op <;>
    simp only [foldICmpConst, CoreInt.cmpEq, CoreInt.cmpNe, CoreInt.cmpUgt, CoreInt.cmpUge,
      CoreInt.cmpUlt, CoreInt.cmpUle, CoreInt.cmpSgt, CoreInt.cmpSge, CoreInt.cmpSlt,
      CoreInt.cmpSle, CoreInt.assert_of_ne h, Option.bind_eq_bind, Option.bind_none]

theorem foldICmpConst_of_eq (op : ICmpCode) (h : a.bitWidth = b.bitWidth) :
    ∃ r, foldICmpConst op a b = some r := by
  cases op <;>
    simp only [foldICmpConst, CoreInt.cmpEq, CoreInt.cmpNe, CoreInt.cmpUgt, CoreInt.cmpUge,
      CoreInt.cmpUlt, CoreInt.cmpUle, CoreInt.cmpSgt, CoreInt.cmpSge, CoreInt.cmpSlt,
      CoreInt.cmpSle, CoreInt.assert_of_eq h, Option.bind_eq_bind, Option.bind_some] <;>
    exact ⟨_, rfl⟩

end Folders

/-! ## Reading operands -/

variable {m : ModuleCore}

theorem constData_of_known {c : ConstId} (h : m.code.Known (.const c)) :
    ∃ d, m.constData c = some d := by
  have hsome : ((m.constData c).map ConstData.code).isSome := h
  rw [Option.isSome_map] at hsome
  exact Option.isSome_iff_exists.mp hsome

theorem foldWidth_const {c : ConstId} {d : ConstData} (h : m.constData c = some d) :
    m.code.foldWidth (.const c) = d.kind.foldWidth := by
  show ((m.constData c).map ConstData.code).bind _ = _
  rw [h]
  rfl

theorem isZeroConst_returns {v : ValueId} (h : m.code.Known v) : ∃ b, m.isZeroConst v = some b := by
  cases v with
  | const c =>
    obtain ⟨d, hd⟩ := constData_of_known h
    rw [isZeroConst, hd]
    cases d with | mk ty kind uses => cases kind <;> exact ⟨_, rfl⟩
  | _ => exact ⟨_, rfl⟩

theorem isOneConst_returns {v : ValueId} (h : m.code.Known v) : ∃ b, m.isOneConst v = some b := by
  cases v with
  | const c =>
    obtain ⟨d, hd⟩ := constData_of_known h
    rw [isOneConst, hd]
    cases d with | mk ty kind uses => cases kind <;> exact ⟨_, rfl⟩
  | _ => exact ⟨_, rfl⟩

theorem isAllOnesConst_returns {v : ValueId} (h : m.code.Known v) (ty : Ty) :
    ∃ b, m.isAllOnesConst v ty = some b := by
  cases v with
  | const c =>
    obtain ⟨d, hd⟩ := constData_of_known h
    rw [isAllOnesConst, hd]
    cases d with
    | mk dty kind uses => cases kind <;> cases ty.asInt <;> exact ⟨_, rfl⟩
  | _ => exact ⟨_, rfl⟩

/-- An operand is read as a well-formed integer of its width, or as none. -/
theorem asIntConst_returns (hm : m.code.Foldable) {v : ValueId} (h : m.code.Known v) :
    ∃ c, m.asIntConst v = some c ∧ c.map CoreInt.bitWidth = m.code.foldWidth v ∧
      ∀ value, c = some value → value.Wf := by
  cases v with
  | const c =>
    obtain ⟨d, hd⟩ := constData_of_known h
    rw [asIntConst, hd, foldWidth_const hd]
    cases hk : d.kind with
    | int value =>
      refine ⟨some value, by simp [hk], rfl, fun value' h => ?_⟩
      cases h
      have hcode : m.code.constData c = some d.code := by
        show (m.constData c).map _ = _
        rw [hd]; rfl
      exact hm.consts c d.code value hcode hk
    | null =>
      have hnew : CoreInt.new 0 32 = some ⟨0, 32⟩ := rfl
      exact ⟨some ⟨0, 32⟩, by simp [hk, hnew], rfl, fun value h => by
        cases h; exact CoreInt.wf_of_new hnew⟩
    | undef =>
      have hnew : CoreInt.new 0 1 = some ⟨0, 1⟩ := rfl
      exact ⟨some ⟨0, 1⟩, by simp [hk, hnew], rfl, fun value h => by
        cases h; exact CoreInt.wf_of_new hnew⟩
    | array _ | struct _ | string _ => exact ⟨none, by simp [hk], rfl, nofun⟩
  | _ => exact ⟨none, rfl, rfl, nofun⟩

/-! ## What a simplification gives -/

/-- A replacement is a value of the module, or a constant added to it. -/
def Found (m : ModuleCore) (found : ValueId × ModuleCore) : Prop :=
  (found.2 = m ∧ m.code.Known found.1) ∨
    ∃ ty kind, found = m.newConst ty kind ∧ ∀ value, kind = .int value → value.Wf

/-- The function returns, with a replacement or without one. -/
def Safe (m : ModuleCore) (r : Option Simplified) : Prop :=
  ∃ s, r = some s ∧ ∀ found, s = some found → m.Found found

namespace Safe

theorem nothing : m.Safe (some none) :=
  ⟨none, rfl, nofun⟩

theorem keep {v : ValueId} (h : m.code.Known v) : m.Safe (some (some (v, m))) :=
  ⟨_, rfl, fun _ heq => by cases heq; exact Or.inl ⟨rfl, h⟩⟩

theorem added {ty : Ty} {kind : ConstKind} (h : ∀ value, kind = .int value → value.Wf) :
    m.Safe (some (some (m.newConst ty kind))) :=
  ⟨_, rfl, fun _ heq => by cases heq; exact Or.inr ⟨ty, kind, rfl, h⟩⟩

theorem int {ty : Ty} {value : CoreInt} (h : value.Wf) :
    m.Safe (some (some (m.newConst ty (.int value)))) :=
  added fun _ heq => by cases heq; exact h

theorem ite {p : Prop} [Decidable p] {t e : Option Simplified} (ht : m.Safe t) (he : m.Safe e) :
    m.Safe (if p then t else e) := by
  split
  · exact ht
  · exact he

/-- A branch on a test that returns. -/
theorem test {c : Option Bool} {t e : Option Simplified} (hc : ∃ b, c = some b) (ht : m.Safe t)
    (he : m.Safe e) : m.Safe (c >>= fun b => if b = true then t else e) := by
  obtain ⟨b, rfl⟩ := hc
  exact ite ht he

theorem test_or {c c' : Option Bool} {t e : Option Simplified} (hc : ∃ b, c = some b)
    (hc' : ∃ b, c' = some b) (ht : m.Safe t) (he : m.Safe e) :
    m.Safe (c >>= fun b => c' >>= fun b' => if (b || b') = true then t else e) := by
  obtain ⟨b, rfl⟩ := hc
  obtain ⟨b', rfl⟩ := hc'
  exact ite ht he

end Safe

/-- The types whose integers have 1 to 64 bits. -/
def IntSized (ty : Ty) : Prop :=
  ∀ bits, ty.asInt = some bits → 1 ≤ bits ∧ bits ≤ 64

theorem makeIntConst_safe {ty : Ty} (hty : IntSized ty) (value : Nat → Nat) :
    m.Safe (m.makeIntConst value ty) := by
  rw [makeIntConst]
  split
  · next bits hbits =>
    have hnew := CoreInt.new_eq_some (hty bits hbits) (value bits)
    rw [hnew]
    exact Safe.int (CoreInt.wf_of_new hnew)
  · exact Safe.nothing

section Identities

variable {lhs rhs : ValueId} {ty : Ty}

/-- None of the identities panics. -/
theorem simplifyIdentity_safe (hl : m.code.Known lhs) (hr : m.code.Known rhs) (hty : IntSized ty)
    (op : BinaryOpcode) : m.Safe (m.simplifyIdentity op lhs rhs ty) := by
  have hzero : m.Safe (m.makeZeroConst ty) := makeIntConst_safe hty _
  have hones : m.Safe (m.makeAllOnesConst ty) := makeIntConst_safe hty _
  have hlz := isZeroConst_returns hl
  have hrz := isZeroConst_returns hr
  have hlo := isOneConst_returns hl
  have hro := isOneConst_returns hr
  have hla := isAllOnesConst_returns hl ty
  have hra := isAllOnesConst_returns hr ty
  cases op with
  | add => exact .test hrz (.keep hl) (.test hlz (.keep hr) .nothing)
  | sub => exact .test hrz (.keep hl) (.ite hzero .nothing)
  | mul => exact .test hro (.keep hl) (.test hlo (.keep hr) (.test_or hrz hlz hzero .nothing))
  | udiv | sdiv => exact .test hro (.keep hl) (.test hlz hzero .nothing)
  | urem | srem => exact .test_or hro hlz hzero .nothing
  | and =>
    exact .test_or hrz hlz hzero
      (.test hra (.keep hl) (.test hla (.keep hr) (.ite (.keep hl) .nothing)))
  | or =>
    exact .test hrz (.keep hl)
      (.test hlz (.keep hr) (.test_or hra hla hones (.ite (.keep hl) .nothing)))
  | xor => exact .test hrz (.keep hl) (.test hlz (.keep hr) (.ite hzero .nothing))
  | shl | lshr | ashr => exact .test hrz (.keep hl) (.test hlz hzero .nothing)

/-! ## The instructions -/

variable (hm : m.code.Foldable) (hl : m.code.Known lhs) (hr : m.code.Known rhs)
  (hty : IntSized ty)

include hm hl hr in
/-- Both operands read: either they are constants of two widths, or of one, or not both are. -/
theorem operands_cases : ∃ a b, m.asIntConst lhs = some a ∧ m.asIntConst rhs = some b ∧
    ((∃ x y, a = some x ∧ b = some y ∧ x.Wf ∧ m.code.foldWidth lhs = some x.bitWidth ∧
        m.code.foldWidth rhs = some y.bitWidth) ∨
      (a = none ∨ b = none) ∧ (m.code.foldWidth lhs = none ∨ m.code.foldWidth rhs = none)) := by
  obtain ⟨a, ha, hwa, hwf⟩ := asIntConst_returns hm hl
  obtain ⟨b, hb, hwb, -⟩ := asIntConst_returns hm hr
  refine ⟨a, b, ha, hb, ?_⟩
  cases a with
  | none => exact Or.inr ⟨Or.inl rfl, Or.inl hwa.symm⟩
  | some x =>
    cases b with
    | none => exact Or.inr ⟨Or.inr rfl, Or.inr hwb.symm⟩
    | some y => exact Or.inl ⟨x, y, rfl, rfl, hwf x rfl, hwa.symm, hwb.symm⟩

include hm hl hr hty in
theorem trySimplifyBinary_cases (op : BinaryOpcode) :
    (m.code.FoldsAgree (.binary op lhs rhs) ∧ m.Safe (m.trySimplifyBinary op lhs rhs ty)) ∨
      (¬ m.code.FoldsAgree (.binary op lhs rhs) ∧ m.trySimplifyBinary op lhs rhs ty = none) := by
  obtain ⟨a, b, ha, hb, ⟨x, y, rfl, rfl, hx, hwx, hwy⟩ | ⟨hnone, hwidth⟩⟩ := operands_cases hm hl hr
  -- both constants: the fold asserts equal widths
  · have hrun : m.trySimplifyBinary op lhs rhs ty = m.foldBinaryConstAlg op x y ty := by
      simp only [trySimplifyBinary, ha, hb, Option.bind_eq_bind, Option.bind_some]
    by_cases hw : x.bitWidth = y.bitWidth
    · refine Or.inl ⟨fun w w' hw₁ hw₂ => ?_, ?_⟩
      · rw [hwx, Option.some.injEq] at hw₁
        rw [hwy, Option.some.injEq] at hw₂
        rw [← hw₁, ← hw₂, hw]
      · obtain ⟨s, hs, hwf⟩ := foldBinaryConst_of_eq op hx hw
        rw [hrun, foldBinaryConstAlg, hs]
        cases s with
        | none => exact .nothing
        | some c => exact .int (hwf c rfl)
    · refine Or.inr ⟨fun hagree => hw (hagree _ _ hwx hwy), ?_⟩
      rw [hrun, foldBinaryConstAlg, foldBinaryConst_of_ne op hw]
      rfl
  -- no two constants: only identities are tried, and the widths cannot both be known
  · refine Or.inl ⟨fun w w' hw₁ hw₂ => ?_, ?_⟩
    · rcases hwidth with h | h
      · rw [h] at hw₁; cases hw₁
      · rw [h] at hw₂; cases hw₂
    · have hrun : m.trySimplifyBinary op lhs rhs ty = m.simplifyIdentity op lhs rhs ty := by
        rw [trySimplifyBinary, ha, hb]
        rcases hnone with rfl | rfl
        · rfl
        · cases a <;> rfl
      rw [hrun]
      exact simplifyIdentity_safe hl hr hty op

include hm hl hr hty in
theorem trySimplifyIcmp_cases (op : ICmpCode) :
    (m.code.FoldsAgree (.icmp op lhs rhs) ∧ m.Safe (m.trySimplifyIcmp op lhs rhs ty)) ∨
      (¬ m.code.FoldsAgree (.icmp op lhs rhs) ∧ m.trySimplifyIcmp op lhs rhs ty = none) := by
  obtain ⟨a, b, ha, hb, ⟨x, y, rfl, rfl, -, hwx, hwy⟩ | ⟨hnone, hwidth⟩⟩ := operands_cases hm hl hr
  -- both constants: the fold asserts equal widths
  · have hrun : m.trySimplifyIcmp op lhs rhs ty =
        foldICmpConst op x y >>= fun result => m.makeBoolConst result ty := by
      simp only [trySimplifyIcmp, ha, hb, Option.bind_eq_bind, Option.bind_some]
    by_cases hw : x.bitWidth = y.bitWidth
    · refine Or.inl ⟨fun w w' hw₁ hw₂ => ?_, ?_⟩
      · rw [hwx, Option.some.injEq] at hw₁
        rw [hwy, Option.some.injEq] at hw₂
        rw [← hw₁, ← hw₂, hw]
      · obtain ⟨r, hrr⟩ := foldICmpConst_of_eq op hw
        rw [hrun, hrr]
        exact makeIntConst_safe hty _
    · refine Or.inr ⟨fun hagree => hw (hagree _ _ hwx hwy), ?_⟩
      rw [hrun, foldICmpConst_of_ne op hw]
      rfl
  -- no two constants: only comparisons of a value with itself
  · refine Or.inl ⟨fun w w' hw₁ hw₂ => ?_, ?_⟩
    · rcases hwidth with h | h
      · rw [h] at hw₁; cases hw₁
      · rw [h] at hw₂; cases hw₂
    · have hrun : m.trySimplifyIcmp op lhs rhs ty =
          if lhs = rhs then m.makeBoolConst (icmpSelf op) ty else some none := by
        rw [trySimplifyIcmp, ha, hb]
        rcases hnone with rfl | rfl
        · rfl
        · cases a <;> rfl
      rw [hrun]
      exact .ite (makeIntConst_safe hty _) .nothing

end Identities

theorem trySimplifySelect_safe (hm : m.code.Foldable) {cond thenVal elseVal : ValueId}
    (hc : m.code.Known cond) (ht : m.code.Known thenVal) (he : m.code.Known elseVal) :
    m.Safe (m.trySimplifySelect cond thenVal elseVal) := by
  obtain ⟨c, hread, -, -⟩ := asIntConst_returns hm hc
  rw [trySimplifySelect, hread]
  refine .ite (.keep ht) ?_
  cases c with
  | none => exact .nothing
  | some c => exact .ite (.keep ht) (.keep he)

theorem trySimplifyPhi_safe {incomings : HashMap Nat PhiIncoming} {idx : Nat}
    (h : ∀ op ∈ (InstKind.phi incomings idx).valueOperands, m.code.Known op.1) :
    m.Safe (m.trySimplifyPhi incomings) := by
  rw [trySimplifyPhi]
  split
  · exact .nothing
  · next first values hvalues =>
    refine .ite (.keep ?_) .nothing
    obtain ⟨e, he, rfl⟩ : ∃ e ∈ incomings.entries, e.2.value = first :=
      List.mem_map.mp (by rw [hvalues]; exact List.mem_cons_self)
    exact h (e.2.value, .phiIncomingVal e.1) (List.mem_map.mpr ⟨e, he, rfl⟩)

theorem tryFoldConstGlobalLoad_safe (hm : m.code.Foldable) {ptr : ValueId}
    (hp : m.code.Known ptr) (ty : Ty) : m.Safe (m.tryFoldConstGlobalLoad ptr ty) := by
  cases ptr with
  | global g =>
    have hsome : ((m.global g).map GlobalData.code).isSome := hp
    rw [Option.isSome_map] at hsome
    obtain ⟨gd, hgd⟩ := Option.isSome_iff_exists.mp hsome
    rw [tryFoldConstGlobalLoad, hgd]
    simp only [Option.bind_eq_bind, Option.bind_some]
    split
    · next initializer hkind =>
      have hcode : m.code.global g = some gd.code := by
        show (m.global g).map _ = _
        rw [hgd]; rfl
      obtain ⟨d, hd⟩ := constData_of_known (c := initializer)
        (hm.initializers g gd.code true initializer hcode hkind)
      rw [hd, Option.bind_some]
      split
      · next value hk =>
        have hdcode : m.code.constData initializer = some d.code := by
          show (m.constData initializer).map _ = _
          rw [hd]; rfl
        exact .ite (.int (hm.consts initializer d.code value hdcode hk)) .nothing
      · exact .ite (.added nofun) .nothing
      · exact .nothing
    · exact .nothing
  | _ => exact .nothing

section Casts

variable (hm : m.code.Foldable) {value : ValueId} (hv : m.code.Known value) {ty : Ty}
  (hty : IntSized ty)

include hm hv hty

theorem tryFoldTrunc_safe : m.Safe (m.tryFoldTrunc value ty) := by
  obtain ⟨c, hread, -, hwf⟩ := asIntConst_returns hm hv
  rw [tryFoldTrunc, hread]
  cases c with
  | none => exact .nothing
  | some c =>
    cases hbits : ty.asInt with
    | none => exact .nothing
    | some bits =>
      simp only [Option.bind_eq_bind, Option.bind_some]
      split
      · exact .keep hv
      · next hlt =>
        have hnew := CoreInt.new_eq_some (hty bits hbits) c.value
        rw [CoreInt.truncTo, if_pos (by omega), hnew]
        exact .int (CoreInt.wf_of_new hnew)

theorem tryFoldExtend_safe {extend : CoreInt → Nat → Option CoreInt}
    (hextend : ∀ (c : CoreInt) (bits : Nat), c.bitWidth < bits → 1 ≤ bits ∧ bits ≤ 64 →
      ∃ r, extend c bits = some r ∧ r.Wf) : m.Safe (m.tryFoldExtend extend value ty) := by
  obtain ⟨c, hread, -, -⟩ := asIntConst_returns hm hv
  rw [tryFoldExtend, hread]
  cases c with
  | none => exact .nothing
  | some c =>
    cases hbits : ty.asInt with
    | none => exact .nothing
    | some bits =>
      simp only [Option.bind_eq_bind, Option.bind_some]
      split
      · exact .keep hv
      · next hlt =>
        obtain ⟨r, hr, hwf⟩ := hextend c bits (by omega) (hty bits hbits)
        rw [hr]
        exact .int hwf

theorem tryFoldZext_safe : m.Safe (m.tryFoldZext value ty) := by
  refine tryFoldExtend_safe hm hv hty fun c bits hlt hbits => ?_
  have hnew := CoreInt.new_eq_some hbits c.value
  exact ⟨_, by rw [CoreInt.zeroExtend, if_pos hlt.le, hnew], CoreInt.wf_of_new hnew⟩

theorem tryFoldSext_safe : m.Safe (m.tryFoldSext value ty) := by
  refine tryFoldExtend_safe hm hv hty fun c bits hlt hbits => ?_
  rw [CoreInt.signExtend, if_neg (by omega), if_neg (by omega)]
  split
  · have hnew := CoreInt.new_eq_some hbits (c.value + (2 ^ 64 - 2 ^ c.bitWidth))
    exact ⟨_, hnew, CoreInt.wf_of_new hnew⟩
  · have hnew := CoreInt.new_eq_some hbits c.value
    exact ⟨_, hnew, CoreInt.wf_of_new hnew⟩

omit hm in
theorem tryFoldPtrToInt_safe : m.Safe (m.tryFoldPtrToInt value ty) := by
  cases value with
  | const c =>
    obtain ⟨d, hd⟩ := constData_of_known hv
    rw [tryFoldPtrToInt, hd]
    simp only [Option.bind_eq_bind, Option.bind_some]
    split
    · exact makeIntConst_safe hty _
    · exact .nothing
  | _ => exact .nothing

end Casts

/-- Looking at an instruction returns unless two constants of different widths are folded. -/
theorem trySimplifyInst_cases (hm : m.code.Foldable) {i : InstRef} {d : InstData}
    (hd : m.inst i = some d) :
    (m.code.FoldsAgree d.kind ∧ m.Safe (m.trySimplifyInst i)) ∨
      (¬ m.code.FoldsAgree d.kind ∧ m.trySimplifyInst i = none) := by
  have hcode : m.code.inst i = some d.code := code_inst_of_inst hd
  have hops : ∀ op ∈ d.kind.valueOperands, m.code.Known op.1 := hm.operands i d.code hcode
  have hty : IntSized d.ty := fun bits hbits => hm.types i d.code bits hcode hbits
  rw [trySimplifyInst, hd]
  simp only [Option.bind_eq_bind, Option.bind_some]
  -- the kinds that fold; the others find nothing
  cases hk : d.kind with
  | binary op lhs rhs =>
    rw [hk] at hops
    exact trySimplifyBinary_cases hm (hops (lhs, .binaryLhs) (by simp [InstKind.valueOperands]))
      (hops (rhs, .binaryRhs) (by simp [InstKind.valueOperands])) hty op
  | icmp op lhs rhs =>
    rw [hk] at hops
    exact trySimplifyIcmp_cases hm (hops (lhs, .icmpLhs) (by simp [InstKind.valueOperands]))
      (hops (rhs, .icmpRhs) (by simp [InstKind.valueOperands])) hty op
  | select cond thenVal elseVal =>
    rw [hk] at hops
    exact Or.inl ⟨trivial, trySimplifySelect_safe hm
      (hops (cond, .selectCond) (by simp [InstKind.valueOperands]))
      (hops (thenVal, .selectThenVal) (by simp [InstKind.valueOperands]))
      (hops (elseVal, .selectElseVal) (by simp [InstKind.valueOperands]))⟩
  | phi incomings idx =>
    rw [hk] at hops
    exact Or.inl ⟨trivial, trySimplifyPhi_safe hops⟩
  | load ptr =>
    rw [hk] at hops
    exact Or.inl ⟨trivial, tryFoldConstGlobalLoad_safe hm
      (hops (ptr, .loadPtr) (by simp [InstKind.valueOperands])) d.ty⟩
  | trunc value =>
    rw [hk] at hops
    exact Or.inl ⟨trivial, tryFoldTrunc_safe hm
      (hops (value, .truncVal) (by simp [InstKind.valueOperands])) hty⟩
  | zext value =>
    rw [hk] at hops
    exact Or.inl ⟨trivial, tryFoldZext_safe hm
      (hops (value, .zextVal) (by simp [InstKind.valueOperands])) hty⟩
  | sext value =>
    rw [hk] at hops
    exact Or.inl ⟨trivial, tryFoldSext_safe hm
      (hops (value, .sextVal) (by simp [InstKind.valueOperands])) hty⟩
  | ptrToInt ptr =>
    rw [hk] at hops
    exact Or.inl ⟨trivial, tryFoldPtrToInt_safe
      (hops (ptr, .ptrToIntPtr) (by simp [InstKind.valueOperands])) hty⟩
  | _ => exact Or.inl ⟨trivial, .nothing⟩

end ModuleCore

/-! ## What a run keeps -/

namespace Code

variable {C C' : Code}

/-- Constants and globals stay, and each instruction has its kind and type from before. -/
structure Lessens (C C' : Code) : Prop where
  constData : C'.constData = C.constData
  global : C'.global = C.global
  inst : ∀ r d', C'.inst r = some d' → ∃ d, C.inst r = some d ∧ d'.kind = d.kind ∧ d'.ty = d.ty

theorem Lessens.refl (C : Code) : C.Lessens C :=
  ⟨rfl, rfl, fun _ d' hd' => ⟨d', hd', rfl, rfl⟩⟩

theorem Lessens.removeInst (h : C.Lessens C') (i : InstRef) : C.Lessens (C'.removeInst i) := by
  refine ⟨h.constData, h.global, fun r d' hd' => h.inst r d' ?_⟩
  by_cases hr : r = i
  · subst hr
    simp [Code.removeInst] at hd'
  · rwa [removeInst_inst_of_ne hr] at hd'

theorem Lessens.known (h : C.Lessens C') {v : ValueId} (hv : C.Known v) : C'.Known v := by
  cases v with
  | const c => rw [Known, h.constData]; exact hv
  | global g => rw [Known, h.global]; exact hv
  | _ => trivial

theorem Foldable.lessens (hC : C.Foldable) (h : C.Lessens C') : C'.Foldable where
  consts c d value hd hk := hC.consts c d value (h.constData ▸ hd) hk
  types i d' bits hd' hbits := by
    obtain ⟨d, hd, -, hty⟩ := h.inst i d' hd'
    exact hC.types i d bits hd (hty ▸ hbits)
  operands i d' hd' op hop := by
    obtain ⟨d, hd, hkind, -⟩ := h.inst i d' hd'
    exact h.known (hC.operands i d hd op (hkind ▸ hop))
  initializers g d isConstant c hd hk := by
    rw [h.constData]
    exact hC.initializers g d isConstant c (h.global ▸ hd) hk

/-- Substituting an operand that is known. -/
theorem Foldable.mapOperands (hC : C.Foldable) {f : ValueId → ValueId}
    (hf : ∀ v, C.Known v → C.Known (f v)) : (C.mapOperands f).Foldable := by
  have hinst : ∀ r d', (C.mapOperands f).inst r = some d' → ∃ d, C.inst r = some d ∧
      d'.ty = d.ty ∧ (d'.kind = d.kind ∨ d'.kind = d.kind.mapOperands f) := by
    intro r d' hd'
    obtain ⟨d, hd, hty, -, hkind⟩ := inst_of_mapOperands hd'
    refine ⟨d, hd, hty, ?_⟩
    split at hkind
    · exact Or.inr hkind
    · exact Or.inl hkind
  refine ⟨hC.consts, fun i d' bits hd' hbits => ?_, fun i d' hd' op hop => ?_, hC.initializers⟩
  · obtain ⟨d, hd, hty, -⟩ := hinst i d' hd'
    exact hC.types i d bits hd (hty ▸ hbits)
  · obtain ⟨d, hd, -, hkind | hkind⟩ := hinst i d' hd'
    · exact hC.operands i d hd op (hkind ▸ hop)
    · rw [hkind, InstKind.valueOperands_mapOperands] at hop
      obtain ⟨op', hop', rfl⟩ := List.mem_map.mp hop
      exact hf op'.1 (hC.operands i d hd op' hop')

end Code

namespace ModuleCore

variable {m m' : ModuleCore}

theorem known_of_grows {v : ValueId} (h : m.code.Grows m'.code) (hv : m.code.Known v) :
    m'.code.Known v := by
  cases v with
  | const c =>
    obtain ⟨d, hd⟩ := Option.isSome_iff_exists.mp hv
    exact Option.isSome_iff_exists.mpr ⟨d, h.constData c d hd⟩
  | global g => rw [Code.Known, h.global]; exact hv
  | _ => trivial

theorem foldable_addConst (hm : m.code.Foldable) {ty : Ty} {kind : ConstKind}
    (hkind : ∀ value, kind = .int value → value.Wf) : (m.addConst ty kind).2.code.Foldable := by
  have hgrows := grows_addConst m ty kind
  refine ⟨fun c d value hd hk => ?_, hm.types, fun i d hd op hop => ?_,
    fun g d isConstant c hd hk => ?_⟩
  · by_cases hc : c = m.consts.next
    · subst hc
      rw [constData_addConst] at hd
      cases hd
      exact hkind value hk
    · refine hm.consts c d value ?_ hk
      obtain ⟨d', hd', heq⟩ := Option.map_eq_some_iff.mp hd
      change (m.consts.insert _).get? c = some d' at hd'
      rw [SlotMap.get?_insert, if_neg hc] at hd'
      exact Option.map_eq_some_iff.mpr ⟨d', hd', heq⟩
  · exact known_of_grows hgrows (hm.operands i d hd op hop)
  · exact known_of_grows (v := .const c) hgrows (hm.initializers g d isConstant c hd hk)

/-- A module with its simplification: both the module and the value are as before. -/
theorem Found.foldable {found : ValueId × ModuleCore} (h : m.Found found) (hm : m.code.Foldable)
    (hindexed : m.Indexed) :
    found.2.code.Foldable ∧ found.2.Indexed ∧ found.2.code.Known found.1 := by
  obtain ⟨heq, hknown⟩ | ⟨ty, kind, rfl, hkind⟩ := h
  · rw [heq]
    exact ⟨hm, hindexed, hknown⟩
  · refine ⟨foldable_addConst hm hkind, (addConst_spec ty kind).indexed hindexed, ?_⟩
    exact Option.isSome_iff_exists.mpr ⟨_, constData_addConst m ty kind⟩

theorem eraseInstFromParent_lessens (hm : m.Indexed) {i : InstRef}
    (hrun : m.eraseInstFromParent i = some m') : m.code.Lessens m'.code ∧ m'.Indexed := by
  obtain ⟨hreg, -, hparents⟩ := eraseInstFromParent_spec hm hrun
  refine ⟨?_, hreg.congr rfl rfl (inserted_update_none hparents) fun _ _ => rfl⟩
  have hrun' := hrun
  simp only [eraseInstFromParent, Option.bind_eq_bind, Option.bind_eq_some_iff,
    Option.guard_eq_some'] at hrun'
  obtain ⟨-, -, -, -, m₁, hdetach, heq⟩ := hrun'
  obtain ⟨m₀, hunreg, hdetach⟩ := Option.bind_eq_some_iff.mp hdetach
  obtain ⟨d₀, hd₀, hdetach⟩ := Option.bind_eq_some_iff.mp hdetach
  have hsame := unregisterInstUse_sameCode hunreg
  obtain ⟨d, hd, hcode⟩ := hsame.inst_some hd₀
  have hparent : d₀.code.parent = d.code.parent := congrArg InstData.parent hcode
  change d₀.parent = d.parent at hparent
  cases hp : d.parent with
  | some b =>
    rw [(eraseInstFromParent_code hd hp hrun).2]
    have hblock : m.code.Lessens (m.code.updBlock b (·.without i.inst)) :=
      ⟨rfl, rfl, fun _ d' hd' => ⟨d', hd', rfl, rfl⟩⟩
    exact hblock.removeInst i
  | none =>
    -- a detached instruction is in no block
    rw [hparent, hp] at hdetach
    cases hdetach
    cases heq
    rw [code_removeInst, hsame.code_eq]
    exact (Code.Lessens.refl _).removeInst i

/-- One turn of the loop keeps what folding needs. -/
theorem simplifyStep_foldable (hm : m.code.Foldable) (hindexed : m.Indexed) {i : InstRef}
    {users : List InstRef} (hrun : m.simplifyStep i = some (users, m')) :
    m'.code.Foldable ∧ m'.Indexed := by
  obtain ⟨s, hs, hrun⟩ := Option.bind_eq_some_iff.mp hrun
  cases s with
  | none =>
    cases hrun
    exact ⟨hm, hindexed⟩
  | some found =>
    obtain ⟨m₁, hm₁, hrun⟩ := Option.bind_eq_some_iff.mp hrun
    obtain ⟨uses, -, hrun⟩ := Option.bind_eq_some_iff.mp hrun
    obtain ⟨m₂, herase, hrun⟩ := Option.bind_eq_some_iff.mp hrun
    cases hrun
    obtain ⟨d, hd, -⟩ := Option.bind_eq_some_iff.mp hs
    -- the simplification is safe where it is found
    obtain ⟨-, s', hs', hfound⟩ | ⟨-, hnone⟩ := trySimplifyInst_cases hm hd
    · rw [hs, Option.some.injEq] at hs'
      obtain ⟨hfold, hidx, hknown⟩ := (hfound found hs'.symm).foldable hm hindexed
      have hfold₁ : m₁.code.Foldable := by
        rw [replaceAllUsesWith_code hidx hm₁]
        refine hfold.mapOperands fun v hv => ?_
        rw [substValue]
        split
        · exact hknown
        · exact hv
      have hidx₁ := replaceAllUsesWith_indexed hidx hm₁
      obtain ⟨left, -, herase⟩ := Option.bind_eq_some_iff.mp herase
      split at herase
      · obtain ⟨hlessens, hidx₂⟩ := eraseInstFromParent_lessens hidx₁ herase
        exact ⟨hfold₁.lessens hlessens, hidx₂⟩
      · cases herase
        exact ⟨hfold₁, hidx₁⟩
    -- a fold that asserts does not give a module
    · rw [hs] at hnone
      cases hnone

/-- The modules that turns of the loop lead to, at whatever instructions. -/
def SimplifyRun (m m' : ModuleCore) : Prop :=
  Relation.ReflTransGen (fun m m' => ∃ i users, m.simplifyStep i = some (users, m')) m m'

theorem SimplifyRun.foldable (h : SimplifyRun m m') (hm : m.code.Foldable)
    (hindexed : m.Indexed) : m'.code.Foldable ∧ m'.Indexed := by
  induction h with
  | refl => exact ⟨hm, hindexed⟩
  | tail _ hstep ih =>
    obtain ⟨i, users, hrun⟩ := hstep
    exact simplifyStep_foldable ih.1 ih.2 hrun

/-- The loop goes through such modules only. -/
theorem simplifyLoop_run {fuel : Nat} {workList : List InstRef}
    (hrun : m.simplifyLoop fuel workList = some m') : SimplifyRun m m' := by
  induction fuel generalizing m workList with
  | zero => cases hrun
  | succ fuel ih =>
    cases workList with
    | nil =>
      cases hrun
      exact .refl
    | cons i workList =>
      obtain ⟨fd, -, hrun⟩ := Option.bind_eq_some_iff.mp hrun
      split at hrun
      · obtain ⟨⟨users, m₁⟩, hstep, hrun⟩ := Option.bind_eq_some_iff.mp hrun
        exact .head ⟨i, users, hstep⟩ (ih hrun)
      · exact ih hrun

/-- The pass over one function is such a run. -/
theorem funcAlgebraicSimplification_run {slots : SlotOrder} {fuel : Nat} {id : FunctionId}
    (hrun : m.funcAlgebraicSimplification slots fuel id = some m') : SimplifyRun m m' := by
  obtain ⟨function, -, hrun⟩ := Option.bind_eq_some_iff.mp hrun
  split at hrun
  · cases hrun
    exact .refl
  · exact simplifyLoop_run hrun

/-- Wherever a run of the pass has come to, looking at an instruction panics exactly if it is a
binary operation or a comparison of two constants of different widths. -/
theorem trySimplifyInst_returns_iff (hm : m.code.Foldable) (hindexed : m.Indexed)
    (hrun : SimplifyRun m m') {i : InstRef} {d : InstData} (hd : m'.inst i = some d) :
    (m'.trySimplifyInst i).isSome ↔ m'.code.FoldsAgree d.kind := by
  obtain ⟨hagree, s, hs, -⟩ | ⟨hnot, hnone⟩ := trySimplifyInst_cases (hrun.foldable hm hindexed).1 hd
  · rw [hs]
    exact ⟨fun _ => hagree, fun _ => rfl⟩
  · rw [hnone]
    exact ⟨fun h => (Bool.false_ne_true h).elim, fun h => absurd h hnot⟩

/-! ## A shift by an amount of another width -/

/-- Whether the integer of a constant is well formed. -/
def constOk : ConstKind → Bool
  | .int value => 1 ≤ value.bitWidth && value.bitWidth ≤ 64 && value.value < 2 ^ value.bitWidth
  | _ => true

/-- Whether an operand is known in a module without globals. -/
def operandOk (m : ModuleCore) : ValueId → Bool
  | .const c => c ∈ m.consts.keys
  | .global _ => false
  | _ => true

theorem known_of_operandOk {v : ValueId} (h : m.operandOk v = true) : m.code.Known v := by
  cases v with
  | const c =>
    have hget := SlotMap.mem_keys.mp (of_decide_eq_true h)
    show ((m.constData c).map ConstData.code).isSome
    rw [Option.isSome_map]
    exact hget
  | global g => cases h
  | _ => trivial

/-- A module without globals, checked record by record. -/
theorem foldable_of_keys (hglobals : m.globals = .empty)
    (hconsts : ∀ c ∈ m.consts.keys, ∀ d ∈ m.constData c, constOk d.kind = true)
    (hinsts : ∀ f ∈ m.functions.keys, ∀ fd ∈ m.func f, ∀ i ∈ fd.insts.keys,
      ∀ d ∈ fd.insts.get? i, (∀ bits ∈ d.ty.asInt, 1 ≤ bits ∧ bits ≤ 64) ∧
        ∀ op ∈ d.kind.valueOperands, m.operandOk op.1 = true) : m.code.Foldable := by
  have hinst : ∀ i d, m.code.inst i = some d → (∀ bits ∈ d.ty.asInt, 1 ≤ bits ∧ bits ≤ 64) ∧
      ∀ op ∈ d.kind.valueOperands, m.operandOk op.1 = true := by
    intro i d hd
    obtain ⟨d', hd', rfl⟩ := Option.map_eq_some_iff.mp hd
    obtain ⟨fd, hfd, hget⟩ := Option.bind_eq_some_iff.mp hd'
    exact hinsts i.func (SlotMap.mem_keys.mpr (Option.isSome_iff_exists.mpr ⟨fd, hfd⟩)) fd hfd i.inst
      (SlotMap.mem_keys.mpr (Option.isSome_iff_exists.mpr ⟨d', hget⟩)) d' hget
  refine ⟨fun c d value hd hk => ?_, fun i d bits hd hbits => (hinst i d hd).1 bits hbits,
    fun i d hd op hop => known_of_operandOk ((hinst i d hd).2 op hop), fun g d _ _ hd => ?_⟩
  · obtain ⟨d', hd', rfl⟩ := Option.map_eq_some_iff.mp hd
    have hok := hconsts c (SlotMap.mem_keys.mpr (Option.isSome_iff_exists.mpr ⟨d', hd'⟩)) d' hd'
    have hk' : d'.kind = .int value := hk
    rw [hk', constOk, Bool.and_eq_true, Bool.and_eq_true, decide_eq_true_eq, decide_eq_true_eq,
      decide_eq_true_eq] at hok
    exact ⟨hok.1.1, hok.1.2, hok.2⟩
  · have hnone : m.code.global g = none := by
      show (m.globals.get? g).map GlobalData.code = none
      rw [hglobals]
      rfl
    rw [hnone] at hd
    cases hd

/-- `1usize << 3` with a literal of this many bits as the amount. -/
def shiftEdits (bits : Nat) : List Edit :=
  [.addConst (.int 64) (.int ⟨1, 64⟩), .addConst (.int bits) (.int ⟨3, bits⟩),
    .createFunction "f" ⟨.int 64, []⟩,
    .newInst 1 (.int 64) (.binary .shl (.const 1) (.const 2)) none, .appendInst ⟨1, 1⟩ ⟨1, 1⟩]

def shiftModule (bits : Nat) : ModuleCore := (runEdits (shiftEdits bits)).getD ModuleCore.new

theorem shiftModule_indexed {bits : Nat}
    (hrun : runEdits (shiftEdits bits) = some (shiftModule bits)) : (shiftModule bits).Indexed :=
  (reachable_of_plain (by simp [shiftEdits, Edit.plain]) hrun).indexed

/-- The shift of `shiftModule`. -/
def shiftInst : InstData :=
  ⟨some ⟨1, 1⟩, .int 64, .binary .shl (.const 1) (.const 2), [], none⟩

theorem trySimplifyInst_returns_iff_shift :
    ((shiftModule 64).trySimplifyInst ⟨1, 1⟩).isSome ↔
      (shiftModule 64).code.FoldsAgree shiftInst.kind :=
  trySimplifyInst_returns_iff (foldable_of_keys rfl (by decide) (by decide))
    (shiftModule_indexed rfl) .refl rfl

/-- The amount of a shift may have another width than what is shifted, and then the pass panics. -/
theorem trySimplifyInst_panics : ¬ ∀ m : ModuleCore, m.code.Foldable → m.Indexed →
    ∀ i d, m.inst i = some d → (m.trySimplifyInst i).isSome := by
  intro h
  have hsome := h (shiftModule 32) (foldable_of_keys rfl (by decide) (by decide))
    (shiftModule_indexed rfl) ⟨1, 1⟩ shiftInst rfl
  have hnone : (shiftModule 32).trySimplifyInst ⟨1, 1⟩ = none := by decide
  rw [hnone] at hsome
  cases hsome

end ModuleCore

end Ir
