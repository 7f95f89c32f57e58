import C0mpiler.Irgen.Access
import C0mpiler.Ir.UseListRun
import Mathlib

/-!
# Automatic dereference

`autoDeref` finds the level of a receiver, and the generator's visitors dereference to that level.
`autoDeref_reaches_iff` says for each access for which receivers the place that it uses is the one
the references lead to: a field access, an index and a call by value follow one reference, a call
by reference two.
-/

open Ir Semantics

namespace Irgen.IRGenerator

variable {g g₁ g' : IRGenerator}

/-- `g₁` has emitted what leaves in `place` the address that the references of `recv` lead to, if
and only if `P`. -/
def DerefsTo (g g₁ : IRGenerator) (recv : CoreValueContainer) (n : Nat) (place : ValueId)
    (P : Prop) : Prop :=
  ∃ rs, g.Emits g₁ [] rs ∧ (g₁.Follows rs recv n place ↔ P)

/-- `g₁` has emitted what leaves in `place` the self argument for `recv`, if and only if `P`. -/
def BorrowsTo (g g₁ : IRGenerator) (recv : CoreValueContainer) (n : Nat) (place : ValueId)
    (P : Prop) : Prop :=
  ∃ slots rs, g.Emits g₁ slots rs ∧ (g₁.SelfPointer slots rs recv n place ↔ P)

/-- The last instruction that `g'` emitted after `g₁` is `r`. -/
def ThenEmits (g₁ g' : IRGenerator) (r : InstRef) (kind : InstKind) : Prop :=
  ∃ slots rs, g₁.Emits g' slots (rs ++ [r]) ∧ ∃ d, g'.code.inst r = some d ∧ d.kind = kind

/-! ## The visitors -/

section

variable (recv : CoreValueContainer) (level : DerefLevel) (hg : g.Ready)
  (hrecv : g.module.Defined recv.value) (hholds : recv.kind.HoldsRefs level.depth)
  (hptr : level.depth ≠ 0 → g.PointerOperand recv.value)

include hg hrecv hholds hptr

theorem visitFieldExpr_reaches (structTy : TypePtr) (pos : Nat) (ty : TypePtr) :
    ∃ place g₁ idx r g', g.DerefsTo g₁ recv level.depth place (level.depth ≤ 1) ∧
      g.visitFieldExpr recv level structTy pos ty = some (⟨.inst r, .ptr ty⟩, g') ∧
      g₁.ThenEmits g' r (.getElementPtr structTy.ty place idx) := by
  obtain ⟨out, g₁, rs, hderef, hemits, hout, -, hiff⟩ :=
    deref_follows_iff level structTy hg hrecv hholds hptr
  obtain ⟨c₀, i₀, g₂, hc₀, hemits₂, hd₀⟩ := addI32Const_emits g₁ 0
  obtain ⟨c₁, i₁, g₃, hc₁, hemits₃, hd₁⟩ := addI32Const_emits g₂ pos
  have hready := hemits₃.ready (hemits₂.ready (hemits.ready hg))
  obtain ⟨r, g₄, hgep, hemits₄, d, hd, -, hk⟩ := buildGetelementptr_emits hready structTy.ty
    (hemits₃.defined (hemits₂.defined hout)) [.const c₀, .const c₁] (by
      intro v hv
      simp only [List.mem_cons, List.not_mem_nil, or_false] at hv
      obtain rfl | rfl := hv
      · exact hemits₃.defined (defined_const hd₀)
      · exact defined_const hd₁)
  refine ⟨out.value, g₁, _, r, g₄, ⟨rs, hemits, hiff⟩, ?_, [], [],
    (hemits₂.trans hemits₃).trans hemits₄, d, hd, hk⟩
  simp only [visitFieldExpr, hderef, hc₀, hc₁, hgep, Option.bind_eq_bind, Option.bind_some]

theorem visitIndexExpr_reaches {indexRaw : ValueId} (hindex : g.module.Defined indexRaw)
    (arrayTy innerTy : TypePtr) :
    ∃ place g₁ idx r g', g.DerefsTo g₁ recv level.depth place (level.depth ≤ 1) ∧
      g.visitIndexExpr recv indexRaw level arrayTy innerTy = some (⟨.inst r, .ptr innerTy⟩, g') ∧
      g₁.ThenEmits g' r (.getElementPtr arrayTy.ty place idx) := by
  obtain ⟨out, g₁, rs, hderef, hemits, hout, -, hiff⟩ :=
    deref_follows_iff level arrayTy hg hrecv hholds hptr
  obtain ⟨c₀, i₀, g₂, hc₀, hemits₂, hd₀⟩ := addI32Const_emits g₁ 0
  have hready := hemits₂.ready (hemits.ready hg)
  obtain ⟨r, g₃, hgep, hemits₃, d, hd, -, hk⟩ := buildGetelementptr_emits hready arrayTy.ty
    (hemits₂.defined hout) [.const c₀, indexRaw] (by
      intro v hv
      simp only [List.mem_cons, List.not_mem_nil, or_false] at hv
      obtain rfl | rfl := hv
      · exact defined_const hd₀
      · exact hemits₂.defined (hemits.defined hindex))
  refine ⟨out.value, g₁, _, r, g₃, ⟨rs, hemits, hiff⟩, ?_, [], [], hemits₂.trans hemits₃, d, hd, hk⟩
  simp only [visitIndexExpr, hderef, hc₀, hgep, Option.bind_eq_bind, Option.bind_some]

end

/-- The rest of a method call, after the arguments for its receiver. -/
theorem visitMethodCallExpr_emits {recv : CoreValueContainer} {args : List CoreValueContainer}
    {level : DerefLevel} {selfByRef : Bool} {ty : TypePtr} {f : FunctionId} (sret : Option TypePtr)
    {receiverArgs : List ValueId} {slots rs : List InstRef} (hg : g.Ready)
    (hargs : ∀ c ∈ args, g.Presentable c) (hf : (g.code.func f).isSome)
    (hrun : g.methodReceiverArgs recv level selfByRef ty = some (receiverArgs, g₁))
    (hemits : g.Emits g₁ slots rs) (hdef : ∀ v ∈ receiverArgs, g₁.module.Defined v) :
    ∃ pre rest r out g', g.visitMethodCallExpr recv args level selfByRef ty f sret = some (out, g') ∧
      g₁.ThenEmits g' r (.call f (pre ++ receiverArgs ++ rest)) ∧
      pre.length = sret.toList.length := by
  obtain ⟨rest, g₂, slots₂, rs₂, hpresent, hemits₂, hrest⟩ :=
    presentArgs_emits (hemits.ready hg) fun c hc => (hargs c hc).emits hemits
  -- the arguments leave the generator ready
  have hready₂ := hemits₂.ready (hemits.ready hg)
  have hf₂ : (g₂.code.func f).isSome := by
    rw [hemits₂.func, hemits.func]
    exact hf
  -- without a slot for the result
  cases sret with
  | none =>
    obtain ⟨r, g₃, hcall, hemits₃, d, hd, hk⟩ := buildCall_emits hready₂ hf₂
      (receiverArgs ++ rest) fun v hv => by
        cases List.mem_append.mp hv with
        | inl hv => exact hemits₂.defined (hdef v hv)
        | inr hv => exact hrest v hv
    refine ⟨[], rest, r, ⟨.inst r, .raw none⟩, g₃, ?_, ⟨_, rs₂, hemits₂.trans hemits₃, d, hd, hk⟩, rfl⟩
    simp only [visitMethodCallExpr, hrun, hpresent, hcall, Option.bind_eq_bind, Option.bind_some]
  -- with one, which is the first argument
  | some retTy =>
    obtain ⟨slot, g₃, halloca, hemits₃, ds, hds, -⟩ := buildAlloca_emits hready₂ retTy.ty
    obtain ⟨r, g₄, hcall, hemits₄, d, hd, hk⟩ := buildCall_emits (hemits₃.ready hready₂)
      (f := f) (by rw [hemits₃.func]; exact hf₂) (.inst slot :: receiverArgs ++ rest) fun v hv => by
        simp only [List.cons_append, List.mem_cons, List.mem_append] at hv
        obtain rfl | hv | hv := hv
        · exact defined_inst hds
        · exact hemits₃.defined (hemits₂.defined (hdef v hv))
        · exact hemits₃.defined (hrest v hv)
    have hall := (hemits₂.trans hemits₃).trans hemits₄
    rw [List.append_nil] at hall
    refine ⟨[.inst slot], rest, r, ⟨.inst slot, .ptr retTy⟩, g₄, ?_, ⟨_, rs₂, hall, d, hd, hk⟩, rfl⟩
    simp only [visitMethodCallExpr, hrun, hpresent, halloca, hcall, Option.bind_eq_bind,
      Option.bind_some]

theorem visitMethodCallExpr_byValue {recv : CoreValueContainer} (level : DerefLevel) (hg : g.Ready)
    (hrecv : g.module.Defined recv.value) (hholds : recv.kind.HoldsRefs level.depth)
    (hptr : level.depth ≠ 0 → g.PointerOperand recv.value) (ty : TypePtr)
    {args : List CoreValueContainer} (hargs : ∀ c ∈ args, g.Presentable c) {f : FunctionId}
    (hf : (g.code.func f).isSome) (sret : Option TypePtr) :
    ∃ c g₁ presented g₂ pre rest r out g',
      g.DerefsTo g₁ recv level.depth c.value (level.depth ≤ 1) ∧
      c.kind = (if level.isNot then recv.kind else .ptr ty) ∧
      g₁.getValuePresentation c = some (presented, g₂) ∧
      g.visitMethodCallExpr recv args level false ty f sret = some (out, g') ∧
      g₂.ThenEmits g' r (.call f (pre ++ presented.flatten ++ rest)) ∧
      pre.length = sret.toList.length := by
  obtain ⟨c, g₁, rs, hderef, hemits, hc, hkind, hiff⟩ :=
    deref_follows_iff level ty hg hrecv hholds hptr
  -- what the receiver is behind its references can be presented
  have hpresentable : g₁.Presentable c := by
    refine .single hc fun fat h => ?_
    rw [hkind] at h
    split at h
    · rw [h] at hholds
      cases hholds
    · cases h
  obtain ⟨presented, g₂, slots₂, rs₂, hpresent, hemits₂, hpresented⟩ :=
    getValuePresentation_emits (hemits.ready hg) hpresentable
  -- by value nothing is borrowed
  have hborrow : g.borrowReceiver recv level false = some (recv, false, g) := by
    simp only [borrowReceiver, Bool.and_false, Bool.false_eq_true, if_false]
  have hreceiver : g.methodReceiverArgs recv level false ty = some (presented.flatten, g₂) := by
    have hderef' : g.derefImpl recv level ty false = some (c, g₁) := hderef
    simp only [methodReceiverArgs, hborrow, hderef', hpresent, Option.bind_eq_bind, Option.bind_some]
  obtain ⟨pre, rest, r, out, g', hrun, hthen, hlen⟩ :=
    visitMethodCallExpr_emits sret hg hargs hf hreceiver (hemits.trans hemits₂) hpresented
  exact ⟨c, g₁, presented, g₂, pre, rest, r, out, g', ⟨rs, hemits, hiff⟩, hkind, hpresent, hrun, hthen, hlen⟩

theorem visitMethodCallExpr_byRef {recv : CoreValueContainer} (level : DerefLevel) (hg : g.Ready)
    (hrecv : g.module.Defined recv.value) (hholds : g.HoldsReceiver recv level.depth)
    (hptr : (∀ fat, recv.kind = .raw fat → level.depth ≠ 0) → g.PointerOperand recv.value)
    {ty : TypePtr} (hty : ty = ptrType ∨ ty = g.fatPtrType)
    {args : List CoreValueContainer} (hargs : ∀ c ∈ args, g.Presentable c) {f : FunctionId}
    (hf : (g.code.func f).isSome) (sret : Option TypePtr) :
    ∃ p tail g₁ pre rest r out g',
      g.BorrowsTo g₁ recv level.depth p (level.depth ≤ 2 ∧ g.AddressPasses recv level.depth) ∧
      g.visitMethodCallExpr recv args level true ty f sret = some (out, g') ∧
      g₁.ThenEmits g' r (.call f (pre ++ p :: tail ++ rest)) ∧ pre.length = sret.toList.length := by
  obtain ⟨p, tail, g₁, slots, rs, hreceiver, hemits, hdef, hiff⟩ :=
    methodReceiverArgs_byRef level hg hrecv hholds hptr hty
  obtain ⟨pre, rest, r, out, g', hrun, hthen, hlen⟩ :=
    visitMethodCallExpr_emits sret hg hargs hf hreceiver hemits hdef
  exact ⟨p, tail, g₁, pre, rest, r, out, g', ⟨slots, rs, hemits, hiff⟩, hrun, hthen, hlen⟩

/-! ## Every receiver -/

/-- A receiver whose type is `n` nested references to a type that the access is for. The place that
the access uses is the one the references lead to for a field, an index and a call by value when
`n ≤ 1`, and for a call by reference when `n ≤ 2` and the address that is passed is not that of a
constant aggregate. -/
theorem autoDeref_reaches_iff {ε T : Type} {ut : TypeTable} (u32Type : TypeIntern)
    {accepts : TypeIntern → Except ε (Option T)} {i base : TypeIntern} {n : Nat}
    (hnested : NestedRefs ut accepts i n base) {t : T} (hbase : accepts base = .ok (some t))
    {fuel : Nat} (hfuel : n < fuel) (hg : g.Ready) (recv : CoreValueContainer)
    (hrecv : g.module.Defined recv.value)
    (hptr : (∀ fat, recv.kind = .raw fat → n ≠ 0) → g.PointerOperand recv.value) :
    ∃ level, autoDeref ut u32Type accepts fuel i = some (.ok (some (level, base, t))) ∧
      (recv.kind.HoldsRefs n →
        (∀ structTy pos ty, ∃ place g₁ idx r g', g.DerefsTo g₁ recv n place (n ≤ 1) ∧
          g.visitFieldExpr recv level structTy pos ty = some (⟨.inst r, .ptr ty⟩, g') ∧
          g₁.ThenEmits g' r (.getElementPtr structTy.ty place idx)) ∧
        (∀ indexRaw arrayTy innerTy, g.module.Defined indexRaw →
          ∃ place g₁ idx r g', g.DerefsTo g₁ recv n place (n ≤ 1) ∧
            g.visitIndexExpr recv indexRaw level arrayTy innerTy =
              some (⟨.inst r, .ptr innerTy⟩, g') ∧
            g₁.ThenEmits g' r (.getElementPtr arrayTy.ty place idx)) ∧
        ∀ ty args f sret, (∀ c ∈ args, g.Presentable c) → (g.code.func f).isSome →
          ∃ c g₁ presented g₂ pre rest r out g', g.DerefsTo g₁ recv n c.value (n ≤ 1) ∧
            c.kind = (if level.isNot then recv.kind else .ptr ty) ∧
            g₁.getValuePresentation c = some (presented, g₂) ∧
            g.visitMethodCallExpr recv args level false ty f sret = some (out, g') ∧
            g₂.ThenEmits g' r (.call f (pre ++ presented.flatten ++ rest)) ∧
            pre.length = sret.toList.length) ∧
      (g.HoldsReceiver recv n → ∀ ty args f sret, (ty = ptrType ∨ ty = g.fatPtrType) →
        (∀ c ∈ args, g.Presentable c) → (g.code.func f).isSome →
        ∃ p tail g₁ pre rest r out g',
          g.BorrowsTo g₁ recv n p (n ≤ 2 ∧ g.AddressPasses recv n) ∧
          g.visitMethodCallExpr recv args level true ty f sret = some (out, g') ∧
          g₁.ThenEmits g' r (.call f (pre ++ p :: tail ++ rest)) ∧
          pre.length = sret.toList.length) := by
  obtain ⟨level, hlevel, rfl⟩ := autoDeref_nested u32Type hnested hbase hfuel
  -- the four uses of the receiver
  refine ⟨level, hlevel, fun hholds => ?_, fun hholds ty args f sret hty hargs hf => ?_⟩
  · have hptr' : level.depth ≠ 0 → g.PointerOperand recv.value := fun hn => hptr fun _ _ => hn
    exact ⟨visitFieldExpr_reaches recv level hg hrecv hholds hptr',
      fun indexRaw arrayTy innerTy hindex =>
        visitIndexExpr_reaches recv level hg hrecv hholds hptr' hindex arrayTy innerTy,
      fun ty args f sret hargs hf =>
        visitMethodCallExpr_byValue level hg hrecv hholds hptr' ty hargs hf sret⟩
  · exact visitMethodCallExpr_byRef level hg hrecv hholds hptr hty hargs hf sret

/-! ## A reference to a reference -/

/-- `main` with a slot for a reference. -/
def slotEdits : List Edit :=
  [.createFunction "main" ⟨.void, []⟩, .newInst 1 .ptr (.alloca .ptr) none,
    .appendInst ⟨1, 1⟩ ⟨1, 1⟩]

def slotGenerator : IRGenerator where
  target := .rv64
  module := (runEdits slotEdits).getD ModuleCore.new
  builder := ⟨1, ⟨1, 1⟩, .atEnd, rfl⟩
  allocaBuilder := ⟨1, ⟨1, 1⟩, .front, rfl⟩

/-- The variable `r` of `let r = &&s;`. -/
def slotReceiver : CoreValueContainer := ⟨.inst ⟨1, 1⟩, .ptr ptrType⟩

/-- A struct, a reference to it, and a reference to that. -/
def slotTypes : TypeTable
  | 0 => ⟨some (["S"], none), .tup []⟩
  | 1 => ⟨none, .ref (.other 0) .not⟩
  | _ => ⟨none, .ref (.other 1) .not⟩

def hasFields (ty : TypeIntern) : Except Unit (Option Unit) :=
  .ok (if ty = .other 0 then some () else none)

theorem slotGenerator_ready : slotGenerator.Ready := ⟨rfl, rfl, rfl, rfl⟩

theorem slotReceiver_pointer : slotGenerator.PointerOperand slotReceiver.value :=
  ⟨⟨.rv64, fun _ => 0, fun _ => none⟩, fun _ => some (.ptr (.stack 0) 0), .stack 0, 0, rfl⟩

theorem slotTypes_one : NestedRefs slotTypes hasFields (.other 1) 1 (.other 0) :=
  .ref (rfl : slotTypes.probeType (.other 1) = some (slotTypes 1)) rfl rfl (.base _)

theorem slotTypes_two : NestedRefs slotTypes hasFields (.other 2) 2 (.other 0) :=
  .ref (rfl : slotTypes.probeType (.other 2) = some (slotTypes 2)) rfl rfl slotTypes_one

theorem autoDeref_reaches_one :
    ∃ level, autoDeref slotTypes (.other 9) hasFields 2 (.other 1) =
        some (.ok (some (level, .other 0, ()))) ∧
      ∃ place g₁ idx r g', slotGenerator.DerefsTo g₁ slotReceiver 1 place True ∧
        slotGenerator.visitFieldExpr slotReceiver level ⟨.struct [.int 32] false, some "S"⟩ 0
          ⟨.int 32, none⟩ = some (⟨.inst r, .ptr ⟨.int 32, none⟩⟩, g') ∧
        g₁.ThenEmits g' r (.getElementPtr (.struct [.int 32] false) place idx) := by
  obtain ⟨level, hlevel, huses, -⟩ := autoDeref_reaches_iff (.other 9) slotTypes_one
    (t := ()) rfl (by decide : 1 < 2) slotGenerator_ready slotReceiver rfl
    fun _ => slotReceiver_pointer
  obtain ⟨place, g₁, idx, r, g', ⟨rs, hemits, hiff⟩, hrun, hthen⟩ :=
    (huses (.slot 0)).1 ⟨.struct [.int 32] false, some "S"⟩ 0 ⟨.int 32, none⟩
  exact ⟨level, hlevel, place, g₁, idx, r, g', ⟨rs, hemits, hiff.trans (by decide)⟩, hrun, hthen⟩

/-- `r.f`, where `r` is a reference to a reference, does not use the place that `r` leads to. -/
theorem autoDeref_reaches_not_two :
    ∃ level, autoDeref slotTypes (.other 9) hasFields 3 (.other 2) =
        some (.ok (some (level, .other 0, ()))) ∧
      ∃ place g₁ rs idx r g', slotGenerator.Emits g₁ [] rs ∧
        ¬ g₁.Follows rs slotReceiver 2 place ∧
        slotGenerator.visitFieldExpr slotReceiver level ⟨.struct [.int 32] false, some "S"⟩ 0
          ⟨.int 32, none⟩ = some (⟨.inst r, .ptr ⟨.int 32, none⟩⟩, g') ∧
        g₁.ThenEmits g' r (.getElementPtr (.struct [.int 32] false) place idx) := by
  obtain ⟨level, hlevel, hdepth⟩ := autoDeref_nested (.other 9) slotTypes_two
    (t := ()) rfl (by decide : 2 < 3)
  have hholds : slotReceiver.kind.HoldsRefs level.depth := by
    rw [hdepth]
    exact .slot 1
  obtain ⟨place, g₁, idx, r, g', ⟨rs, hemits, hiff⟩, hrun, hthen⟩ :=
    visitFieldExpr_reaches slotReceiver level slotGenerator_ready rfl hholds (fun _ => slotReceiver_pointer)
      ⟨.struct [.int 32] false, some "S"⟩ 0 ⟨.int 32, none⟩
  rw [hdepth] at hiff
  exact ⟨level, hlevel, place, g₁, rs, idx, r, g', hemits, fun h => absurd (hiff.mp h) (by decide),
    hrun, hthen⟩

end Irgen.IRGenerator
