import C0mpiler.Irgen.Deref
import Mathlib

/-!
# The accesses that dereference

Field access, indexing and method calls dereference their receiver and use the place they reach: as
the base of an address, or as the self argument. A call by reference passes the address of the
receiver through `getValuePresentation`, which copies what it takes for an aggregate.
-/

open Ir Semantics

namespace Irgen.IRGenerator

variable {g g' : IRGenerator}

/-! ## Presentation -/

/-- The values of the container exist. -/
def Presentable (g : IRGenerator) (c : CoreValueContainer) : Prop :=
  ∀ v ∈ c.flatten, g.module.Defined v

theorem Presentable.value {c : CoreValueContainer} (h : g.Presentable c) :
    g.module.Defined c.value := by
  refine h c.value ?_
  unfold CoreValueContainer.flatten
  split <;> exact List.mem_cons_self

theorem Presentable.single {v : ValueId} {k : CoreContainerKind} (h : g.module.Defined v)
    (hk : ∀ fat, k ≠ .raw (some fat)) : g.Presentable ⟨v, k⟩ := by
  intro w hw
  unfold CoreValueContainer.flatten at hw
  split at hw
  · next fat heq => exact absurd heq (hk fat)
  · rw [List.mem_singleton.mp hw]
    exact h

theorem Presentable.emits {slots rs : List InstRef} {c : CoreValueContainer} (h : g.Presentable c)
    (hemits : g.Emits g' slots rs) : g'.Presentable c := fun v hv => hemits.defined (h v hv)

/-- A value that is not fat is copied into a slot of its own. -/
theorem rawValueToPtr_emits (hg : g.Ready) {v : ValueId} {ty : Ty} (hty : g.code.valueTy v = some ty) :
    ∃ slot r g', g.rawValueToPtr ⟨v, .raw none⟩ = some (⟨.inst slot, .ptr ⟨ty, none⟩⟩, g') ∧
      g.Emits g' [slot] [r] ∧ (∃ d, g'.code.inst slot = some d ∧ d.ty = .ptr ∧ d.kind = .alloca ty) ∧
      ∃ d, g'.code.inst r = some d ∧ d.kind = .store v (.inst slot) := by
  have hv : g.module.Defined v := by
    show (g.code.valueTy v).isSome
    rw [hty]
    rfl
  obtain ⟨slot, g₁, halloca, hemits₁, d₁, hd₁, hty₁, hk₁⟩ := buildAlloca_emits hg ty
  obtain ⟨r, g₂, hstore, hemits₂, hinst₂⟩ :=
    buildStore_emits (hemits₁.ready hg) (hemits₁.defined hv) (defined_inst hd₁)
  refine ⟨slot, r, g₂, ?_, hemits₁.trans hemits₂, ⟨d₁, hemits₂.grows.inst slot d₁ hd₁, hty₁, hk₁⟩, hinst₂⟩
  have hty' : g.module.valueTy v = some ty := by
    rw [← ModuleCore.code_valueTy]
    exact hty
  simp only [rawValueToPtr, hty', halloca, hstore, Option.bind_eq_bind, Option.bind_some]

/-- The second word of a fat pointer. -/
theorem buildFatSecond_emits (hg : g.Ready) {base : ValueId} (hbase : g.module.Defined base) :
    ∃ r g', g.buildFatSecond base = some (.inst r, g') ∧ g.Emits g' [] [r] ∧
      ∃ d c₀ c₁, g'.code.inst r = some d ∧
        d.kind = .getElementPtr g.fatPtrType.ty base [.const c₀, .const c₁] ∧
        (∃ i, g'.code.constData c₀ = some ⟨.int 32, .int i, []⟩) ∧
        ∃ i, g'.code.constData c₁ = some ⟨.int 32, .int i, []⟩ := by
  obtain ⟨c₀, i, g₁, hzero, hemits₁, hc₁⟩ := addI32Const_emits g 0
  obtain ⟨c₁, j, g₂, hone, hemits₂, hc₂⟩ := addI32Const_emits g₁ 1
  have hready₂ := hemits₂.ready (hemits₁.ready hg)
  have hc₁₂ := hemits₂.grows.constData c₀ _ hc₁
  obtain ⟨r, g₃, hgep, hemits₃, d, hd, -, hk⟩ := buildGetelementptr_emits hready₂ g₂.fatPtrType.ty
    (hemits₂.defined (hemits₁.defined hbase)) [.const c₀, .const c₁] (by
      intro v hv
      simp only [List.mem_cons, List.not_mem_nil, or_false] at hv
      obtain rfl | rfl := hv
      · exact defined_const hc₁₂
      · exact defined_const hc₂)
  have htarget : g₂.fatPtrType = g.fatPtrType := by
    unfold fatPtrType ptrWidthIntType
    rw [hemits₂.target, hemits₁.target]
  refine ⟨r, g₃, ?_, (hemits₁.trans hemits₂).trans hemits₃, d, c₀, c₁, hd, ?_, ?_, ?_⟩
  · simp only [buildFatSecond, hzero, hone, hgep, Option.bind_eq_bind, Option.bind_some]
  · rw [hk, htarget]
  · exact ⟨i, hemits₃.grows.constData c₀ _ hc₁₂⟩
  · exact ⟨j, hemits₃.grows.constData c₁ _ hc₂⟩

theorem getValuePresentation_emits (hg : g.Ready) {c : CoreValueContainer} (hc : g.Presentable c) :
    ∃ out g' slots rs, g.getValuePresentation c = some (out, g') ∧ g.Emits g' slots rs ∧
      g'.Presentable out := by
  obtain ⟨v, kind⟩ := c
  have hv := hc.value
  cases kind with
  -- a value that is held as such
  | raw fat =>
    cases fat with
    | some fat => exact ⟨_, g, [], [], rfl, .refl g, hc⟩
    | none =>
      obtain ⟨ty, hty⟩ := Option.isSome_iff_exists.mp hv
      have hty' : g.module.valueTy v = some ty := by
        rw [← ModuleCore.code_valueTy]
        exact hty
      -- an aggregate goes to a slot of its own
      by_cases hagg : isAggregateType ty
      · obtain ⟨slot, r, g', hrun, hemits, ⟨d, hd, -⟩, -⟩ := rawValueToPtr_emits hg hty
        refine ⟨⟨.inst slot, .ptr ⟨ty, none⟩⟩, g', [slot], [r], ?_, hemits,
          .single (defined_inst hd) fun _ h => nomatch h⟩
        simp only [getValuePresentation, hty', Option.bind_eq_bind, Option.bind_some, if_pos hagg]
        exact hrun
      · refine ⟨_, g, [], [], ?_, .refl g, hc⟩
        simp only [getValuePresentation, hty', Option.bind_eq_bind, Option.bind_some, if_neg hagg]
  | ptr ty =>
    -- a place with a fat pointer: both words are loaded
    by_cases hfat : ty.isFatPtr
    · obtain ⟨r₁, g₁, hload, hemits₁, d₁, hd₁, -⟩ := buildLoad_emits hg .ptr hv
      obtain ⟨r₂, g₂, hsecond, hemits₂, d₂, -, -, hd₂, -⟩ :=
        buildFatSecond_emits (hemits₁.ready hg) (hemits₁.defined hv)
      obtain ⟨r₃, g₃, hload₃, hemits₃, d₃, hd₃, -⟩ :=
        buildLoad_emits (hemits₂.ready (hemits₁.ready hg)) g₂.ptrWidthIntType (defined_inst hd₂)
      refine ⟨⟨.inst r₁, .raw (some (.inst r₃))⟩, g₃, _, _, ?_,
        (hemits₁.trans hemits₂).trans hemits₃, ?_⟩
      · simp only [getValuePresentation, if_pos hfat, hload, hsecond, hload₃, Option.bind_eq_bind,
          Option.bind_some]
      · intro w hw
        simp only [CoreValueContainer.flatten, List.mem_cons, List.not_mem_nil, or_false] at hw
        obtain rfl | rfl := hw
        · exact hemits₃.defined (hemits₂.defined (defined_inst hd₁))
        · exact defined_inst hd₃
    -- a place with a plain value: an aggregate stays, the others are loaded
    · by_cases hagg : isAggregateType ty.ty
      · refine ⟨_, g, [], [], ?_, .refl g, hc⟩
        simp only [getValuePresentation, if_neg hfat, if_pos hagg]
      · obtain ⟨r, g', hload, hemits, d, hd, -⟩ := buildLoad_emits hg ty.ty hv
        refine ⟨⟨.inst r, .raw none⟩, g', [], [r], ?_, hemits,
          .single (defined_inst hd) fun _ h => nomatch h⟩
        simp only [getValuePresentation, if_neg hfat, if_neg hagg, getRawValue, hload,
          Option.bind_eq_bind, Option.bind_some]

theorem presentArgs_emits (hg : g.Ready) {cs : List CoreValueContainer}
    (hcs : ∀ c ∈ cs, g.Presentable c) :
    ∃ vs g' slots rs, g.presentArgs cs = some (vs, g') ∧ g.Emits g' slots rs ∧
      ∀ v ∈ vs, g'.module.Defined v := by
  induction cs generalizing g with
  | nil => exact ⟨[], g, [], [], rfl, .refl g, fun _ h => nomatch h⟩
  | cons c cs ih =>
    obtain ⟨out, g₁, slots₁, rs₁, hrun₁, hemits₁, hout⟩ :=
      getValuePresentation_emits hg (hcs c List.mem_cons_self)
    obtain ⟨vs, g₂, slots₂, rs₂, hrun₂, hemits₂, hvs⟩ :=
      ih (hemits₁.ready hg) fun c' hc' => (hcs c' (List.mem_cons_of_mem _ hc')).emits hemits₁
    refine ⟨out.flatten ++ vs, g₂, _, _, ?_, hemits₁.trans hemits₂, fun v hv => ?_⟩
    · simp only [presentArgs, hrun₁, hrun₂, Option.bind_eq_bind, Option.bind_some]
    · cases List.mem_append.mp hv with
      | inl hv => exact hemits₂.defined (hout v hv)
      | inr hv => exact hvs v hv

theorem buildCall_emits (hg : g.Ready) {f : FunctionId} (hf : (g.code.func f).isSome)
    (args : List ValueId) (hargs : ∀ v ∈ args, g.module.Defined v) :
    ∃ r g', g.buildCall f args = some (.inst r, g') ∧ g.Emits g' [] [r] ∧
      ∃ d, g'.code.inst r = some d ∧ d.kind = .call f args := by
  obtain ⟨fd, hfd⟩ : ∃ fd, g.module.func f = some fd := by
    refine Option.isSome_iff_exists.mp ?_
    rw [← Option.isSome_map (f := FunctionData.header)]
    exact hf
  obtain ⟨r, m', hrun, hemits, hinst⟩ := buildInst_emits hg fd.ty.returnType
    (.call f args) none rfl rfl fun op hop => by
      obtain ⟨⟨v, i⟩, hvi, rfl⟩ := List.mem_map.mp hop
      exact hargs v (List.fst_mem_of_mem_zipIdx hvi)
  refine ⟨r, _, ?_, hemits, _, hinst, rfl⟩
  simp only [buildCall, hfd, hrun, Option.bind_eq_bind, Option.bind_some]

/-! ## Receivers -/

theorem flatten_eq (c : CoreValueContainer) : ∃ tail, c.flatten = c.value :: tail := by
  unfold CoreValueContainer.flatten
  split
  · exact ⟨_, rfl⟩
  · exact ⟨[], rfl⟩

/-- Presenting a slot that holds a reference, thin or fat, loads the reference. -/
theorem presentRef_loads (hg : g.Ready) {v : ValueId} (hv : g.module.Defined v) {ty : TypePtr}
    (hty : ty = ptrType ∨ ty = g.fatPtrType) :
    ∃ out g' rs, g.getValuePresentation ⟨v, .ptr ty⟩ = some (out, g') ∧ g.Emits g' [] rs ∧
      g'.Presentable out ∧ g'.Loads rs 1 v out.value := by
  obtain rfl | rfl := hty
  -- one word
  · obtain ⟨r, g', hload, hemits, d, hd, hdty, hk⟩ := buildLoad_emits hg .ptr hv
    refine ⟨⟨.inst r, .raw none⟩, g', [r], ?_, hemits,
      .single (defined_inst hd) (fun _ h => nomatch h), .load hd hdty hk⟩
    have hnotfat : ptrType.isFatPtr = false := rfl
    have hnotagg : isAggregateType ptrType.ty = false := rfl
    simp only [getValuePresentation, hnotfat, hnotagg, Bool.false_eq_true, if_false, getRawValue,
      Option.bind_eq_bind]
    exact Option.bind_eq_some_iff.mpr ⟨_, hload, rfl⟩
  -- two words: the pointer, then the metadata behind it
  · obtain ⟨r₁, g₁, hload₁, hemits₁, d₁, hd₁, hdty₁, hk₁⟩ := buildLoad_emits hg .ptr hv
    obtain ⟨r₂, g₂, hsecond, hemits₂, d₂, c₀, c₁, hd₂, hk₂, ⟨i₀, hc₀⟩, i₁, hc₁⟩ :=
      buildFatSecond_emits (hemits₁.ready hg) (hemits₁.defined hv)
    obtain ⟨r₃, g₃, hload₃, hemits₃, d₃, hd₃, -, hk₃⟩ :=
      buildLoad_emits (hemits₂.ready (hemits₁.ready hg)) g₂.ptrWidthIntType (defined_inst hd₂)
    have hgrows₁₃ := hemits₂.grows.trans hemits₃.grows
    have hne₂ : r₁ ≠ r₂ := fun h => hemits₁.notMem hemits₂ (List.mem_singleton_self r₁)
      (List.mem_singleton.mpr h)
    have hne₃ : r₁ ≠ r₃ := fun h => (hemits₁.trans hemits₂).notMem hemits₃
      (List.mem_cons_self (a := r₁)) (List.mem_singleton.mpr h)
    have hnev : v ≠ .inst r₁ := by
      rintro rfl
      -- an instruction that is new is not read by what was there
      have hfresh := hemits₁.fresh r₁ (List.mem_singleton_self r₁)
      have hsome : ((g.code.inst r₁).map InstData.ty).isSome := hv
      rw [hfresh] at hsome
      cases hsome
    refine ⟨⟨.inst r₁, .raw (some (.inst r₃))⟩, g₃, _, ?_, (hemits₁.trans hemits₂).trans hemits₃, ?_,
      ?_, ?_⟩
    · have hfat : g.fatPtrType.isFatPtr = true := rfl
      simp only [getValuePresentation, hfat, if_true, hload₁, hsecond, hload₃, Option.bind_eq_bind,
        Option.bind_some]
    · intro w hw
      simp only [CoreValueContainer.flatten, List.mem_cons, List.not_mem_nil, or_false] at hw
      obtain rfl | rfl := hw
      · exact hemits₃.defined (hemits₂.defined (defined_inst hd₁))
      · exact defined_inst hd₃
    -- all loads belong to the presentation
    · intro r hr
      simp only [List.cons_append, List.nil_append, List.mem_cons, List.not_mem_nil,
        or_false] at hr
      obtain rfl | rfl | rfl := hr
      · exact ⟨d₁, hgrows₁₃.inst _ d₁ hd₁, by rw [hk₁]; trivial⟩
      · exact ⟨d₂, hemits₃.grows.inst _ d₂ hd₂, by rw [hk₂]; trivial⟩
      · exact ⟨d₃, hd₃, by rw [hk₃]; trivial⟩
    · intro C hC E s x hx
      -- the head is loaded first; the address and the load of the second word leave it alone
      let s₁ := s.set r₁ (s.mem.load E.target d₁.ty x)
      have hexec₁ : C.Exec E s r₁ [] s₁ :=
        .load (hC.inst _ _ (hgrows₁₃.inst _ _ hd₁)) hk₁ hx
      have hx₁ : C.evalOperand E s₁.regs v = some x :=
        (hexec₁.evalOperand_of_ne hnev).trans hx
      have hconst : ∀ c i, g₂.code.constData c = some ⟨.int 32, .int i, []⟩ →
          C.evalOperand E s₁.regs (.const c) = some (.int i.bitWidth i.value) := by
        intro c i hc
        show (C.constData c).bind evalConst = _
        rw [hC.constData _ _ (hemits₃.grows.constData _ _ hc)]
        rfl
      have hgep : evalPure E d₂.ty d₂.kind (C.evalOperand E s₁.regs) = some (.gep E.target
          g₁.fatPtrType.ty x [.int i₀.bitWidth i₀.value, .int i₁.bitWidth i₁.value]) := by
        rw [hk₂]
        simp only [evalPure, hx₁, List.mapM_cons, List.mapM_nil, hconst _ _ hc₀, hconst _ _ hc₁,
          Option.bind_eq_bind, Option.bind_some, Option.pure_def]
      let s₂ := s₁.set r₂ (.gep E.target g₁.fatPtrType.ty x
        [.int i₀.bitWidth i₀.value, .int i₁.bitWidth i₁.value])
      have hexec₂ : C.Exec E s₁ r₂ [] s₂ :=
        .pure (hC.inst _ _ (hemits₃.grows.inst _ _ hd₂)) hgep
      have haddr : C.evalOperand E s₂.regs (.inst r₂) = some (.gep E.target g₁.fatPtrType.ty x
          [.int i₀.bitWidth i₀.value, .int i₁.bitWidth i₁.value]) := Function.update_self ..
      refine ⟨_, .cons hexec₁ (.cons hexec₂ (.cons (.load (hC.inst _ _ hd₃) hk₃ haddr) (.nil _))), rfl, ?_⟩
      show Function.update (Function.update (Function.update s.regs r₁ _) r₂ _) r₃ _ r₁ = _
      rw [Function.update_of_ne hne₃, Function.update_of_ne hne₂, Function.update_self, hdty₁]
      rfl

/-- A receiver that is taken by reference, whose type is `n` nested references. A reference to a
string is fat. -/
inductive HoldsReceiver (g : IRGenerator) : CoreValueContainer → Nat → Prop
  | temporary {v : ValueId} (hv : ∀ id, v ≠ .global id) : HoldsReceiver g ⟨v, .raw none⟩ 0
  | place (v : ValueId) (ty : TypePtr) : HoldsReceiver g ⟨v, .ptr ty⟩ 0
  | raw (v : ValueId) (n : Nat) : HoldsReceiver g ⟨v, .raw none⟩ (n + 1)
  | slot (v : ValueId) (n : Nat) : HoldsReceiver g ⟨v, .ptr ptrType⟩ (n + 1)
  | fatRaw (v : ValueId) {fat : ValueId} (hfat : g.module.Defined fat) :
      HoldsReceiver g ⟨v, .raw (some fat)⟩ 1
  | fatSlot (v : ValueId) : HoldsReceiver g ⟨v, .ptr g.fatPtrType⟩ 1

/-- The operand of the receiver is itself the address that a call by reference passes. -/
def passesOperand (k : CoreContainerKind) (n : Nat) : Bool :=
  match k, n with
  | .ptr _, 0 => true
  | .raw none, 1 => true
  | _, _ => false

/-- `Follows`, where the allocas `slots` have been executed. -/
def FollowsFrom (g : IRGenerator) (slots rs : List InstRef) (recv : CoreValueContainer) (n : Nat)
    (place : ValueId) : Prop :=
  ∀ C, g.code.Grows C → ∀ E s x, C.evalOperand E s.regs recv.value = some x →
    (∀ r ∈ slots, ∃ k, s.regs r = some (.ptr (.stack k) 0)) →
    (∃ s', C.Run E s rs [] s') ∧ ∀ evs s', C.Run E s rs evs s' → evs = [] ∧ s'.mem = s.mem ∧
      C.evalOperand E s'.regs place = some (follow E.target s.mem (recv.kind.refLoads n) x)

theorem followsFrom_nil {rs : List InstRef} {recv : CoreValueContainer} {n : Nat} {place : ValueId} :
    g.FollowsFrom [] rs recv n place ↔ g.Follows rs recv n place :=
  ⟨fun h C hC E s x hx => h C hC E s x hx (fun _ hr => nomatch hr),
    fun h C hC E s x hx _ => h C hC E s x hx⟩

/-- Running `rs` leaves in `place` the address of an object of the frame that holds the value `v`. -/
def HoldsCopy (g : IRGenerator) (slots rs : List InstRef) (v place : ValueId) : Prop :=
  ∀ C, g.code.Grows C → ∀ E s x ty n, C.evalOperand E s.regs v = some x →
    C.valueTy v = some ty → x.Fits ty → sizeOf E.target ty = some n →
    (∀ r ∈ slots, ∃ k, s.regs r = some (.ptr (.stack k) 0) ∧ s.mem.InBounds ⟨.stack k, 0, n⟩) →
    (∃ s', C.Run E s rs [] s') ∧ ∀ evs s', C.Run E s rs evs s' → evs = [] ∧
      ∃ k, C.evalOperand E s'.regs place = some (.ptr (.stack k) 0) ∧
        s'.mem.load E.target ty (.ptr (.stack k) 0) = x

/-- What the self argument of a call by reference has to be. -/
def SelfPointer (g : IRGenerator) (slots rs : List InstRef) (recv : CoreValueContainer) (n : Nat)
    (place : ValueId) : Prop :=
  match recv.kind, n with
  | .raw _, 0 => g.HoldsCopy slots rs recv.value place
  | _, _ => g.FollowsFrom slots rs recv n place

/-- Storing a value in a slot of its own makes a copy of it. -/
theorem holdsCopy_of_store {slot r : InstRef} {v : ValueId} (hv : ∀ id, v ≠ .global id)
    (hr : ∃ d, g.code.inst r = some d ∧ d.kind = .store v (.inst slot)) :
    g.HoldsCopy [slot] [r] v (.inst slot) := by
  intro C hC E s x ty n hx hty hfits hn hslots
  obtain ⟨d, hd, hk⟩ := hr
  obtain ⟨k, hslot, hin⟩ := hslots slot (List.mem_singleton_self slot)
  have hopty : C.operandTy v = some ty := by
    cases v with
    | global id => exact absurd rfl (hv id)
    | _ => exact hty
  have hstore : s.mem.store E.target ty (.ptr (.stack k) 0) x =
      some (s.mem.write ⟨.stack k, 0, n⟩ x) := by
    simp only [Mem.store, Val.range, hn, Option.map_some, Option.bind_eq_bind, Option.bind_some,
      if_pos (And.intro hin hfits)]
  have hexec : C.Exec E s r [] { s with mem := s.mem.write ⟨.stack k, 0, n⟩ x } :=
    .store (hC.inst r d hd) hk hopty hx hslot hstore
  refine ⟨⟨_, .cons hexec (.nil _)⟩, fun evs s' hrun => ?_⟩
  have hone : C.Run E s [r] [] { s with mem := s.mem.write ⟨.stack k, 0, n⟩ x } :=
    .cons hexec (.nil _)
  obtain ⟨rfl, rfl⟩ := hone.unique hrun fun r' hr' => by
    rw [List.mem_singleton.mp hr']
    exact ⟨d, hC.inst r d hd, by rw [hk]; trivial⟩
  exact ⟨rfl, k, hslot, Mem.load_store_same hstore⟩

/-- A copy is not the place itself. -/
theorem not_followsFrom_copy {slot r : InstRef} {recv : CoreValueContainer} {n : Nat}
    (hptr : g.PointerOperand recv.value) (hcount : recv.kind.refLoads n = 0)
    (hne : recv.value ≠ .inst slot)
    (hr : ∃ d v, g.code.inst r = some d ∧ d.kind = .store v (.inst slot)) :
    ¬ g.FollowsFrom [slot] [r] recv n (.inst slot) := by
  intro hfollows
  obtain ⟨E, regs, o, off, hx⟩ := hptr
  obtain ⟨k, hk⟩ : ∃ k, o ≠ .stack k := by
    cases o with
    | stack i => exact ⟨i + 1, fun h => by cases h⟩
    | _ => exact ⟨0, fun h => by cases h⟩
  let s : State := ⟨Function.update regs slot (some (.ptr (.stack k) 0)), fun _ _ => none⟩
  have hx' : g.code.evalOperand E s.regs recv.value = some (.ptr o off) := by
    rw [← hx]
    cases hv : recv.value with
    | inst r' => exact Function.update_of_ne (fun h => hne (hv.trans (congrArg _ h))) ..
    | _ => rfl
  obtain ⟨⟨s', hrun⟩, hall⟩ := hfollows g.code (.refl g.code) E s _ hx' fun r' hr' =>
    ⟨k, by rw [List.mem_singleton.mp hr']; exact Function.update_self ..⟩
  obtain ⟨-, -, hplace⟩ := hall _ _ hrun
  rw [hcount] at hplace
  -- the store writes no register
  have hregs : s'.regs slot = s.regs slot := by
    obtain ⟨d, v, hd, hkind⟩ := hr
    obtain ⟨_, _, s₁, _, hstep, hrest⟩ := hrun.cons_inv
    cases hrest
    obtain ⟨-, -, -, -, -, -, -, -, -, rfl⟩ := hstep.store_inv hd hkind
    rfl
  have hslot : g.code.evalOperand E s'.regs (.inst slot) = some (.ptr (.stack k) 0) :=
    hregs.trans (Function.update_self ..)
  rw [hslot] at hplace
  cases hplace
  exact hk rfl

theorem FollowsFrom.congr_limit {slots rs : List InstRef} {recv : CoreValueContainer} {n : Nat}
    {place : ValueId} {P : Prop} (h : g.FollowsFrom slots rs recv n place ↔ n ≤ 2) (hP : P) :
    g.FollowsFrom slots rs recv n place ↔ n ≤ 2 ∧ P :=
  h.trans ⟨fun hn => ⟨hn, hP⟩, And.left⟩

theorem Emits.pointerOperand {slots rs : List InstRef} (h : g.Emits g' slots rs) {v : ValueId}
    (hv : g.PointerOperand v) : g'.PointerOperand v := by
  obtain ⟨E, regs, o, off, hx⟩ := hv
  exact ⟨E, regs, o, off, h.grows.evalOperand hx⟩

/-- An address is passed as it is unless the type of the operand is an aggregate, as the one of a
constant is: then what is passed is the address of a copy. -/
theorem presentAddress (hg : g.Ready) (recv : CoreValueContainer) (hrecv : g.module.Defined recv.value)
    (hptr : g.PointerOperand recv.value) {n : Nat} (hcount : recv.kind.refLoads n = 0) :
    ∃ out g' slots rs, g.getValuePresentation ⟨recv.value, .raw none⟩ = some (out, g') ∧
      g.Emits g' slots rs ∧ g'.Presentable out ∧
      (g'.FollowsFrom slots rs recv n out.value ↔
        ∀ ty, g.code.valueTy recv.value = some ty → isAggregateType ty = false) := by
  obtain ⟨ty, hty⟩ : ∃ ty, g.code.valueTy recv.value = some ty := Option.isSome_iff_exists.mp hrecv
  have hty' : g.module.valueTy recv.value = some ty := by
    rw [← ModuleCore.code_valueTy]
    exact hty
  have hiff : (∀ ty', g.code.valueTy recv.value = some ty' → isAggregateType ty' = false) ↔
      isAggregateType ty = false :=
    ⟨fun h => h ty hty, fun h ty' hty' => by rw [hty] at hty'; cases hty'; exact h⟩
  -- the type decides whether a slot is made
  cases hagg : isAggregateType ty with
  | true =>
    obtain ⟨slot, r, g', hrun, hemits, ⟨d, hd, -⟩, dr, hdr, hkr⟩ := rawValueToPtr_emits hg hty
    refine ⟨⟨.inst slot, .ptr ⟨ty, none⟩⟩, g', [slot], [r], ?_, hemits,
      .single (defined_inst hd) (fun _ h => nomatch h), ?_⟩
    · simp only [getValuePresentation, hty', hagg, Option.bind_eq_bind, Option.bind_some, if_true]
      exact hrun
    · rw [hiff, hagg]
      -- the slot is new, so it is not the receiver
      have hne : recv.value ≠ .inst slot := fun h => by
        have hfresh := hemits.fresh slot (List.mem_cons_self)
        have hsome : ((g.code.inst slot).map InstData.ty).isSome := by
          rw [h] at hrecv
          exact hrecv
        rw [hfresh] at hsome
        cases hsome
      exact ⟨fun h => absurd h (not_followsFrom_copy (hemits.pointerOperand hptr) hcount hne
        ⟨dr, recv.value, hdr, hkr⟩), fun h => nomatch h⟩
  | false =>
    refine ⟨⟨recv.value, .raw none⟩, g, [], [], ?_, .refl g,
      .single hrecv (fun _ h => nomatch h), ?_⟩
    -- the value itself is passed
    · simp only [getValuePresentation, hty', hagg, Option.bind_eq_bind, Option.bind_some,
        Bool.false_eq_true, if_false]
    · rw [hiff, hagg]
      exact ⟨fun _ => rfl, fun _ => followsFrom_nil.mpr ((Loads.refl g recv.value).follows hcount.symm)⟩

/-- A dereference followed by the load that presents the reference it reaches. -/
theorem derefPresent_loads (level : DerefLevel) {ty : TypePtr} (hg : g.Ready)
    (recv : CoreValueContainer) (hrecv : g.module.Defined recv.value) {n : Nat}
    (hdepth : level.depth = n + 1) (hholds : recv.kind.HoldsRefs (n + 1))
    (hty : ty = ptrType ∨ ty = g.fatPtrType) :
    ∃ c g₁ out g' rs, g.derefImpl recv level ty false = some (c, g₁) ∧
      g₁.getValuePresentation c = some (out, g') ∧ g.Emits g' [] rs ∧ g'.Presentable out ∧
      g'.Loads rs (recv.kind.derefLoads (n + 1) + 1) recv.value out.value := by
  obtain ⟨c, g₁, rs₁, hrun, hemits₁, hc, hloads₁, hkind⟩ :=
    derefImpl_loads level ty hg hrecv (hdepth ▸ hholds)
  have hnot : level.isNot = false := by
    cases level with
    | not => cases hdepth
    | deref => rfl
  rw [hnot] at hkind
  have hty₁ : ty = ptrType ∨ ty = g₁.fatPtrType := by
    have htarget : g₁.fatPtrType = g.fatPtrType := by
      unfold fatPtrType ptrWidthIntType
      rw [hemits₁.target]
    rw [htarget]
    exact hty
  obtain ⟨out, g₂, rs₂, hpresent, hemits₂, hout, hloads₂⟩ := presentRef_loads (hemits₁.ready hg) hc hty₁
  refine ⟨c, g₁, out, g₂, rs₁ ++ rs₂, hrun, ?_, hemits₁.trans hemits₂, hout, ?_⟩
  · rw [← hpresent]
    obtain ⟨v, k⟩ := c
    cases hkind
    rfl
  · rw [← hdepth]
    exact (hloads₁.grows hemits₂.grows).trans hloads₂

/-- The operand of the receiver is not passed as an address, or it is not of an aggregate type. -/
def AddressPasses (g : IRGenerator) (recv : CoreValueContainer) (n : Nat) : Prop :=
  passesOperand recv.kind n = true →
    ∀ ty, g.code.valueTy recv.value = some ty → isAggregateType ty = false

/-- The self argument of a call by reference. -/
theorem methodReceiverArgs_byRef (level : DerefLevel) {ty : TypePtr} (hg : g.Ready)
    {recv : CoreValueContainer} (hrecv : g.module.Defined recv.value)
    (hholds : g.HoldsReceiver recv level.depth)
    (hptr : (∀ fat, recv.kind = .raw fat → level.depth ≠ 0) → g.PointerOperand recv.value)
    (hty : ty = ptrType ∨ ty = g.fatPtrType) :
    ∃ p tail g' slots rs, g.methodReceiverArgs recv level true ty = some (p :: tail, g') ∧
      g.Emits g' slots rs ∧ (∀ v ∈ p :: tail, g'.module.Defined v) ∧
      (g'.SelfPointer slots rs recv level.depth p ↔
        level.depth ≤ 2 ∧ g.AddressPasses recv level.depth) := by
  -- the arguments are the presentation of the container that the dereference leaves
  have hargs : ∀ {c out : CoreValueContainer} {g₁ g₂ : IRGenerator} {r : CoreValueContainer}
      {byRef : Bool} {g₀ : IRGenerator},
      g.borrowReceiver recv level true = some (r, byRef, g₀) →
      g₀.derefImpl r level ty byRef = some (c, g₁) → g₁.getValuePresentation c = some (out, g₂) →
      ∃ tail, g.methodReceiverArgs recv level true ty = some (out.value :: tail, g₂) ∧
        out.flatten = out.value :: tail := by
    intro c out g₁ g₂ r byRef g₀ hborrow hderef hpresent
    obtain ⟨tail, htail⟩ := flatten_eq out
    refine ⟨tail, ?_, htail⟩
    simp only [methodReceiverArgs, hborrow, hderef, hpresent, Option.bind_eq_bind, Option.bind_some,
      htail]
  have hkeep : level.depth ≠ 0 → g.borrowReceiver recv level true = some (recv, true, g) := by
    intro hn
    cases level with
    | not => exact absurd rfl hn
    | deref => rfl
  generalize hdepth : level.depth = n at hholds hptr hkeep ⊢
  -- by what the receiver holds; each case gives the pointer and the loads behind it
  cases hholds with
  -- a temporary is copied to a slot, whose address is passed
  | @temporary v hv =>
    obtain rfl := DerefLevel.eq_not hdepth
    obtain ⟨vty, hvty⟩ : ∃ vty, g.code.valueTy v = some vty := Option.isSome_iff_exists.mp hrecv
    obtain ⟨slot, r, g', hrun, hemits, ⟨d, hd, hdty, -⟩, hr⟩ := rawValueToPtr_emits hg hvty
    have hborrow : g.borrowReceiver ⟨v, .raw none⟩ .not true = some (⟨.inst slot, .raw none⟩, false, g') := by
      simp only [borrowReceiver, DerefLevel.isNot, Bool.and_self, if_true, getValuePtr, hrun,
        Option.bind_eq_bind, Option.bind_some]
    have hslotty : g'.module.valueTy (.inst slot) = some .ptr := by
      rw [← ModuleCore.code_valueTy]
      show (g'.code.inst slot).map InstData.ty = _
      rw [hd, Option.map_some, hdty]
    have hpresent : g'.getValuePresentation ⟨.inst slot, .raw none⟩ = some (⟨.inst slot, .raw none⟩, g') := by
      simp only [getValuePresentation, hslotty, isAggregateType, Option.bind_eq_bind,
        Option.bind_some, Bool.false_eq_true, if_false]
    obtain ⟨tail, hall, htail⟩ := hargs hborrow rfl hpresent
    cases htail
    refine ⟨.inst slot, [], g', [slot], [r], hall, hemits, ?_, ?_⟩
    · intro w hw
      rw [List.mem_singleton.mp hw]
      exact defined_inst hd
    · exact ⟨fun _ => ⟨by omega, fun h => by cases h⟩, fun _ => holdsCopy_of_store hv hr⟩
  -- a place is passed as it is
  | place v vty =>
    obtain rfl := DerefLevel.eq_not hdepth
    obtain ⟨out, g', slots, rs, hpresent, hemits, hout, hiff⟩ :=
      presentAddress hg ⟨v, .ptr vty⟩ hrecv (hptr fun _ h => by cases h) (n := 0) rfl
    obtain ⟨tail, hall, htail⟩ := hargs (r := ⟨v, .raw none⟩) rfl rfl hpresent
    refine ⟨out.value, tail, g', slots, rs, hall, hemits, fun w hw => hout w (htail ▸ hw), ?_⟩
    exact hiff.trans ⟨fun h => ⟨by omega, fun _ => h⟩, fun h => h.2 rfl⟩
  | raw v n =>
    obtain ⟨inner, m, rfl, hinner⟩ := DerefLevel.exists_deref hdepth
    have hp := hptr fun _ _ => by omega
    -- one reference: its value is passed
    cases n with
    | zero =>
      obtain rfl := DerefLevel.eq_not hinner
      obtain ⟨out, g', slots, rs, hpresent, hemits, hout, hiff⟩ :=
        presentAddress hg ⟨v, .raw none⟩ hrecv hp (n := 1) rfl
      obtain ⟨tail, hall, htail⟩ := hargs (hkeep (by omega)) rfl hpresent
      refine ⟨out.value, tail, g', slots, rs, hall, hemits, fun w hw => hout w (htail ▸ hw), ?_⟩
      exact hiff.trans ⟨fun h => ⟨by omega, fun _ => h⟩, fun h => h.2 rfl⟩
    -- more references: all but the last are loaded
    | succ n =>
      obtain ⟨c, g₁, out, g', rs, hderef, hpresent, hemits, hout, hloads⟩ :=
        derefPresent_loads inner hg ⟨v, .raw none⟩ hrecv hinner (.raw (n + 1)) hty
      obtain ⟨tail, hall, htail⟩ := hargs (hkeep (by omega)) hderef hpresent
      refine ⟨out.value, tail, g', [], rs, hall, hemits, fun w hw => hout w (htail ▸ hw), ?_⟩
      have hcount : CoreContainerKind.derefLoads (.raw none) (n + 1) + 1 =
          CoreContainerKind.refLoads (.raw none) (n + 1 + 1) ↔ n + 1 + 1 ≤ 2 := by
        show 0 + 2 * n + 1 = n + 1 + 1 - 1 ↔ _
        omega
      refine FollowsFrom.congr_limit (followsFrom_nil.trans ?_) fun h => by cases h
      exact hloads.follows_iff (fun _ => hemits.pointerOperand hp) hcount
  -- references in a slot
  | slot v n =>
    obtain ⟨inner, m, rfl, hinner⟩ := DerefLevel.exists_deref hdepth
    have hp := hptr fun _ _ => by omega
    cases n with
    | zero =>
      obtain rfl := DerefLevel.eq_not hinner
      obtain ⟨out, g', rs, hpresent, hemits, hout, hloads⟩ := presentRef_loads hg hrecv (.inl rfl)
      obtain ⟨tail, hall, htail⟩ := hargs (hkeep (by omega)) rfl hpresent
      refine ⟨out.value, tail, g', [], rs, hall, hemits, fun w hw => hout w (htail ▸ hw), ?_⟩
      have hfollows : g'.Follows rs ⟨v, .ptr ptrType⟩ 1 out.value := hloads.follows rfl
      exact ⟨fun _ => ⟨by omega, fun h => by cases h⟩, fun _ => followsFrom_nil.mpr hfollows⟩
    | succ n =>
      obtain ⟨c, g₁, out, g', rs, hderef, hpresent, hemits, hout, hloads⟩ :=
        derefPresent_loads inner hg ⟨v, .ptr ptrType⟩ hrecv hinner (.slot n) hty
      obtain ⟨tail, hall, htail⟩ := hargs (hkeep (by omega)) hderef hpresent
      refine ⟨out.value, tail, g', [], rs, hall, hemits, fun w hw => hout w (htail ▸ hw), ?_⟩
      have hcount : CoreContainerKind.derefLoads (.ptr ptrType) (n + 1) + 1 =
          CoreContainerKind.refLoads (.ptr ptrType) (n + 1 + 1) ↔ n + 1 + 1 ≤ 2 := by
        show 1 + 2 * n + 1 = n + 1 + 1 ↔ _
        omega
      refine FollowsFrom.congr_limit (followsFrom_nil.trans ?_) fun h => by cases h
      exact hloads.follows_iff (fun _ => hemits.pointerOperand hp) hcount
  -- a fat pointer held in registers
  | @fatRaw v fat hfat =>
    obtain ⟨inner, m, rfl, hinner⟩ := DerefLevel.exists_deref hdepth
    obtain rfl := DerefLevel.eq_not hinner
    obtain ⟨tail, hall, htail⟩ := hargs (hkeep (by omega)) rfl
      (rfl : g.getValuePresentation ⟨v, .raw (some fat)⟩ = some (⟨v, .raw (some fat)⟩, g))
    refine ⟨v, tail, g, [], [], hall, .refl g, fun w hw => ?_, ?_⟩
    · rw [← htail] at hw
      simp only [CoreValueContainer.flatten, List.mem_cons, List.not_mem_nil, or_false] at hw
      obtain rfl | rfl := hw
      · exact hrecv
      · exact hfat
    · have hfollows : g.Follows [] ⟨v, .raw (some fat)⟩ 1 v := (Loads.refl g v).follows rfl
      exact ⟨fun _ => ⟨by omega, fun h => by cases h⟩, fun _ => followsFrom_nil.mpr hfollows⟩
  -- a fat pointer in a slot
  | fatSlot v =>
    obtain ⟨inner, m, rfl, hinner⟩ := DerefLevel.exists_deref hdepth
    obtain rfl := DerefLevel.eq_not hinner
    obtain ⟨out, g', rs, hpresent, hemits, hout, hloads⟩ := presentRef_loads hg hrecv (.inr rfl)
    obtain ⟨tail, hall, htail⟩ := hargs (hkeep (by omega)) rfl hpresent
    refine ⟨out.value, tail, g', [], rs, hall, hemits, fun w hw => hout w (htail ▸ hw), ?_⟩
    have hfollows : g'.Follows rs ⟨v, .ptr g.fatPtrType⟩ 1 out.value := hloads.follows rfl
    exact ⟨fun _ => ⟨by omega, fun h => by cases h⟩, fun _ => followsFrom_nil.mpr hfollows⟩

end Irgen.IRGenerator
