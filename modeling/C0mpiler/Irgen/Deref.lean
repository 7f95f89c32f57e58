import C0mpiler.Irgen.Emit
import Mathlib

/-!
# Where an automatic dereference leads

`follow` loads one reference after the other. `derefImpl` loads twice for every reference after the
first, so it reaches the place that the references lead to when there is at most one
(`deref_follows_iff`); a receiver that is passed by reference has one reference to spare.
-/

open Ir Semantics

namespace Irgen

/-- The value that `k` loads of a pointer reach. -/
def follow (t : TargetDataLayout) (M : Mem) : Nat → Val → Val
  | 0, v => v
  | k + 1, v => follow t M k (M.load t .ptr v)

theorem follow_add (t : TargetDataLayout) (M : Mem) (j k : Nat) (v : Val) :
    follow t M (j + k) v = follow t M k (follow t M j v) := by
  induction j generalizing v with
  | zero => rw [Nat.zero_add]; rfl
  | succ j ih =>
    rw [Nat.add_right_comm]
    exact ih (M.load t .ptr v)

/-! ## A chain of references -/

/-- Every stack object holds a pointer to the next one, and `o` at `off` one to the object `k`. -/
def chainMem (t : TargetDataLayout) (o : Obj) (off : Int) (k : Nat) : Mem :=
  Mem.write
    (fun o' i => match o' with
      | .stack j =>
        if (Range.mk (.stack j) 0 t.pointerSize).Contains (.stack j) i then
          some ((Val.ptr (.stack (j + 1)) 0).byteAt i.toNat)
        else none
      | _ => none)
    ⟨o, off, t.pointerSize⟩ (.ptr (.stack k) 0)

theorem load_chainMem (t : TargetDataLayout) (o : Obj) (off : Int) (k : Nat) :
    (chainMem t o off k).load t .ptr (.ptr o off) = .ptr (.stack k) 0 := by
  unfold chainMem
  rw [Mem.load_of_read (r := ⟨o, off, t.pointerSize⟩) rfl (Mem.read_write_same _ _ _)]
  exact decode_byteAt_ptr t.pointerSize_pos

theorem load_chainMem_stack (t : TargetDataLayout) {o : Obj} (off : Int) {k j : Nat}
    (ho : o ≠ .stack j) :
    (chainMem t o off k).load t .ptr (.ptr (.stack j) 0) = .ptr (.stack (j + 1)) 0 := by
  have hread : (chainMem t o off k).read ⟨.stack j, 0, t.pointerSize⟩ =
      some ((List.range t.pointerSize).map (Val.ptr (.stack (j + 1)) 0).byteAt) := by
    unfold chainMem
    rw [Mem.read_write_disjoint fun o' i h h' => ho (h.1.symm.trans h'.1)]
    unfold Mem.read
    have hbyte : ∀ i ∈ List.range t.pointerSize,
        (if (Range.mk (.stack j) 0 t.pointerSize).Contains (.stack j) (0 + (i : Int)) then
          some ((Val.ptr (.stack (j + 1)) 0).byteAt (0 + (i : Int)).toNat) else none) =
          some ((Val.ptr (.stack (j + 1)) 0).byteAt i) := by
      intro i hi
      have hlt := List.mem_range.mp hi
      have hin : (Range.mk (.stack j) 0 t.pointerSize).Contains (.stack j) (0 + (i : Int)) :=
        Range.contains_add hlt
      rw [if_pos hin]
      congr 2
      omega
    rw [OptionFold.mapM_congr hbyte]
    exact List.mapM_pure
  rw [Mem.load_of_read rfl hread]
  exact decode_byteAt_ptr t.pointerSize_pos

/-- Along the chain every number of loads reaches another object. -/
theorem follow_chainMem (t : TargetDataLayout) {o : Obj} (off : Int) {k : Nat}
    (ho : ∀ j, k ≤ j → o ≠ .stack j) (n : Nat) :
    follow t (chainMem t o off k) (n + 1) (.ptr o off) = .ptr (.stack (k + n)) 0 := by
  have hstack : ∀ n j, k ≤ j →
      follow t (chainMem t o off k) n (.ptr (.stack j) 0) = .ptr (.stack (j + n)) 0 := by
    intro n
    induction n with
    | zero => exact fun _ _ => rfl
    | succ n ih =>
      intro j hj
      rw [follow, load_chainMem_stack t off (ho j hj), ih (j + 1) (by omega)]
      congr 2
      omega
  rw [follow, load_chainMem, hstack n k le_rfl]

theorem exists_follow_injective (t : TargetDataLayout) (o : Obj) (off : Int) :
    ∃ M, ∀ j k, follow t M j (.ptr o off) = follow t M k (.ptr o off) → j = k := by
  obtain ⟨k₀, ho⟩ : ∃ k₀, ∀ j, k₀ ≤ j → o ≠ .stack j := by
    cases o with
    | stack i => exact ⟨i + 1, fun j hj h => by cases h; omega⟩
    | _ => exact ⟨0, fun j _ h => by cases h⟩
  refine ⟨chainMem t o off k₀, fun j k h => ?_⟩
  cases j with
  | zero =>
    cases k with
    | zero => rfl
    | succ k =>
      rw [follow_chainMem t off ho] at h
      cases h
      exact absurd rfl (ho (k₀ + k) (by omega))
  | succ j =>
    rw [follow_chainMem t off ho] at h
    cases k with
    | zero =>
      cases h
      exact absurd rfl (ho (k₀ + j) (by omega))
    | succ k =>
      rw [follow_chainMem t off ho] at h
      simp only [Val.ptr.injEq, Obj.stack.injEq, and_true] at h
      omega

/-! ## Containers of references -/

namespace CoreContainerKind

/-- The loads that read the container. -/
def loads : CoreContainerKind → Nat
  | .raw _ => 0
  | .ptr _ => 1

/-- The loads that follow `n` references, from the value of the container on. -/
def refLoads (k : CoreContainerKind) (n : Nat) : Nat :=
  match k with
  | .raw _ => n - 1
  | .ptr _ => n

/-- The loads that `derefImpl` makes for `n` references. -/
def derefLoads (k : CoreContainerKind) : Nat → Nat
  | 0 => 0
  | n + 1 => k.loads + 2 * n

/-- How the generator holds a value whose type is `n` nested references: in a slot, or raw. -/
inductive HoldsRefs : CoreContainerKind → Nat → Prop
  | raw (n : Nat) : HoldsRefs (.raw none) n
  | place (ty : TypePtr) : HoldsRefs (.ptr ty) 0
  | slot (n : Nat) : HoldsRefs (.ptr ptrType) (n + 1)

theorem HoldsRefs.derefLoads_eq_iff {k : CoreContainerKind} {n : Nat} (h : k.HoldsRefs n) :
    k.derefLoads n = k.refLoads n ↔ n ≤ 1 := by
  cases h with
  | place ty => exact ⟨fun _ => Nat.zero_le 1, fun _ => rfl⟩
  | raw n =>
    cases n with
    | zero => exact ⟨fun _ => Nat.zero_le 1, fun _ => rfl⟩
    | succ n =>
      show 0 + 2 * n = n + 1 - 1 ↔ _
      omega
  | slot n =>
    show 1 + 2 * n = n + 1 ↔ _
    omega

end CoreContainerKind

/-! ## What the emitted instructions compute -/

namespace IRGenerator

variable {g g' g'' : IRGenerator} {slots rs rs' : List InstRef}

/-- In code that keeps that of `g`, running `rs` loads `k` times, starting from the value of `v`,
and `w` is the result. -/
structure Loads (g : IRGenerator) (rs : List InstRef) (k : Nat) (v w : ValueId) : Prop where
  determined : ∀ r ∈ rs, ∃ d, g.code.inst r = some d ∧ d.kind.Determined
  run : ∀ C, g.code.Grows C → ∀ E s x, C.evalOperand E s.regs v = some x →
    ∃ s', C.Run E s rs [] s' ∧ s'.mem = s.mem ∧
      C.evalOperand E s'.regs w = some (follow E.target s.mem k x)

namespace Loads

theorem refl (g : IRGenerator) (v : ValueId) : g.Loads [] 0 v v where
  determined _ h := nomatch h
  run _ _ _ s _ hx := ⟨s, .nil s, rfl, hx⟩

theorem grows {k : Nat} {v w : ValueId} (h : g.Loads rs k v w) (hgrows : g.code.Grows g'.code) :
    g'.Loads rs k v w where
  determined r hr := by
    obtain ⟨d, hd, hk⟩ := h.determined r hr
    exact ⟨d, hgrows.inst r d hd, hk⟩
  run C hC := h.run C (hgrows.trans hC)

theorem trans {j k : Nat} {u v w : ValueId} (h : g.Loads rs j u v) (h' : g.Loads rs' k v w) :
    g.Loads (rs ++ rs') (j + k) u w where
  determined r hr := by
    cases List.mem_append.mp hr with
    | inl hr => exact h.determined r hr
    | inr hr => exact h'.determined r hr
  run C hC E s x hx := by
    obtain ⟨s₁, hrun, hmem, hv⟩ := h.run C hC E s x hx
    obtain ⟨s₂, hrun', hmem', hw⟩ := h'.run C hC E s₁ _ hv
    refine ⟨s₂, hrun.append hrun', hmem'.trans hmem, ?_⟩
    rw [hw, hmem, follow_add]

/-- One load instruction. -/
theorem load {r : InstRef} {d : InstData} {ptr : ValueId} (hd : g.code.inst r = some d)
    (hty : d.ty = .ptr) (hk : d.kind = .load ptr) : g.Loads [r] 1 ptr (.inst r) where
  determined r' hr' := by
    rw [List.mem_singleton.mp hr']
    exact ⟨d, hd, by rw [hk]; trivial⟩
  run C hC E s x hx := by
    refine ⟨s.set r (s.mem.load E.target d.ty x), ?_, rfl, ?_⟩
    · exact .cons (.load (hC.inst r d hd) hk hx) (.nil _)
    · show Function.update s.regs r _ r = _
      rw [Function.update_self, hty]
      rfl

end Loads

/-! ## Dereferencing -/

theorem getRawValue_loads (hg : g.Ready) {c : CoreValueContainer} (hc : g.module.Defined c.value)
    (hkind : c.kind = .raw none ∨ c.kind = .ptr ptrType) :
    ∃ v g' rs, g.getRawValue c = some (v, g') ∧ g.Emits g' [] rs ∧ g'.module.Defined v ∧
      g'.Loads rs c.kind.loads c.value v := by
  obtain ⟨value, kind⟩ := c
  dsimp only at hc hkind ⊢
  obtain rfl | rfl := hkind
  · exact ⟨value, g, [], rfl, .refl g, hc, .refl g value⟩
  · obtain ⟨r, g', hrun, hemits, d, hd, hty, hk⟩ := buildLoad_emits hg .ptr hc
    exact ⟨.inst r, g', [r], hrun, hemits, defined_inst hd, .load hd hty hk⟩

theorem derefImpl_loads (level : DerefLevel) (ty : TypePtr) (hg : g.Ready) {c : CoreValueContainer}
    (hc : g.module.Defined c.value) (hholds : c.kind.HoldsRefs level.depth) :
    ∃ out g' rs, g.derefImpl c level ty false = some (out, g') ∧ g.Emits g' [] rs ∧
      g'.module.Defined out.value ∧
      g'.Loads rs (c.kind.derefLoads level.depth) c.value out.value ∧
      out.kind = if level.isNot then c.kind else .ptr ty := by
  induction level generalizing g c with
  | not => exact ⟨c, g, [], rfl, .refl g, hc, .refl g c.value, rfl⟩
  | deref inner m ih =>
    have hkind : c.kind = .raw none ∨ c.kind = .ptr ptrType := by
      generalize hd : (DerefLevel.deref inner m).depth = n at hholds
      generalize c.kind = k at hholds
      cases hholds with
      | raw => exact Or.inl rfl
      | slot => exact Or.inr rfl
      | place => cases hd
    obtain ⟨v, g₁, rs₁, hraw, hemits₁, hv, hloads₁⟩ := getRawValue_loads hg hc hkind
    cases inner with
    | not =>
      refine ⟨⟨v, .ptr ty⟩, g₁, rs₁, ?_, hemits₁, hv, hloads₁, rfl⟩
      simp only [derefImpl, hraw, Option.bind_eq_bind, Option.bind_some, DerefLevel.isNot,
        Bool.false_eq_true, if_false, if_true]
    | deref inner' m' =>
      -- the loaded value goes into the next round as a slot, which loads it once more
      obtain ⟨r, g₂, hload, hemits₂, d, hd, hty, hk⟩ := buildLoad_emits (hemits₁.ready hg) .ptr hv
      have hloads₂ : g₂.Loads [r] 1 v (.inst r) := .load hd hty hk
      obtain ⟨out, g₃, rs₃, hrec, hemits₃, hout, hloads₃, hkind₃⟩ :=
        ih (hemits₂.ready (hemits₁.ready hg)) (c := ⟨.inst r, .ptr ptrType⟩) (defined_inst hd)
          (.slot inner'.depth)
      refine ⟨out, g₃, rs₁ ++ [r] ++ rs₃, ?_, (hemits₁.trans hemits₂).trans hemits₃, hout, ?_, hkind₃⟩
      · simp only [derefImpl, hraw, Option.bind_eq_bind, Option.bind_some, DerefLevel.isNot,
          Bool.false_eq_true, if_false, hload]
        exact hrec
      · have hall := ((hloads₁.grows hemits₂.grows).trans hloads₂).grows hemits₃.grows |>.trans hloads₃
        have hcount : c.kind.loads + 1 + (1 + 2 * inner'.depth) =
            c.kind.derefLoads (DerefLevel.deref (.deref inner' m') m).depth := by
          show _ = c.kind.loads + 2 * (inner'.depth + 1)
          omega
        exact hcount ▸ hall

/-! ## The place that an access uses -/

/-- Running `rs` leaves in `place` the address that the `n` references of `recv` lead to, loaded one
after the other. -/
def Follows (g : IRGenerator) (rs : List InstRef) (recv : CoreValueContainer) (n : Nat)
    (place : ValueId) : Prop :=
  ∀ C, g.code.Grows C → ∀ E s x, C.evalOperand E s.regs recv.value = some x →
    (∃ s', C.Run E s rs [] s') ∧ ∀ evs s', C.Run E s rs evs s' → evs = [] ∧ s'.mem = s.mem ∧
      C.evalOperand E s'.regs place = some (follow E.target s.mem (recv.kind.refLoads n) x)

/-- The operand can hold a pointer. -/
def PointerOperand (g : IRGenerator) (v : ValueId) : Prop :=
  ∃ E regs o off, g.code.evalOperand E regs v = some (.ptr o off)

theorem Loads.follows {k n : Nat} {recv : CoreValueContainer} {place : ValueId}
    (h : g.Loads rs k recv.value place) (hk : k = recv.kind.refLoads n) :
    g.Follows rs recv n place := by
  intro C hC E s x hx
  obtain ⟨s', hrun, hmem, hplace⟩ := h.run C hC E s x hx
  refine ⟨⟨s', hrun⟩, fun evs s'' hrun' => ?_⟩
  have hdet : ∀ r ∈ rs, ∃ d, C.inst r = some d ∧ d.kind.Determined := by
    intro r hr
    obtain ⟨d, hd, hkind⟩ := h.determined r hr
    exact ⟨d, hC.inst r d hd, hkind⟩
  obtain ⟨rfl, rfl⟩ := hrun.unique hrun' hdet
  exact ⟨rfl, hmem, hk ▸ hplace⟩

/-- Another number of loads goes astray where every reference leads to a place of its own. -/
theorem Loads.of_follows {k n : Nat} {recv : CoreValueContainer} {place : ValueId}
    (h : g.Loads rs k recv.value place) (hptr : g.PointerOperand recv.value)
    (hfollows : g.Follows rs recv n place) : k = recv.kind.refLoads n := by
  obtain ⟨E, regs, o, off, hx⟩ := hptr
  obtain ⟨M, hM⟩ := exists_follow_injective E.target o off
  obtain ⟨s', hrun, -, hplace⟩ := h.run g.code (.refl g.code) E ⟨regs, M⟩ _ hx
  obtain ⟨-, -, hplace'⟩ := (hfollows g.code (.refl g.code) E ⟨regs, M⟩ _ hx).2 _ _ hrun
  rw [hplace, Option.some.injEq] at hplace'
  exact hM _ _ hplace'

theorem Loads.follows_iff {k n : Nat} {recv : CoreValueContainer} {place : ValueId}
    (h : g.Loads rs k recv.value place) (hptr : n ≠ 0 → g.PointerOperand recv.value) {limit : Nat}
    (hcount : k = recv.kind.refLoads n ↔ n ≤ limit) : g.Follows rs recv n place ↔ n ≤ limit := by
  constructor
  · intro hfollows
    rcases Nat.eq_zero_or_pos n with rfl | hn
    · exact Nat.zero_le limit
    · exact hcount.mp (h.of_follows (hptr hn.ne') hfollows)
  · intro hn
    exact h.follows (hcount.mpr hn)

/-- A dereference reaches the right place when there is at most one reference. -/
theorem deref_follows_iff (level : DerefLevel) (ty : TypePtr) (hg : g.Ready)
    {recv : CoreValueContainer} (hrecv : g.module.Defined recv.value)
    (hholds : recv.kind.HoldsRefs level.depth)
    (hptr : level.depth ≠ 0 → g.PointerOperand recv.value) :
    ∃ out g' rs, g.deref recv level ty = some (out, g') ∧ g.Emits g' [] rs ∧
      g'.module.Defined out.value ∧ out.kind = (if level.isNot then recv.kind else .ptr ty) ∧
      (g'.Follows rs recv level.depth out.value ↔ level.depth ≤ 1) := by
  obtain ⟨out, g', rs, hrun, hemits, hout, hloads, hkind⟩ := derefImpl_loads level ty hg hrecv hholds
  refine ⟨out, g', rs, hrun, hemits, hout, hkind, hloads.follows_iff ?_ hholds.derefLoads_eq_iff⟩
  intro hn
  obtain ⟨E, regs, o, off, hx⟩ := hptr hn
  exact ⟨E, regs, o, off, hemits.grows.evalOperand hx⟩

end IRGenerator

end Irgen
