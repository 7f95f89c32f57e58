import C0mpiler.Opt.ForwardLoop
import Mathlib

/-!
# Forwarding memory preserves what a block does

The execution of a block before and after `local_forward_memory`. While the loop of the pass and
the execution of the old block run side by side, the registers of the two executions agree on
everything that is not a replaced load, and the memories agree except where a store that will be
erased has written and the store that supersedes it has not run yet (`Pending`, `Sim`).
-/

namespace Ir

open ModuleCore

variable {C T : Code} {E : Env} {R : InstRef → Prop} {l : List InstRef} {k : Nat} {σ : ValueId → ValueId}
  {st st' : ForwardState} {i : InstRef} {d : InstData} {s s₁ t : State} {ev : List Event}

/-! ## A sound alias test -/

/-- In the state `s`, two accesses of `l` whose pointers the alias test tells apart, and which lie
inside their objects, touch different bytes. -/
def AliasSoundAt (m : ModuleCore) (E : Env) (l : List InstRef) (s : State) : Prop :=
  ∀ a ∈ l, ∀ b ∈ l, ∀ p q ty ty', m.code.accessOf a = some (p, ty) →
    m.code.accessOf b = some (q, ty') → m.ptrMayAlias p q = some false →
    ∀ vp vq r r', m.code.evalOperand E s.regs p = some vp →
      m.code.evalOperand E s.regs q = some vq → vp.range E.target ty = some r →
      vq.range E.target ty' = some r' → s.mem.InBounds r → s.mem.InBounds r' → r.Disjoint r'

/-- The alias test is sound in every state that an execution of the block passes through. -/
def AliasSound (m : ModuleCore) (E : Env) (l : List InstRef) (s₀ : State) : Prop :=
  ∀ pre evs s, pre <+: l → m.code.Run E s₀ pre evs s → AliasSoundAt m E pre s

/-! ## The two executions side by side -/

/-- The range an access of the type of `v` through `p` touches. -/
def AccessRange (C : Code) (E : Env) (s : State) (p v : ValueId) (r : Range) : Prop :=
  ∃ vp ty, C.evalOperand E s.regs p = some vp ∧ C.operandTy v = some ty ∧
    vp.range E.target ty = some r

theorem AccessRange.unique {p v : ValueId} {r r' : Range} (h : AccessRange C E s p v r)
    (h' : AccessRange C E s p v r') : r = r' := by
  obtain ⟨vp, ty, hvp, hty, hr⟩ := h
  obtain ⟨vp', ty', hvp', hty', hr'⟩ := h'
  rw [hvp] at hvp'
  cases hvp'
  rw [hty] at hty'
  cases hty'
  rw [hr] at hr'
  exact Option.some.inj hr'

/-- The memory behind `p` holds the value of `v`. -/
def Holds (C : Code) (E : Env) (s : State) (p v : ValueId) : Prop :=
  ∃ vp ty x, C.evalOperand E s.regs p = some vp ∧ C.operandTy v = some ty ∧
    C.evalOperand E s.regs v = some x ∧ s.mem.load E.target ty vp = x

/-- The byte was written by a store that will be erased and is not superseded yet. -/
def Pending (C : Code) (E : Env) (R : InstRef → Prop) (st : ForwardState) (s : State) (o : Obj)
    (x : Int) : Prop :=
  ∃ p e r, st.lastStore.lookup p = some e ∧ R e.inst ∧ AccessRange C E s p e.value r ∧
    r.Contains o x

/-- The old execution is in state `s`, the new one in state `t`; the instructions in `R` are
erased. -/
structure Sim (C : Code) (E : Env) (R : InstRef → Prop) (σ : ValueId → ValueId)
    (st : ForwardState) (s t : State) : Prop where
  regs : ∀ r, σ (.inst r) = .inst r → t.regs r = s.regs r
  subst : ∀ v, C.evalOperand E s.regs (σ v) = C.evalOperand E s.regs v
  dom : ∀ o x, (t.mem o x).isSome = (s.mem o x).isSome
  mem : ∀ o x, ¬ Pending C E R st s o x → t.mem o x = s.mem o x
  stores : ∀ p e, st.lastStore.lookup p = some e → Holds C E s p e.value ∧
    ∃ r, AccessRange C E s p e.value r ∧ s.mem.InBounds r
  loads : ∀ p e, st.lastLoad.lookup p = some e → Holds C E s p e.value

theorem sim_start (m : ModuleCore) (s : State) : Sim C E R id (.start m) s s where
  regs _ _ := rfl
  subst _ := rfl
  dom _ _ := rfl
  mem _ _ _ := rfl
  stores _ _ he := nomatch he
  loads _ _ he := nomatch he

/-- What one step of the loop and of the old execution may rely on. `T` is the code after the
deletions. -/
structure ForwardStep (C T : Code) (E : Env) (R : InstRef → Prop) (l : List InstRef) (k : Nat)
    (σ : ValueId → ValueId) (st st' : ForwardState) (i : InstRef) (d : InstData) (s : State)
    (ev : List Event) (s₁ : State) : Prop where
  loop : Forwarding C l k σ st
  ready : BlockReady C l
  here : AtStep C l k σ st i d
  exec : st.module.code.Exec E s i ev s₁
  distinct : AliasSoundAt st.module E (l.take (k + 1)) s₁
  consts : T.constData = C.constData
  inst : ¬ R i → T.inst i = some d.code
  operandTy : ¬ R i → ∀ op ∈ d.kind.valueOperands, T.operandTy op.1 = C.operandTy op.1
  requests : ∀ r, R r → r ∈ st'.toRemove ∨ (∃ p e, st'.lastStore.lookup p = some e ∧ e.inst = r) ∨
    r ∉ l.take (k + 1)
  loads : ∀ r ∈ st'.toRemove, (¬ ∃ d value ptr, C.inst r = some d ∧ d.kind = .store value ptr) → R r

/-- The new execution skips the instructions that are erased. -/
def Follows (T : Code) (E : Env) (R : InstRef → Prop) (t : State) (i : InstRef) (ev : List Event)
    (t₁ : State) : Prop :=
  (R i ∧ ev = [] ∧ t₁ = t) ∨ (¬ R i ∧ T.Exec E t i ev t₁)

section Arms

theorem Forwarding.evalOperand_eq (h : Forwarding C l k σ st) (regs : Regs) :
    st.module.code.evalOperand E regs = C.evalOperand E regs := by
  rw [h.code, Code.evalOperand_mapOperands]

/-- An operand that is no replaced load has the same value in both executions. -/
theorem Sim.evalOperand (h : Sim C E R σ st s t) {v : ValueId} (hv : σ v = v) :
    C.evalOperand E t.regs v = C.evalOperand E s.regs v := by
  cases v with
  | inst r => exact h.regs r hv
  | _ => rfl

/-- What the tables know is so. -/
theorem Sim.known (h : Sim C E R σ st s t) {ptr : ValueId} {e : LoadEntry}
    (he : st.known ptr = some e) : Holds C E s ptr e.value := by
  unfold ForwardState.known at he
  split at he
  · next se hse =>
    cases he
    exact (h.stores ptr se hse).1
  · exact h.loads ptr e he

namespace ForwardStep

variable (h : ForwardStep C T E R l k σ st st' i d s ev s₁)
include h

theorem mem_take : i ∈ l.take (k + 1) := (mem_take_succ h.here.pos).mpr (Or.inr rfl)

theorem notMem_take : i ∉ l.take k := Ir.notMem_take h.ready.nodup h.here.pos

theorem eval_frame {v : ValueId} (hv : DefinedBefore l k v) :
    C.evalOperand E s₁.regs v = C.evalOperand E s.regs v := by
  have hframe := h.exec.evalOperand_of_ne (hv.ne h.here.pos)
  rwa [h.loop.evalOperand_eq, h.loop.evalOperand_eq] at hframe

/-- The operands of the instruction have the same values in the new execution. -/
theorem operand_eval (hsim : Sim C E R σ st s t) :
    ∀ op ∈ d.kind.valueOperands, T.evalOperand E t.regs op.1 = C.evalOperand E s.regs op.1 := by
  intro op hop
  rw [Code.evalOperand_consts h.consts]
  exact hsim.evalOperand (h.here.operand op hop).2

theorem holds_frame {p v : ValueId} (hp : DefinedBefore l k p) (hv : DefinedBefore l k v)
    (hold : Holds C E s p v)
    (hload : ∀ vp ty, C.evalOperand E s.regs p = some vp → C.operandTy v = some ty →
      s₁.mem.load E.target ty vp = s.mem.load E.target ty vp) : Holds C E s₁ p v := by
  obtain ⟨vp, ty, x, hvp, hty, hx, hl⟩ := hold
  refine ⟨vp, ty, x, ?_, hty, ?_, ?_⟩
  · rw [h.eval_frame hp, hvp]
  · rw [h.eval_frame hv, hx]
  · rw [hload vp ty hvp hty, hl]

theorem range_frame {p v : ValueId} {r : Range} (hp : DefinedBefore l k p) :
    AccessRange C E s₁ p v r ↔ AccessRange C E s p v r := by
  unfold AccessRange
  rw [h.eval_frame hp]

/-- The substitution stays sound when the instruction is not replaced. -/
theorem subst_frame (hsim : Sim C E R σ st s t) (v : ValueId) :
    C.evalOperand E s₁.regs (σ v) = C.evalOperand E s₁.regs v := by
  by_cases hv : σ v = v
  · rw [hv]
  · obtain ⟨hb, r, hr, hmem, -⟩ := h.loop.replaced v hv
    have hbv : DefinedBefore l k v := hr ▸ definedBefore_of_mem_take h.ready.nodup hmem
    rw [h.eval_frame hb, h.eval_frame hbv, hsim.subst]

/-- An instruction that is neither a replaced load nor a store stays. -/
theorem kept (hrem : i ∉ st'.toRemove)
    (hstore : ∀ p e, st'.lastStore.lookup p = some e → e.inst ≠ i) : ¬ R i := by
  intro hR
  rcases h.requests i hR with hin | ⟨p, e, he, heq⟩ | hout
  · exact hrem hin
  · exact hstore p e he heq
  · exact hout h.mem_take

/-- One store stands under one pointer. -/
theorem store_unique {p p' : ValueId} {e e' : StoreEntry} (he : st.lastStore.lookup p = some e)
    (he' : st.lastStore.lookup p' = some e') (hinst : e.inst = e'.inst) : p = p' ∧ e = e' := by
  obtain ⟨d₁, hd₁, hk₁⟩ := (h.loop.stores p e he).inst
  obtain ⟨d₂, hd₂, hk₂⟩ := (h.loop.stores p' e' he').inst
  rw [hinst, hd₂] at hd₁
  cases hd₁
  obtain ⟨-, hp⟩ := InstKind.store.inj (hk₁.symm.trans hk₂)
  subst hp
  rw [he] at he'
  exact ⟨rfl, Option.some.inj he'⟩

/-- An erased store that is in the table before an arm which requests no deletion of it is in the
table afterwards. -/
theorem entry_stays {p : ValueId} {e : StoreEntry} (he : st.lastStore.lookup p = some e)
    (hR : R e.inst) (hrem : e.inst ∉ st'.toRemove)
    (hnew : ∀ p' e', st'.lastStore.lookup p' = some e' → e'.inst ≠ i →
      st.lastStore.lookup p' = some e') : st'.lastStore.lookup p = some e := by
  have hknown := h.loop.stores p e he
  rcases h.requests e.inst hR with hin | ⟨p', e', he', heq⟩ | hout
  · exact absurd hin hrem
  · have hne : e'.inst ≠ i := by
      rw [heq]
      exact fun h' => h.notMem_take (h' ▸ hknown.mem)
    obtain ⟨rfl, rfl⟩ := h.store_unique he (hnew p' e' he' hne) heq.symm
    exact he'
  · exact absurd ((List.take_subset_take_left l k.le_succ) hknown.mem) hout

/-! ### One lemma for each arm -/

/-- A replaced load has the value that replaces it. -/
theorem replace (hsim : Sim C E R σ st s t) {ptr : ValueId} {e : LoadEntry} {m : ModuleCore}
    (hk : d.kind = .load ptr) (he : st.known ptr = some e)
    (hty : st.module.code.operandTy e.value = some d.ty)
    (heq : st' = { st with module := m, toRemove := st.toRemove ++ [i] }) :
    ∃ t₁, Follows T E R t i ev t₁ ∧ Sim C E R (replaceLoad i e.value σ) st' s₁ t₁ := by
  obtain ⟨hev, vp, hvp, hs₁⟩ := h.exec.load_inv h.here.code hk
  rw [h.loop.evalOperand_eq] at hvp
  rw [h.loop.operandTy_eq] at hty
  obtain ⟨⟨hbefore, hfix⟩, -⟩ := h.loop.known_of he
  have hne : e.value ≠ .inst i := hbefore.ne h.here.pos
  have hself : σ (.inst i) = .inst i := by
    by_contra hcontra
    obtain ⟨-, r, hr, hmem, -⟩ := h.loop.replaced _ hcontra
    cases hr
    exact h.notMem_take hmem
  -- the load is one of the instructions that go
  have hR : R i := by
    refine h.loads i (by rw [heq]; exact List.mem_append_right _ List.mem_cons_self) ?_
    rintro ⟨d₀, value, ptr', hd₀, hk₀⟩
    have hcode := h.here.code
    rw [h.loop.code] at hcode
    obtain ⟨d₁, hd₁, -, -, hkind⟩ := Code.inst_of_mapOperands hcode
    rw [hd₀] at hd₁
    cases hd₁
    rw [hk₀] at hkind
    have hload : d.code.kind = .load ptr := hk
    rw [hload] at hkind
    split at hkind <;> cases hkind
  -- the loaded value is the one the table knows
  obtain ⟨vp', ty, x, hvp', hty', hx, hload⟩ := hsim.known he
  rw [hvp] at hvp'
  cases hvp'
  rw [hty] at hty'
  cases hty'
  have hval : C.evalOperand E s₁.regs (.inst i) = some x := by
    rw [hs₁]
    show Function.update s.regs i _ i = _
    rw [Function.update_self]
    exact congrArg some hload
  have hvalue : C.evalOperand E s₁.regs e.value = some x := by rw [h.eval_frame hbefore, hx]
  have hmem : s₁.mem = s.mem := by rw [hs₁]; rfl
  have hstore : st'.lastStore = st.lastStore := by rw [heq]
  have hloads : st'.lastLoad = st.lastLoad := by rw [heq]
  -- the new code does nothing here: the registers differ at a load that no use reads any more
  refine ⟨t, Or.inl ⟨hR, hev, rfl⟩, ?_⟩
  constructor
  -- registers of the values that stay
  · intro r hr
    have hri : σ (.inst r) ≠ .inst i := by
      intro hri
      rw [replaceLoad_of_eq hri] at hr
      rw [hr, hri] at hfix
      exact hne (hr.trans hfix.symm)
    rw [replaceLoad_of_ne hri] at hr
    have hne' : r ≠ i := fun h' => hri (h' ▸ hself)
    rw [hsim.regs r hr, hs₁]
    exact (Function.update_of_ne hne' _ _).symm
  -- every value is read through the substitution
  · intro v
    by_cases hv : σ v = .inst i
    · rw [replaceLoad_of_eq hv, hvalue]
      -- only the load itself maps to the load
      have hvi : v = .inst i := by
        by_contra hcontra
        have hmoved : σ v ≠ v := fun h' => hcontra (h'.symm.trans hv)
        exact (h.loop.replaced v hmoved).1.ne h.here.pos hv
      rw [hvi, hval]
    · rw [replaceLoad_of_ne hv]
      exact h.subst_frame hsim v
  -- domains of the memories
  · rw [hmem]
    exact hsim.dom
  -- bytes no pending store covers
  · intro o x hpend
    rw [hmem]
    refine hsim.mem o x fun ⟨p, se, r, hse, hRse, hr, hc⟩ => hpend ?_
    exact ⟨p, se, r, by rw [hstore]; exact hse, hRse,
      (h.range_frame (h.loop.stores p se hse).ptr.1).mpr hr, hc⟩
  -- the table of stores
  · intro p se hse
    rw [hstore] at hse
    obtain ⟨hold, r, hr, hin⟩ := hsim.stores p se hse
    have hknown := h.loop.stores p se hse
    refine ⟨h.holds_frame hknown.ptr.1 hknown.value.1 hold fun _ _ _ _ => by rw [hmem], r, ?_, ?_⟩
    · exact (h.range_frame hknown.ptr.1).mpr hr
    · rw [hmem]
      exact hin
  -- the table of loads
  · intro p le hle
    rw [hloads] at hle
    have hknown := h.loop.loads p le hle
    exact h.holds_frame hknown.ptr.1 hknown.value.1 (hsim.loads p le hle) fun _ _ _ _ => by rw [hmem]

/-- The alias test keeps an access of the tables and the access of the instruction apart. -/
theorem disjoint {p v ptr : ValueId} {ty : Ty} {vp : Val} {r r' : Range}
    (hacc : ∃ a ∈ l.take k, ∀ ty, C.operandTy v = some ty →
      st.module.code.accessOf a = some (p, ty))
    (hp : DefinedBefore l k p) (hptr : DefinedBefore l k ptr)
    (hi : st.module.code.accessOf i = some (ptr, ty)) (hmay : st.module.ptrMayAlias p ptr = some false)
    (hr : AccessRange C E s p v r) (hvp : C.evalOperand E s.regs ptr = some vp)
    (hr' : vp.range E.target ty = some r') (hin : s₁.mem.InBounds r) (hin' : s₁.mem.InBounds r') :
    r.Disjoint r' := by
  obtain ⟨a, ha, hacc⟩ := hacc
  obtain ⟨vp₀, ty₀, hvp₀, hty₀, hrange⟩ := hr
  refine h.distinct a ((List.take_subset_take_left l k.le_succ) ha) i h.mem_take p ptr ty₀ ty
    (hacc ty₀ hty₀) hi hmay vp₀ vp r r' ?_ ?_ hrange hr' hin hin'
  · rw [h.loop.evalOperand_eq, h.eval_frame hp, hvp₀]
  · rw [h.loop.evalOperand_eq, h.eval_frame hptr, hvp]

theorem store_access {p : ValueId} {e : StoreEntry} (he : st.lastStore.lookup p = some e) :
    ∃ a ∈ l.take k, ∀ ty, C.operandTy e.value = some ty →
      st.module.code.accessOf a = some (p, ty) := by
  have hknown := h.loop.stores p e he
  obtain ⟨d₁, hd₁, hk₁⟩ := hknown.inst
  refine ⟨e.inst, hknown.mem, fun ty hty => Code.accessOf_store hd₁ hk₁ ?_⟩
  rw [h.loop.operandTy_eq, hty]

/-- When both executions write the same register. -/
theorem regs_set {x : Val} (hsim : Sim C E R σ st s t) (hs₁ : s₁.regs = (s.set i x).regs) :
    ∀ r, σ (.inst r) = .inst r → (t.set i x).regs r = s₁.regs r := by
  intro r hr
  rw [hs₁]
  by_cases hri : r = i
  · subst hri
    show Function.update _ _ _ _ = Function.update _ _ _ _
    rw [Function.update_self, Function.update_self]
  · show Function.update _ _ _ _ = Function.update _ _ _ _
    rw [Function.update_of_ne hri, Function.update_of_ne hri, hsim.regs r hr]

/-- A load that is kept reads the same value in both executions. -/
theorem keep (hsim : Sim C E R σ st s t) {ptr : ValueId} {lastStore : HashMap ValueId StoreEntry}
    (hk : d.kind = .load ptr)
    (he : ∀ e, st.known ptr = some e → st.module.valueTy e.value ≠ some e.ty)
    (hs : st.module.killAliasing st.lastStore ptr = some lastStore)
    (heq : st' = { st with lastStore, lastLoad := st.lastLoad.insert ptr ⟨.inst i, d.ty⟩ }) :
    ∃ t₁, Follows T E R t i ev t₁ ∧ Sim C E R σ st' s₁ t₁ := by
  obtain ⟨hev, vp, hvp, hs₁⟩ := h.exec.load_inv h.here.code hk
  rw [h.loop.evalOperand_eq] at hvp
  have hptr := h.here.load_ptr hk
  -- a stored value under the pointer would have answered the load
  have hnone : st.lastStore.lookup ptr = none := by
    cases hlook : st.lastStore.lookup ptr with
    | none => rfl
    | some se =>
      have hknown : st.known ptr = some ⟨se.value, se.ty⟩ := by
        unfold ForwardState.known
        rw [hlook]
      refine absurd ?_ (he _ hknown)
      rw [h.loop.valueTy_eq]
      exact (h.loop.stores ptr se hlook).ty
  have hold : ∀ p e, st'.lastStore.lookup p = some e →
      st.lastStore.lookup p = some e ∧ (p = ptr ∨ st.module.ptrMayAlias p ptr = some false) := by
    rw [heq]
    exact fun p e => killAliasing_lookup hs
  have hrem : st'.toRemove = st.toRemove := by rw [heq]
  have hkept : ¬ R i := by
    refine h.kept ?_ fun p e hpe hei => ?_
    · rw [hrem]
      exact fun hin => h.notMem_take (h.loop.removed i hin).1
    · exact h.notMem_take (hei ▸ (h.loop.stores p e (hold p e hpe).1).mem)
  have hstays : ∀ p e, st.lastStore.lookup p = some e → R e.inst →
      st'.lastStore.lookup p = some e := fun p e hpe hR =>
    h.entry_stays hpe hR (hrem ▸ (h.loop.stores p e hpe).kept) fun p' e' hpe' _ => (hold p' e' hpe').1
  have hmem : s₁.mem = s.mem := by rw [hs₁]; rfl
  -- no pending byte lies in the range that is read
  have hload : t.mem.load E.target d.ty vp = s.mem.load E.target d.ty vp := by
    refine Mem.load_congr_inBounds hsim.dom fun r hr hin o x hc => hsim.mem o x ?_
    rintro ⟨p, e, rp, hpe, hR, hrp, hcp⟩
    obtain ⟨-, hsame | hmay⟩ := hold p e (hstays p e hpe hR)
    · rw [hsame, hnone] at hpe
      cases hpe
    · obtain ⟨-, rp', hrp', hin'⟩ := hsim.stores p e hpe
      obtain rfl := hrp.unique hrp'
      exact h.disjoint (h.store_access hpe) (h.loop.stores p e hpe).ptr.1 hptr.1
        (Code.accessOf_load h.here.code hk) hmay hrp hvp hr (hmem ▸ hin') (hmem ▸ hin) o x hcp hc
  refine ⟨t.set i (s.mem.load E.target d.ty vp), Or.inr ⟨hkept, ?_⟩, ?_⟩
  · have hptr' : T.evalOperand E t.regs ptr = some vp := by
      rw [h.operand_eval hsim (ptr, .loadPtr) (by rw [hk]; exact List.mem_singleton.mpr rfl), hvp]
    have hexec : T.Exec E t i [] (t.set i (t.mem.load E.target d.code.ty vp)) :=
      .load (h.inst hkept) hk hptr'
    rw [hev, ← hload]
    exact hexec
  constructor
  -- both codes write the loaded value to the same register
  · exact h.regs_set hsim (by rw [hs₁]; rfl)
  · exact h.subst_frame hsim
  · rw [hmem]
    exact hsim.dom
  -- the table of stores only lost entries
  · intro o x hpend
    rw [hmem]
    refine hsim.mem o x fun ⟨p, e, r, hpe, hR, hr, hc⟩ => hpend ?_
    exact ⟨p, e, r, hstays p e hpe hR, hR, (h.range_frame (h.loop.stores p e hpe).ptr.1).mpr hr, hc⟩
  · intro p e hpe
    have hpe₀ := (hold p e hpe).1
    have hknown := h.loop.stores p e hpe₀
    obtain ⟨hh, r, hr, hin⟩ := hsim.stores p e hpe₀
    exact ⟨h.holds_frame hknown.ptr.1 hknown.value.1 hh fun _ _ _ _ => by rw [hmem], r,
      (h.range_frame hknown.ptr.1).mpr hr, hmem ▸ hin⟩
  -- the load itself is the new entry of the table of loads
  · intro p e hpe
    rw [heq] at hpe
    replace hpe : (st.lastLoad.insert ptr ⟨.inst i, d.ty⟩).lookup p = some e := hpe
    rw [HashMap.lookup_insert_ite] at hpe
    split at hpe
    · next hp =>
      cases hpe
      subst hp
      refine ⟨vp, d.ty, _, ?_, h.here.ty, ?_, rfl⟩
      · rw [h.eval_frame hptr.1, hvp]
      · rw [hmem, hs₁]
        show Function.update _ _ _ _ = _
        rw [Function.update_self]
        rfl
    · have hknown := h.loop.loads p e hpe
      exact h.holds_frame hknown.ptr.1 hknown.value.1 (hsim.loads p e hpe) fun _ _ _ _ => by rw [hmem]

/-- What becomes of an erased store of the table when a store is executed: the new store covers
its bytes, or it stays in the table. -/
theorem superseded {value ptr : ValueId} {ty₀ : Ty} {lastStore : HashMap ValueId StoreEntry}
    {vp : Val} {w : Range} (hty₀ : st.module.valueTy value = some ty₀)
    (hs : st.module.killAliasing st.lastStore ptr = some lastStore)
    (hstores : st'.lastStore = lastStore.insert ptr ⟨i, value, ty₀⟩)
    (hr : ∀ r, r ∈ st'.toRemove ↔ r ∈ st.toRemove ∨
      ∃ prev, st.lastStore.lookup ptr = some prev ∧ prev.ty = ty₀ ∧ prev.inst = r)
    (hcover : ∀ e n n', st.lastStore.lookup ptr = some e → st.module.valueTy value = some e.ty →
      C.storeSize E.target e.value = some n → C.storeSize E.target value = some n' → n ≤ n')
    (hvp : C.evalOperand E s.regs ptr = some vp) (hw : AccessRange C E s ptr value w)
    {p : ValueId} {e : StoreEntry} {r : Range} (he : st.lastStore.lookup p = some e) (hR : R e.inst)
    (hrange : AccessRange C E s p e.value r) :
    (∀ o x, r.Contains o x → w.Contains o x) ∨ p ≠ ptr ∧ st'.lastStore.lookup p = some e := by
  have hknown := h.loop.stores p e he
  have hei : e.inst ≠ i := fun heq => h.notMem_take (heq ▸ hknown.mem)
  rcases h.requests e.inst hR with hin | ⟨p', e', he', heq⟩ | hout
  -- the same block of memory, and the access is at least as wide
  · -- the deletion was requested by this store
    rcases (hr _).mp hin with hold | ⟨prev, hprev, hprevty, hinst⟩
    · exact absurd hold hknown.kept
    · obtain ⟨rfl, rfl⟩ := h.store_unique he hprev hinst.symm
      refine Or.inl fun o x hc => ?_
      obtain ⟨v₁, ty₁, hv₁, hty₁, hr₁⟩ := hrange
      obtain ⟨v₂, ty₂, hv₂, hty₂, hr₂⟩ := hw
      rw [hvp] at hv₁ hv₂
      cases hv₁
      cases hv₂
      cases vp with
      | ptr ob off =>
        obtain ⟨n, hn, rfl⟩ := Option.map_eq_some_iff.mp hr₁
        obtain ⟨n', hn', rfl⟩ := Option.map_eq_some_iff.mp hr₂
        have hle : n ≤ n' := hcover e n n' he (by rw [hty₀, hprevty])
          (by rw [Code.storeSize, hty₁, Option.bind_some, hn])
          (by rw [Code.storeSize, hty₂, Option.bind_some, hn'])
        exact Range.contains_mono hle hc
      | _ => cases hr₁
  · rw [hstores, HashMap.lookup_insert_ite] at he'
    split at he'
    · cases he'
      exact absurd heq.symm hei
    · next hne =>
      obtain ⟨rfl, rfl⟩ := h.store_unique he (killAliasing_lookup hs he').1 heq.symm
      refine Or.inr ⟨hne, ?_⟩
      rw [hstores, HashMap.lookup_insert_ite, if_neg hne]
      exact he'
  · exact absurd ((List.take_subset_take_left l k.le_succ) hknown.mem) hout

/-- A store writes the same bytes in both executions, or it will be erased and its bytes are
pending. -/
theorem store (hsim : Sim C E R σ st s t) {value ptr : ValueId} {ty₀ : Ty}
    {lastStore : HashMap ValueId StoreEntry} {lastLoad : HashMap ValueId LoadEntry}
    {toRemove : List InstRef} (hk : d.kind = .store value ptr)
    (hty₀ : st.module.valueTy value = some ty₀)
    (hs : st.module.killAliasing st.lastStore ptr = some lastStore)
    (hl : st.module.killAliasing st.lastLoad ptr = some lastLoad)
    (hr : ∀ r, r ∈ toRemove ↔ r ∈ st.toRemove ∨
      ∃ prev, st.lastStore.lookup ptr = some prev ∧ prev.ty = ty₀ ∧ prev.inst = r)
    (hcover : ∀ e n n', st.lastStore.lookup ptr = some e → st.module.valueTy value = some e.ty →
      C.storeSize E.target e.value = some n → C.storeSize E.target value = some n' → n ≤ n')
    (heq : st' = ⟨st.module, lastStore.insert ptr ⟨i, value, ty₀⟩,
      lastLoad.insert ptr ⟨value, ty₀⟩, toRemove⟩) :
    ∃ t₁, Follows T E R t i ev t₁ ∧ Sim C E R σ st' s₁ t₁ := by
  obtain ⟨hev, ty, v, vp, M, hty, hv, hvp, hM, hs₁⟩ := h.exec.store_inv h.here.code hk
  rw [h.loop.evalOperand_eq] at hv hvp
  have htyD := hty
  rw [h.loop.operandTy_eq] at hty
  obtain ⟨w, hw, hin, hfits, rfl⟩ := Mem.store_eq_some hM
  have hptr := h.here.store_ptr hk
  have hvalue := h.here.store_value hk
  have hmem : s₁.mem = s.mem.write w v := by rw [hs₁]
  have hregs : s₁.regs = s.regs := by rw [hs₁]
  have hstores : st'.lastStore = lastStore.insert ptr ⟨i, value, ty₀⟩ := by rw [heq]
  have hloads : st'.lastLoad = lastLoad.insert ptr ⟨value, ty₀⟩ := by rw [heq]
  have hdom : ∀ o x, (s₁.mem o x).isSome = (s.mem o x).isSome := by
    rw [hmem]
    exact Mem.write_isSome hin v
  have hbounds : ∀ r : Range, s₁.mem.InBounds r ↔ s.mem.InBounds r := fun r =>
    forall_congr' fun j => imp_congr_right fun _ => by rw [hdom]
  have hwrange : AccessRange C E s ptr value w := ⟨vp, ty, hvp, hty, hw⟩
  have hdone := fun p e r => h.superseded (p := p) (e := e) (r := r) hty₀ hs hstores
    (by rw [heq]; exact hr) hcover hvp hwrange
  -- an entry the alias test kept
  -- a load that the tables know of does not overlap the store
  have hapart : ∀ p v', (∃ a ∈ l.take k, ∀ ty, C.operandTy v' = some ty →
      st.module.code.accessOf a = some (p, ty)) → DefinedBefore l k p →
      st.module.ptrMayAlias p ptr = some false → ∀ vp' ty', C.evalOperand E s.regs p = some vp' →
      C.operandTy v' = some ty' → s₁.mem.load E.target ty' vp' = s.mem.load E.target ty' vp' := by
    intro p v' hacc hp hmay vp' ty' hvp' hty'
    rw [hmem]
    refine Mem.load_write hin fun r hr hrin => ?_
    exact h.disjoint hacc hp hptr.1 (Code.accessOf_store h.here.code hk htyD) hmay
      ⟨vp', ty', hvp', hty', hr⟩ hvp hw ((hbounds r).mpr hrin) ((hbounds w).mpr hin)
  have hholds : Holds C E s₁ ptr value := by
    refine ⟨vp, ty, v, ?_, hty, ?_, ?_⟩
    · rw [hregs, hvp]
    · rw [hregs, hv]
    · rw [hmem]
      exact Mem.load_store_same hM
  -- outside the written range only pending stores differ
  have hmemAt : ∀ o x, ¬ w.Contains o x → ¬ Pending C E R st' s₁ o x → t.mem o x = s.mem o x := by
    intro o x hout hpend
    refine hsim.mem o x fun ⟨p, e, r, hpe, hR, hrange, hc⟩ => ?_
    rcases hdone p e r hpe hR hrange with hcovered | ⟨-, hstays⟩
    · exact hout (hcovered o x hc)
    · exact hpend ⟨p, e, r, hstays, hR, (h.range_frame (h.loop.stores p e hpe).ptr.1).mpr hrange, hc⟩
  -- what the two cases below share: registers, substitution and tables
  have hside : ∀ t₁ : State, t₁.regs = t.regs →
      (∀ o x, (t₁.mem o x).isSome = (t.mem o x).isSome) →
      (∀ o x, ¬ Pending C E R st' s₁ o x → t₁.mem o x = s₁.mem o x) → Sim C E R σ st' s₁ t₁ := by
    intro t₁ htregs htdom htmem
    constructor
    -- registers of the values that stay
    · intro r hr
      rw [htregs, hregs, hsim.regs r hr]
    · exact h.subst_frame hsim
    -- domains of the memories
    · intro o x
      rw [htdom, hsim.dom, hdom]
    · exact htmem
    -- the table of stores: the new entry holds, the others are apart from the write
    · intro p e hpe
      rw [hstores, HashMap.lookup_insert_ite] at hpe
      split at hpe
      · next hp =>
        cases hpe
        subst hp
        exact ⟨hholds, w, (h.range_frame hptr.1).mpr hwrange, (hbounds w).mpr hin⟩
      · next hp =>
        obtain ⟨hpe₀, hsame | hmay⟩ := killAliasing_lookup hs hpe
        · exact absurd hsame hp
        · have hknown := h.loop.stores p e hpe₀
          obtain ⟨hh, r, hr, hrin⟩ := hsim.stores p e hpe₀
          exact ⟨h.holds_frame hknown.ptr.1 hknown.value.1 hh
            (hapart p e.value (h.store_access hpe₀) hknown.ptr.1 hmay),
            r, (h.range_frame hknown.ptr.1).mpr hr, (hbounds r).mpr hrin⟩
    -- the table of loads, the same way
    · intro p e hpe
      rw [hloads, HashMap.lookup_insert_ite] at hpe
      split at hpe
      · next hp =>
        cases hpe
        subst hp
        exact hholds
      · next hp =>
        obtain ⟨hpe₀, hsame | hmay⟩ := killAliasing_lookup hl hpe
        · exact absurd hsame hp
        · have hknown := h.loop.loads p e hpe₀
          exact h.holds_frame hknown.ptr.1 hknown.value.1 (hsim.loads p e hpe₀)
            (hapart p e.value hknown.access hknown.ptr.1 hmay)
  -- a store that goes becomes pending, a store that stays is made by both codes
  by_cases hRi : R i
  · refine ⟨t, Or.inl ⟨hRi, hev, rfl⟩, hside t rfl (fun _ _ => rfl) fun o x hpend => ?_⟩
    have hout : ¬ w.Contains o x := fun hc => by
      refine hpend ⟨ptr, ⟨i, value, ty₀⟩, w, ?_, hRi, (h.range_frame hptr.1).mpr hwrange, hc⟩
      rw [hstores, AList.lookup_insert]
    rw [hmemAt o x hout hpend, hmem, Mem.write, if_neg hout]
  -- the store stays
  · have htin : t.mem.InBounds w := fun j hj => by
      rw [hsim.dom]
      exact hin j hj
    have hopv : T.evalOperand E t.regs value = some v := by
      rw [h.operand_eval hsim (value, .storeVal) (by rw [hk]; simp [InstKind.valueOperands]), hv]
    have hopp : T.evalOperand E t.regs ptr = some vp := by
      rw [h.operand_eval hsim (ptr, .storePtr) (by rw [hk]; simp [InstKind.valueOperands]), hvp]
    have hopty : T.operandTy value = some ty := by
      rw [h.operandTy hRi (value, .storeVal) (by rw [hk]; simp [InstKind.valueOperands]), hty]
    have hstore : t.mem.store E.target ty vp v = some (t.mem.write w v) := by
      simp only [Mem.store, hw, Option.bind_eq_bind, Option.bind_some]
      rw [if_pos ⟨htin, hfits⟩]
    refine ⟨{ t with mem := t.mem.write w v }, Or.inr ⟨hRi, ?_⟩, hside _ rfl
      (Mem.write_isSome htin v) fun o x hpend => ?_⟩
    · rw [hev]
      exact .store (h.inst hRi) hk hopty hopv hopp hstore
    · rw [hmem]
      show t.mem.write w v o x = s.mem.write w v o x
      unfold Mem.write
      split
      · rfl
      · next hout => exact hmemAt o x hout hpend

/-- At a call nothing is pending. -/
theorem call (hsim : Sim C E R σ st s t) {f : FunctionId} {args : List ValueId}
    (hk : d.kind = .call f args) (heq : st' = { st with lastStore := ∅, lastLoad := ∅ }) :
    ∃ t₁, Follows T E R t i ev t₁ ∧ Sim C E R σ st' s₁ t₁ := by
  obtain ⟨vs, res, M, hvs, hev, hs₁⟩ := h.exec.call_inv h.here.code hk
  rw [h.loop.evalOperand_eq] at hvs
  have hrem : st'.toRemove = st.toRemove := by rw [heq]
  -- a call empties both tables
  have hempty : ∀ p, st'.lastStore.lookup p = none := by
    rw [heq]
    exact fun p => AList.lookup_empty p
  have hkept : ¬ R i := by
    refine h.kept ?_ fun p e hpe => ?_
    · rw [hrem]
      exact fun hin => h.notMem_take (h.loop.removed i hin).1
    · rw [hempty] at hpe
      cases hpe
  -- nothing is pending, so the two memories are the same
  have hmem : t.mem = s.mem := by
    funext o x
    refine hsim.mem o x fun ⟨p, e, _, hpe, hR, _, _⟩ => ?_
    have hstays := h.entry_stays hpe hR (hrem ▸ (h.loop.stores p e hpe).kept) fun p' e' hpe' => by
      rw [hempty] at hpe'
      cases hpe'
    rw [hempty] at hstays
    cases hstays
  have hargs : args.mapM (T.evalOperand E t.regs) = some vs := by
    rw [← hvs]
    refine OptionFold.mapM_congr fun v hv => ?_
    obtain ⟨j, hj⟩ := List.mem_iff_getElem?.mp hv
    exact h.operand_eval hsim (v, .callArg j)
      (by rw [hk]; exact InstKind.mem_zipIdx_of_getElem? _ hj)
  -- the call has the same arguments, and its event is the same
  refine ⟨{ t.set i res with mem := M }, Or.inr ⟨hkept, ?_⟩, ?_⟩
  · rw [hev, ← hmem]
    exact .call (h.inst hkept) hk hargs
  constructor
  · exact h.regs_set hsim (by rw [hs₁])
  · exact h.subst_frame hsim
  · intro o x
    rw [hs₁]
  · intro o x _
    rw [hs₁]
  · intro p e hpe
    rw [hempty] at hpe
    cases hpe
  · intro p e hpe
    rw [heq] at hpe
    cases (AList.lookup_empty p).symm.trans hpe

/-- Any other instruction is executed in both. -/
theorem other (hsim : Sim C E R σ st s t) (hload : ∀ ptr, d.kind ≠ .load ptr)
    (hstore : ∀ value ptr, d.kind ≠ .store value ptr) (hcall : ∀ f args, d.kind ≠ .call f args)
    (heq : st' = st) : ∃ t₁, Follows T E R t i ev t₁ ∧ Sim C E R σ st' s₁ t₁ := by
  subst heq
  have hkept : ¬ R i := h.kept (fun hin => h.notMem_take (h.loop.removed i hin).1)
    fun p e hpe hei => h.notMem_take (hei ▸ (h.loop.stores p e hpe).mem)
  -- an instruction of another kind leaves tables and pending stores as they are
  have hside : ∀ t₁ : State, (∀ r, σ (.inst r) = .inst r → t₁.regs r = s₁.regs r) →
      (∀ o x, (t₁.mem o x).isSome = (s₁.mem o x).isSome) →
      (∀ o x, t.mem o x = s.mem o x → t₁.mem o x = s₁.mem o x) →
      (∀ ty vp, s₁.mem.load E.target ty vp = s.mem.load E.target ty vp) →
      (∀ r, s.mem.InBounds r → s₁.mem.InBounds r) → Sim C E R σ st' s₁ t₁ := by
    intro t₁ hregs hdom hmem hloads hbounds
    constructor
    · exact hregs
    · exact h.subst_frame hsim
    · exact hdom
    · intro o x hpend
      refine hmem o x (hsim.mem o x fun ⟨p, e, r, hpe, hR, hr, hc⟩ => hpend ?_)
      exact ⟨p, e, r, hpe, hR, (h.range_frame (h.loop.stores p e hpe).ptr.1).mpr hr, hc⟩
    · intro p e hpe
      have hknown := h.loop.stores p e hpe
      obtain ⟨hh, r, hr, hin⟩ := hsim.stores p e hpe
      exact ⟨h.holds_frame hknown.ptr.1 hknown.value.1 hh fun vp ty _ _ => hloads ty vp, r,
        (h.range_frame hknown.ptr.1).mpr hr, hbounds r hin⟩
    · intro p e hpe
      have hknown := h.loop.loads p e hpe
      exact h.holds_frame hknown.ptr.1 hknown.value.1 (hsim.loads p e hpe) fun vp ty _ _ =>
        hloads ty vp
  have hcode := h.here.code
  -- the cases follow the constructors of `Exec`
  cases h.exec with
  | @pure d' v hd' hv =>
    rw [hcode] at hd'
    cases hd'
    have hv' : evalPure E d.ty d.kind (T.evalOperand E t.regs) = some v := by
      rw [← hv, h.loop.evalOperand_eq]
      exact Code.evalPure_congr (h.operand_eval hsim)
    refine ⟨t.set i v, Or.inr ⟨hkept, .pure (h.inst hkept) hv'⟩, ?_⟩
    exact hside _ (h.regs_set hsim rfl) hsim.dom (fun _ _ heq => heq) (fun _ _ => rfl) fun _ hin => hin
  | @alloca d' ty n j hd' hk' hn hfresh =>
    rw [hcode] at hd'
    cases hd'
    have hfresh' : t.mem.Fresh j := fun x => by
      -- a block of memory that is fresh for the old code is fresh for the new one
      have := hsim.dom (.stack j) x
      rw [hfresh x] at this
      exact Option.isNone_iff_eq_none.mp (by rw [← Option.not_isSome, this]; rfl)
    refine ⟨{ t.set i (.ptr (.stack j) 0) with mem := t.mem.alloc j n },
      Or.inr ⟨hkept, .alloca (h.inst hkept) hk' hn hfresh'⟩, ?_⟩
    refine hside _ (h.regs_set hsim rfl) (fun o x => ?_) (fun o x heq => ?_)
      (fun ty vp => Mem.load_alloc hfresh ty vp) fun r hin x hx => ?_
    · show (t.mem.alloc j n o x).isSome = (s.mem.alloc j n o x).isSome
      unfold Mem.alloc
      split
      · rfl
      · exact hsim.dom o x
    · show t.mem.alloc j n o x = s.mem.alloc j n o x
      unfold Mem.alloc
      rw [heq]
    · show (s.mem.alloc j n _ _).isSome
      unfold Mem.alloc
      split
      · rfl
      · exact hin x hx
  | load hd' hk' hp =>
    rw [hcode] at hd'
    cases hd'
    exact absurd hk' (hload _)
  | store hd' hk' =>
    rw [hcode] at hd'
    cases hd'
    exact absurd hk' (hstore _ _)
  | call hd' hk' =>
    rw [hcode] at hd'
    cases hd'
    exact absurd hk' (hcall _ _)

end ForwardStep

/-- One step of the loop beside one step of the executions. The substitution after the step does
not depend on the executions. -/
theorem Forwarding.step {t : TargetDataLayout} (hfw : Forwarding C l k σ st) (hl : BlockReady C l)
    (hi : l[k]? = some i) (hagree : StepAgrees t st i) (hrun : st.forward i = some st') :
    ∃ d σ', st.module.inst i = some d ∧ Arm st i d st' ∧ Forwarding C l (k + 1) σ' st' ∧
      ∀ (T : Code) (E : Env) (R : InstRef → Prop) (s : State) (ev : List Event) (s₁ r : State),
        E.target = t → ForwardStep C T E R l k σ st st' i d s ev s₁ → Sim C E R σ st s r →
        ∃ r₁, Follows T E R r i ev r₁ ∧ Sim C E R σ' st' s₁ r₁ := by
  obtain ⟨d, hd, harm⟩ := forward_arm hrun
  have ha := hfw.atStep hl hi hd
  cases harm with
  -- the load goes
  | replace hk he hty hm heq =>
    have htys := hagree.load d _ _ hd hk he hty
    refine ⟨d, _, hd, .replace hk he hty hm heq, heq ▸ hfw.replace hl ha hk he htys hm, ?_⟩
    intro T E R s ev s₁ r _ hstep hsim
    exact hstep.replace hsim hk he htys heq
  -- the load stays
  | keep hk he hs heq =>
    refine ⟨d, _, hd, .keep hk he hs heq, heq ▸ hfw.keep hl ha hk hs, ?_⟩
    intro T E R s ev s₁ r _ hstep hsim
    exact hstep.keep hsim hk he hs heq
  | store hk hty hs hload hr heq =>
    refine ⟨d, _, hd, .store hk hty hs hload hr heq, heq ▸ hfw.store hl ha hk hty hs hload hr, ?_⟩
    intro T E R s ev s₁ r htarget hstep hsim
    subst htarget
    -- sizes are those of the old code, the substitution keeps the types
    have hsize : ∀ v, st.module.code.storeSize E.target v = C.storeSize E.target v := fun v => by
      rw [Code.storeSize, Code.storeSize, hfw.operandTy_eq]
    refine hstep.store hsim hk hty hs hload hr (fun e n n' he htys hn hn' => ?_) heq
    exact hagree.store d _ _ e n n' hd hk he htys ((hsize _).trans hn) ((hsize _).trans hn')
  | call hk heq =>
    refine ⟨d, _, hd, .call hk heq, heq ▸ hfw.call, ?_⟩
    intro T E R s ev s₁ r _ hstep hsim
    exact hstep.call hsim hk heq
  | other hload hstore hcall heq =>
    refine ⟨d, _, hd, .other hload hstore hcall heq, heq ▸ hfw.other, ?_⟩
    intro T E R s ev s₁ r _ hstep hsim
    exact hstep.other hsim hload hstore hcall heq

end Arms

/-! ## The whole block -/

/-- The code after the deletions, in terms of the state the loop ends in. -/
structure Target (C : Code) (st : ForwardState) (l : List InstRef) (erased : List InstRef)
    (T : Code) : Prop where
  consts : T.constData = C.constData
  inst : ∀ r ∈ l, r ∉ erased → T.inst r = st.module.code.inst r
  operandTy : ∀ r ∈ l, r ∉ erased → ∀ d, st.module.code.inst r = some d →
    ∀ op ∈ d.kind.valueOperands, T.operandTy op.1 = C.operandTy op.1
  requests : ∀ r ∈ erased, r ∈ st.toRemove
  loads : ∀ r ∈ st.toRemove, (¬ ∃ d value ptr, C.inst r = some d ∧ d.kind = .store value ptr) →
    r ∈ erased

theorem Sim.symm_eval (h : Sim C E R σ st s t) (hfix : ∀ v, σ (σ v) = σ v) (v : ValueId) :
    C.evalOperand E t.regs (σ v) = C.evalOperand E s.regs v := by
  rw [h.evalOperand (hfix v), h.subst]

/-- From any position on, the executions of the rest of the block stay side by side. -/
theorem loop_sim {t : TargetDataLayout} {m : ModuleCore} (hl : BlockReady m.code l)
    (hagree : TypesAgree t m l) {rest : List InstRef} {stF : ForwardState} (hk : k ≤ l.length)
    (hrest : l.drop k = rest) (hreach : Reached m l k st) (hfw : Forwarding m.code l k σ st)
    (hrun : rest.foldlM ForwardState.forward st = some stF) :
    ∃ σF, Forwarding m.code l l.length σF stF ∧
      (∀ r ∈ l.take k, stF.module.code.inst r = st.module.code.inst r) ∧
      ∀ (E : Env) (T : Code) (erased : List InstRef) (s₀ : State), E.target = t →
        Target m.code stF l erased T →
        (∀ j st, Reached m l j st → AliasSound st.module E l s₀) →
        ∀ pre post, rest = pre ++ post →
        ∀ evs₀ s r evs s', st.module.code.Run E s₀ (l.take k) evs₀ s →
          Sim m.code E (· ∈ erased) σ st s r → m.code.Run E s pre evs s' →
          ∃ r', T.Run E r (pre.filter (· ∉ erased)) evs r' ∧
            (post = [] → Sim m.code E (· ∈ erased) σF stF s' r') := by
  induction rest generalizing k σ st with
  -- the end of the loop
  | nil =>
    obtain rfl : st = stF := Option.some.inj hrun
    obtain rfl : k = l.length := Nat.le_antisymm hk (List.drop_eq_nil_iff.mp hrest)
    refine ⟨σ, hfw, fun _ _ => rfl, ?_⟩
    intro E T erased s₀ _ _ _ pre post hsplit evs₀ s r evs s' _ hsim hexec
    obtain ⟨rfl, rfl⟩ := List.append_eq_nil_iff.mp hsplit.symm
    cases hexec
    exact ⟨r, .nil r, fun _ => hsim⟩
  -- the arm of `i`, then the rest of the loop by induction
  | cons i rest ih =>
    have hi : l[k]? = some i := by
      rw [← List.head?_drop, hrest, List.head?_cons]
    have hdrop : l.drop (k + 1) = rest := by
      rw [← List.tail_drop, hrest, List.tail_cons]
    obtain ⟨st₁, hstep, hrest'⟩ := OptionFold.cons_eq_some.mp hrun
    obtain ⟨d, σ₁, hd, harm, hfw₁, hside⟩ := hfw.step hl hi (hagree k i st hreach hi) hstep
    obtain ⟨σF, hfwF, hinstF, hsimF⟩ := ih (List.getElem?_eq_some_iff.mp hi).1 hdrop (hreach.succ hi hstep)
      hfw₁ hrest'
    have hearlier : ∀ r ∈ l.take (k + 1), st₁.module.code.inst r = st.module.code.inst r :=
      fun r hr => harm.inst_earlier hfw hi hr
    -- later arms leave the instructions before `i` as they are
    refine ⟨σF, hfwF, fun r hr => ?_, ?_⟩
    · have hr' := (List.take_subset_take_left l k.le_succ) hr
      rw [hinstF r hr', hearlier r hr']
    intro E T erased s₀ htarget hT halias pre post hsplit evs₀ s r evs s' hpast hsim hexec
    cases hexec with
    -- the old run stops here
    | nil =>
      refine ⟨r, .nil r, fun hpost => ?_⟩
      rw [hpost] at hsplit
      cases hsplit
    -- the old run makes a step
    | @cons _ s₁ _ _ pre ev evs hone hmore =>
      obtain ⟨rfl, hsplit'⟩ := List.cons.inj hsplit
      -- the step of the old code is a step of the module of the loop
      have hexec' : st.module.code.Exec E s i ev s₁ := by
        rw [hfw.code]
        exact hone.mapOperands hsim.subst hfw.typed
      have hpast' : st.module.code.Run E s₀ (l.take (k + 1)) (evs₀ ++ ev) s₁ := by
        rw [List.take_add_one, hi]
        exact hpast.snoc hexec'
      have htys : st₁.module.code.operandTy = st.module.code.operandTy := by
        rw [hfw.code, hfw₁.code, Code.operandTy_mapOperands, Code.operandTy_mapOperands]
      have hconsts : st₁.module.code.constData = st.module.code.constData := by
        rw [hfw.code, hfw₁.code, Code.mapOperands_constData, Code.mapOperands_constData]
      have hmem : i ∈ l := List.mem_of_getElem? hi
      have hiF : stF.module.code.inst i = some d.code := by
        have htake : i ∈ l.take (k + 1) := (mem_take_succ hi).mpr (Or.inr rfl)
        rw [hinstF i htake, hearlier i htake]
        exact code_inst_of_inst hd
      -- what the rest of the loop marks is later than `i`
      obtain ⟨hsub, hnew⟩ := mem_toRemove hrest'
      have hforward : ForwardStep m.code T E (· ∈ erased) l k σ st st₁ i d s ev s₁ :=
        { loop := hfw
          ready := hl
          here := hfw.atStep hl hi hd
          exec := hexec'
          distinct := halias k st hreach _ _ _ (List.take_prefix _ _) hpast'
          consts := hT.consts
          inst := fun hkept => (hT.inst i hmem hkept).trans hiF
          operandTy := fun hkept => hT.operandTy i hmem hkept d.code hiF
          requests := fun r hr => by
            rcases hnew r (hT.requests r hr) with h' | h' | h'
            · exact Or.inl h'
            · exact Or.inr (Or.inl h')
            · refine Or.inr (Or.inr fun htake => ?_)
              rw [← hdrop] at h'
              exact List.disjoint_take_drop hl.nodup (Nat.le_refl _) htake h'
          loads := fun r hr => hT.loads r (hsub r hr) }
      obtain ⟨r₁, hfollows, hsim₁⟩ := hside T E _ s ev s₁ r htarget hforward hsim
      obtain ⟨r', hruns, hsim'⟩ := hsimF E T erased s₀ htarget hT halias pre post hsplit' (evs₀ ++ ev)
        s₁ r₁ evs s' (hpast'.congr hearlier htys hconsts) hsim₁ hmore
      refine ⟨r', ?_, hsim'⟩
      -- the new code skips `i` or executes it
      rcases hfollows with ⟨hin, hev, hsame⟩ | ⟨hout, hone'⟩
      · subst hev hsame
        rw [List.filter_cons_of_neg (by simpa using hin)]
        exact hruns
      · rw [List.filter_cons_of_pos (by simpa using hout)]
        exact .cons hone' hruns

end Ir
