import C0mpiler.Opt.ForwardSound
import Mathlib

/-!
# The deletions after the loop, and the pass as a whole

After the loop of `local_forward_memory` the requested instructions are erased unless they are
still used. The module that remains is the old code with the loads substituted and the erased
instructions left out of their block, so the simulation of the loop applies to it.
-/

namespace Ir

open ModuleCore

/-- The code without some instructions of the block `b`. -/
def Code.eraseInsts (C : Code) (b : BlockRef) (erased : List InstRef) : Code :=
  { C with
    inst := fun r => if r ∈ erased then none else C.inst r
    block := Function.update C.block b ((C.block b).map fun d =>
      { d with insts := d.insts.filter fun i => (⟨b.func, i⟩ : InstRef) ∉ erased }) }

theorem Code.eraseInsts_nil (C : Code) (b : BlockRef) : C.eraseInsts b [] = C := by
  refine Code.ext rfl ?_ ?_ rfl rfl rfl
  · funext r
    show (if r ∈ [] then none else C.inst r) = C.inst r
    exact if_neg List.not_mem_nil
  · show Function.update C.block b _ = C.block
    rw [Function.update_eq_self_iff]
    cases C.block b with
    | none => rfl
    | some d => simp

/-- Erasing one more instruction. -/
theorem Code.eraseInsts_cons {C : Code} {b : BlockRef} {bd : BlockData} {erased : List InstRef}
    {r : InstRef} (hb : C.block b = some bd) (hnodup : bd.insts.Nodup) (hfunc : r.func = b.func)
    (hmem : r.inst ∈ bd.insts) (hr : r ∉ erased) :
    ((C.eraseInsts b erased).updBlock b (·.without r.inst)).removeInst r =
      C.eraseInsts b (r :: erased) := by
  obtain ⟨rf, ri⟩ := r
  cases hfunc
  refine Code.ext rfl ?_ ?_ rfl rfl rfl
  · funext r'
    show Function.update (fun r => if r ∈ erased then none else C.inst r) _ none r' =
      if r' ∈ _ :: erased then none else C.inst r'
    -- `r` is the instruction that goes last
    by_cases heq : r' = ⟨b.func, ri⟩
    · subst heq
      rw [Function.update_self, if_pos List.mem_cons_self]
    · rw [Function.update_of_ne heq]
      simp [heq]
  · show Function.update (Function.update C.block b _) b _ = Function.update C.block b _
    have hblock : (C.eraseInsts b erased).block b = some
        { bd with insts := bd.insts.filter fun i => (⟨b.func, i⟩ : InstRef) ∉ erased } := by
      show Function.update C.block b _ b = _
      rw [Function.update_self, hb, Option.map_some]
    rw [Function.update_idem, hblock, hb, Option.map_some, Option.map_some]
    refine congrArg (fun d => Function.update C.block b (some d)) ?_
    have hfilter : ri ∈ bd.insts.filter fun i => (⟨b.func, i⟩ : InstRef) ∉ erased := by
      simpa using ⟨hmem, hr⟩
    rw [BlockData.without, if_pos hfilter]
    refine congrArg (fun is => { bd with insts := is }) ?_
    show (bd.insts.filter _).erase ri = _
    rw [(hnodup.filter _).erase_eq_filter, List.filter_filter]
    -- the two filters differ at `ri` alone
    refine List.filter_congr fun j _ => ?_
    by_cases hj : j = ri
    · simp [hj]
    · simp [hj]

/-! ## The deletions -/

section Erase

variable {m m' F : ModuleCore} {b : BlockRef} {bd : BlockData}

/-- No inserted instruction has `r` as an operand. -/
def Unused (C : Code) (r : InstRef) : Prop :=
  ∀ u d, C.inst u = some d → d.parent.isSome → ∀ op ∈ d.kind.valueOperands, op.1 ≠ .inst r

theorem eraseInstFromParent_indexed (h : m.Indexed) {r : InstRef}
    (hrun : m.eraseInstFromParent r = some m') : m'.Indexed := by
  obtain ⟨hreg, -, hparents⟩ := eraseInstFromParent_spec h hrun
  exact hreg.congr rfl rfl (inserted_update_none hparents) fun _ _ => rfl

/-- One deletion: the instruction is gone already, or is used and stays, or is erased. -/
theorem eraseIfUnused_cases {r : InstRef} (hrun : m.eraseIfUnused r = some m') :
    (m.inst r = none ∧ m' = m) ∨
    (∃ d, m.inst r = some d ∧ d.uses ≠ [] ∧ m' = m) ∨
    ∃ d, m.inst r = some d ∧ m.eraseInstFromParent r = some m' := by
  obtain ⟨fd, hfd, hrun⟩ := Option.bind_eq_some_iff.mp hrun
  have hinst : m.inst r = fd.insts.get? r.inst := by
    rw [ModuleCore.inst, hfd]
    rfl
  split at hrun
  · next hnone => exact Or.inl ⟨hinst.trans hnone, (Option.some.inj hrun).symm⟩
  · next d hd =>
    split at hrun
    · exact Or.inr (Or.inr ⟨d, hinst.trans hd, hrun⟩)
    · next huses =>
      refine Or.inr (Or.inl ⟨d, hinst.trans hd, fun h => huses ?_, (Option.some.inj hrun).symm⟩)
      rw [h]
      rfl

theorem eraseAll_code (hb : F.code.block b = some bd) (hnodup : bd.insts.Nodup)
    {todo : List InstRef} (htodo : ∀ r ∈ todo, r.func = b.func ∧ r.inst ∈ bd.insts ∧
      ∃ d, F.code.inst r = some d ∧ d.parent = some b)
    {acc : List InstRef} {m₂ : ModuleCore} (hm : m.Indexed) (hcode : m.code = F.code.eraseInsts b acc)
    (hrun : todo.foldlM eraseIfUnused m = some m₂) :
    ∃ erased, (∀ r ∈ acc, r ∈ erased) ∧ (∀ r ∈ erased, r ∈ acc ∨ r ∈ todo) ∧ m₂.Indexed ∧
      m₂.code = F.code.eraseInsts b erased ∧ ∀ r ∈ todo, Unused F.code r → r ∈ erased := by
  induction todo generalizing acc m with
  | nil =>
    cases hrun
    exact ⟨acc, fun _ hr => hr, fun _ hr => Or.inl hr, hm, hcode, fun r hr => absurd hr List.not_mem_nil⟩
  | cons r todo ih =>
    obtain ⟨m₁, hstep, hrest⟩ := OptionFold.cons_eq_some.mp hrun
    obtain ⟨hfunc, hmem, d, hd, hparent⟩ := htodo r List.mem_cons_self
    have htodo' := fun r' hr' => htodo r' (List.mem_cons_of_mem _ hr')
    have hinst : ∀ r', m.code.inst r' = if r' ∈ acc then none else F.code.inst r' := by
      rw [hcode]
      exact fun r' => rfl
    -- what remains to be shown once the step is known to end with `acc'` erased
    have hfinish : ∀ acc', (∀ r' ∈ acc, r' ∈ acc') → (∀ r' ∈ acc', r' ∈ acc ∨ r' = r) →
        m₁.Indexed → m₁.code = F.code.eraseInsts b acc' → (Unused F.code r → r ∈ acc') →
        ∃ erased, (∀ r ∈ acc, r ∈ erased) ∧ (∀ r' ∈ erased, r' ∈ acc ∨ r' ∈ r :: todo) ∧
          m₂.Indexed ∧ m₂.code = F.code.eraseInsts b erased ∧
          ∀ r' ∈ r :: todo, Unused F.code r' → r' ∈ erased := by
      intro acc' hsub hnew hm₁ hcode₁ hr
      obtain ⟨erased, hacc, herased, hm₂, hcode₂, hunused⟩ := ih htodo' hm₁ hcode₁ hrest
      refine ⟨erased, fun r' h => hacc r' (hsub r' h), fun r' h => ?_, hm₂, hcode₂, fun r' h hu => ?_⟩
      · rcases herased r' h with h | h
        · exact (hnew r' h).imp_right fun heq => List.mem_cons.mpr (Or.inl heq)
        · exact Or.inr (List.mem_cons_of_mem _ h)
      · rcases List.mem_cons.mp h with rfl | h
        · exact hacc r' (hr hu)
        · exact hunused r' h hu
    rcases eraseIfUnused_cases hstep with ⟨hnone, rfl⟩ | ⟨d', hd', huses, rfl⟩ | ⟨d', hd', herase⟩
    · refine hfinish acc (fun _ h => h) (fun _ h => Or.inl h) hm hcode fun _ => ?_
      have := hinst r
      rw [code_inst, hnone, Option.map_none] at this
      by_contra hacc
      rw [if_neg hacc, hd] at this
      cases this
    · refine hfinish acc (fun _ h => h) (fun _ h => Or.inl h) hm hcode fun hunused => ?_
      -- a user of the instruction was a user before
      obtain ⟨u, hu⟩ := List.exists_mem_of_ne_nil _ huses
      have hlist : m₁.valueUses (.inst r) = some d'.uses := by
        rw [valueUses, hd', Option.map_some]
      obtain ⟨⟨du, hdu, hins⟩, du', hdu', hop⟩ := (hm.values.mem_iff hlist).mp hu
      rw [hdu] at hdu'
      cases hdu'
      have hcodeu := hinst u.user
      rw [code_inst_of_inst hdu] at hcodeu
      split at hcodeu
      · cases hcodeu
      · exact absurd rfl (hunused u.user du.code hcodeu.symm hins _ hop)
    · have hacc : r ∉ acc := fun h => by
        have := hinst r
        rw [code_inst_of_inst hd', if_pos h] at this
        cases this
      have hparent' : d'.parent = some b := by
        have := hinst r
        rw [code_inst_of_inst hd', if_neg hacc, hd] at this
        exact (congrArg InstData.parent (Option.some.inj this)).trans hparent
      refine hfinish (r :: acc) (fun _ h => List.mem_cons_of_mem _ h)
        (fun _ h => (List.mem_cons.mp h).symm) (eraseInstFromParent_indexed hm herase) ?_
        fun _ => List.mem_cons_self
      rw [(eraseInstFromParent_code hd' hparent' herase).2, hcode]
      exact Code.eraseInsts_cons hb hnodup hfunc hmem hacc

end Erase

/-! ## The pass -/

/-- What a well-formed function promises about a block with the instructions `l`: exact use
lists, each instruction once and in its block, and no use before the definition. -/
structure WellFormedBlock (m : ModuleCore) (b : BlockRef) (l : List InstRef) : Prop where
  indexed : m.Indexed
  insts : m.instsInOrder b = some l
  nodup : l.Nodup
  placed : ∀ r ∈ l, m.parentOf r = some b
  defsFirst : DefsFirst m.code l

/-- The pass comes to the load `i` and replaces it by `v`. -/
def ReplacesLoad (st : ForwardState) (i : InstRef) (v : ValueId) : Prop :=
  ∃ d ptr e, st.module.inst i = some d ∧ d.kind = .load ptr ∧ st.known ptr = some e ∧
    st.module.valueTy e.value = some e.ty ∧ v = e.value

/-- The pass requests the deletion of the store `prev` when it comes to the store `i`. -/
def SupersedesStore (st : ForwardState) (i prev : InstRef) : Prop :=
  ∃ d value ptr st', st.module.inst i = some d ∧ d.kind = .store value ptr ∧
    st.forward i = some st' ∧ prev ∈ st'.toRemove ∧ prev ∉ st.toRemove

/-- `m₂` does in the block what `m` does: the loads that `σ` replaces have the value and the type
of what replaces them, and every execution of a part of the block makes the same calls in the same
memories. At the end of the block the memory and the value of every operand are the same. -/
structure BlockPreserved (t : TargetDataLayout) (m m₂ : ModuleCore) (b : BlockRef)
    (l : List InstRef) (σ : ValueId → ValueId) (erased : List InstRef) : Prop where
  code : m₂.code = (m.code.mapOperands σ).eraseInsts b erased
  replaced : ∀ v, σ v ≠ v → ∃ r d ptr, v = .inst r ∧ r ∈ l ∧ m.code.inst r = some d ∧
    d.kind = .load ptr ∧ m.code.operandTy (σ v) = some d.ty
  deleted : ∀ r ∈ erased, r ∈ l ∧ (σ (.inst r) ≠ .inst r ∨
    ∃ d value ptr, m.code.inst r = some d ∧ d.kind = .store value ptr)
  runs : ∀ (E : Env) (s : State), E.target = t →
    (∀ k st, Reached m l k st → AliasSound st.module E l s) →
    ∀ pre post evs s', l = pre ++ post → m.code.Run E s pre evs s' →
      ∃ s₂, m₂.code.Run E s (pre.filter (· ∉ erased)) evs s₂ ∧
        (post = [] → s₂.mem = s'.mem ∧
          ∀ v, m₂.code.evalOperand E s₂.regs (σ v) = m.code.evalOperand E s'.regs v)

/-- The claim about one block: every load is replaced by a value of its own type, every store that
is erased is covered by the one that supersedes it, and the behaviour is preserved. -/
structure ForwardsCorrectly (t : TargetDataLayout) (m m₂ : ModuleCore) (b : BlockRef)
    (l : List InstRef) : Prop where
  loads : ∀ k i st v d, Reached m l k st → l[k]? = some i → st.module.inst i = some d →
    ReplacesLoad st i v → st.module.code.operandTy v = some d.ty
  stores : ∀ k i st prev d d' value value' ptr ptr' n n', Reached m l k st → l[k]? = some i →
    SupersedesStore st i prev → st.module.inst i = some d → d.kind = .store value ptr →
    st.module.code.inst prev = some d' → d'.kind = .store value' ptr' →
    st.module.code.storeSize t value' = some n → st.module.code.storeSize t value = some n' → n ≤ n'
  preserved : ∃ σ erased, BlockPreserved t m m₂ b l σ erased

section Pass

variable {t : TargetDataLayout} {m m₂ : ModuleCore} {b : BlockRef} {l : List InstRef}

theorem WellFormedBlock.ready (h : WellFormedBlock m b l) : BlockReady m.code l where
  nodup := h.nodup
  placed r hr d hd := by
    obtain ⟨d', hd', rfl⟩ := inst_of_code_inst hd
    have hparent := h.placed r hr
    rw [parentOf_of_inst hd'] at hparent
    show d'.parent.isSome
    rw [hparent]
    rfl
  defsFirst := h.defsFirst

/-- The block data behind the list of instructions. -/
theorem WellFormedBlock.block (h : WellFormedBlock m b l) :
    ∃ bd, m.code.block b = some bd ∧ bd.insts.map (InstRef.mk b.func) = l := by
  obtain ⟨bd, hbd, heq⟩ := Option.bind_eq_some_iff.mp h.insts
  exact ⟨bd.code, code_block_of_block hbd, Option.some.inj heq⟩

/-- What the deletions leave is the target of the loop. -/
theorem target_of_erase {σ : ValueId → ValueId} {st : ForwardState} (h : WellFormedBlock m b l)
    (hfw : Forwarding m.code l l.length σ st)
    (hrun : st.toRemove.foldlM eraseIfUnused st.module = some m₂) :
    ∃ erased, m₂.code = (m.code.mapOperands σ).eraseInsts b erased ∧
      Target m.code st l erased m₂.code := by
  obtain ⟨bd, hbd, hinsts⟩ := h.block
  have hbdF : st.module.code.block b = some bd := by rw [hfw.code, Code.mapOperands_block, hbd]
  have hnodup : bd.insts.Nodup := by
    refine List.Nodup.of_map (InstRef.mk b.func) ?_
    rw [hinsts]
    exact h.nodup
  -- replacing operands keeps the parents
  have hparent : ∀ r ∈ l, ∃ d, st.module.code.inst r = some d ∧ d.parent = some b := by
    intro r hr
    have hp := h.placed r hr
    unfold parentOf at hp
    obtain ⟨d, hd, hdb⟩ := Option.bind_eq_some_iff.mp hp
    rw [hfw.code, Code.mapOperands_inst, code_inst_of_inst hd]
    refine ⟨_, rfl, ?_⟩
    dsimp only
    split <;> exact hdb
  have hmem : ∀ r ∈ st.toRemove, r ∈ l := fun r hr => List.mem_of_mem_take (hfw.removed r hr).1
  have hnil : st.module.code = st.module.code.eraseInsts b [] := (Code.eraseInsts_nil _ _).symm
  obtain ⟨erased, -, herased, hm₂, hcode, hunused⟩ := eraseAll_code hbdF hnodup
    (fun r hr => by
      have hl := hmem r hr
      refine ⟨?_, ?_, hparent r hl⟩
      · rw [← hinsts] at hl
        obtain ⟨j, -, rfl⟩ := List.mem_map.mp hl
        rfl
      · rw [← hinsts] at hl
        obtain ⟨j, hj, rfl⟩ := List.mem_map.mp hl
        exact hj)
    hfw.indexed hnil hrun
  -- only requested instructions are erased
  have hrequests : ∀ r ∈ erased, r ∈ st.toRemove := fun r hr =>
    (herased r hr).resolve_left List.not_mem_nil
  have hinst : ∀ r, r ∉ erased → m₂.code.inst r = st.module.code.inst r := by
    intro r hr
    rw [hcode]
    exact if_neg hr
  refine ⟨erased, hcode.trans (by rw [hfw.code]), ?_⟩
  constructor
  · rw [hcode, hfw.code]
    rfl
  · exact fun r _ hr => hinst r hr
  -- the operands of an instruction that stays
  · intro r hr hkept d hd op hop
    obtain ⟨d', hd', hb'⟩ := hparent r hr
    rw [hd] at hd'
    cases hd'
    -- the operand of an instruction that stays is alive after the deletions
    obtain ⟨d₂, hd₂, hcode₂⟩ := inst_of_code_inst ((hinst r hkept).trans hd)
    have hlive : (m₂.valueUses op.1).isSome := by
      refine hm₂.values.live ⟨r, op.2⟩ op.1 ⟨⟨d₂, hd₂, ?_⟩, d₂, hd₂, ?_⟩
      · have hp : d₂.code.parent = some b := hcode₂ ▸ hb'
        show d₂.parent.isSome
        rw [show d₂.parent = some b from hp]
        rfl
      · have hk : d₂.code.kind = d.kind := congrArg InstData.kind hcode₂
        show op ∈ d₂.kind.valueOperands
        rw [show d₂.kind = d.kind from hk]
        exact hop
    have hFty : st.module.code.operandTy op.1 = m.code.operandTy op.1 := hfw.operandTy_eq op.1
    rw [← hFty]
    cases hv : op.1 with
    | inst r' =>
      rw [hv] at hlive
      have hkept' : r' ∉ erased := by
        intro hin
        have hnone : m₂.code.inst r' = none := by
          rw [hcode]
          exact if_pos hin
        rw [code_inst, Option.map_eq_none_iff] at hnone
        rw [valueUses, hnone] at hlive
        cases hlive
      show (m₂.code.inst r').map InstData.ty = (st.module.code.inst r').map InstData.ty
      rw [hinst r' hkept']
    | _ => rw [hcode]; rfl
  · exact hrequests
  -- a store that is erased was marked by the loop, and nothing uses it
  · intro r hr hstore
    refine hunused r hr fun u d hd hp op hop hopr => ?_
    have hmoved := (hfw.removed r hr).2.resolve_right hstore
    rw [← hopr] at hmoved
    exact hmoved (hfw.operand_fixed hd hp hop)

/-- Up to the first `k` instructions the loop keeps its invariant, if the condition holds there. -/
theorem forwarding_of_reached (h : WellFormedBlock m b l) {k : Nat} {st : ForwardState}
    (hreach : Reached m l k st) (hk : k ≤ l.length)
    (hagree : ∀ j < k, ∀ i st, Reached m l j st → l[j]? = some i → StepAgrees t st i) :
    ∃ σ, Forwarding m.code l k σ st := by
  induction k generalizing st with
  | zero =>
    cases hreach
    exact ⟨id, forwarding_start h.indexed h.ready⟩
  | succ k ih =>
    have hi : l[k]? = some l[k] := List.getElem?_eq_getElem hk
    unfold Reached at hreach
    rw [List.take_add_one, hi, Option.toList_some] at hreach
    obtain ⟨st₀, hreach₀, hstep⟩ := OptionFold.append_eq_some.mp hreach
    obtain ⟨st₁, hstep, heq⟩ := OptionFold.cons_eq_some.mp hstep
    cases heq
    obtain ⟨σ, hfw⟩ := ih hreach₀ (Nat.le_of_lt hk) fun j hj => hagree j (Nat.lt_succ_of_lt hj)
    obtain ⟨-, σ', -, -, hfw', -⟩ := hfw.step h.ready hi (hagree k k.lt_succ_self _ _ hreach₀ hi) hstep
    exact ⟨σ', hfw'⟩

/-- A pass that returns has executed every step of the loop. -/
theorem step_of_run (h : WellFormedBlock m b l) (hrun : m.localForwardMemory b = some m₂) {k : Nat}
    {i : InstRef} {st : ForwardState} (hreach : Reached m l k st) (hi : l[k]? = some i) :
    ∃ st', st.forward i = some st' := by
  simp only [localForwardMemory, h.insts, Option.bind_eq_bind, Option.bind_some,
    Option.bind_eq_some_iff] at hrun
  obtain ⟨stF, hloop, -⟩ := hrun
  obtain ⟨hlt, hget⟩ := List.getElem?_eq_some_iff.mp hi
  have hsplit : l.take k ++ i :: l.drop (k + 1) = l := by
    rw [← hget, ← List.drop_eq_getElem_cons hlt, List.take_append_drop]
  rw [← hsplit] at hloop
  obtain ⟨st₀, hreach₀, hrest⟩ := OptionFold.append_eq_some.mp hloop
  have hsame : some st = some st₀ := hreach.symm.trans hreach₀
  cases hsame
  obtain ⟨st', hstep, -⟩ := OptionFold.cons_eq_some.mp hrest
  exact ⟨st', hstep⟩

theorem preserved_of_typesAgree (h : WellFormedBlock m b l)
    (hrun : m.localForwardMemory b = some m₂) (hagree : TypesAgree t m l) :
    ∃ σ erased, BlockPreserved t m m₂ b l σ erased := by
  simp only [localForwardMemory, h.insts, Option.bind_eq_bind, Option.bind_some,
    Option.bind_eq_some_iff] at hrun
  obtain ⟨stF, hloop, herase⟩ := hrun
  have hstart : Reached m l 0 (.start m) := rfl
  obtain ⟨σ, hfw, -, hsim⟩ := loop_sim h.ready hagree (Nat.zero_le _) rfl hstart
    (forwarding_start h.indexed h.ready) hloop
  obtain ⟨erased, hcode, htarget⟩ := target_of_erase h hfw herase
  refine ⟨σ, erased, hcode, fun v hv => ?_, fun r hr => ?_, ?_⟩
  · obtain ⟨-, r, rfl, hmem, d, ptr, hd, hk⟩ := hfw.replaced v hv
    refine ⟨r, d, ptr, rfl, List.mem_of_mem_take hmem, hd, hk, ?_⟩
    rw [hfw.typed]
    show (m.code.inst r).map InstData.ty = some d.ty
    rw [hd, Option.map_some]
  · obtain ⟨hmem, hcase⟩ := hfw.removed r (htarget.requests r hr)
    exact ⟨List.mem_of_mem_take hmem, hcase⟩
  · intro E s hE halias pre post evs s' hsplit hexec
    obtain ⟨s₂, hruns, hend⟩ := hsim E m₂.code erased s hE htarget halias pre post hsplit [] s s evs s'
      (.nil s) (sim_start m s) hexec
    refine ⟨s₂, hruns, fun hpost => ?_⟩
    have hsimF := hend hpost
    refine ⟨?_, fun v => ?_⟩
    · funext o x
      refine hsimF.mem o x fun ⟨p, e, r, hpe, hR, _, _⟩ => ?_
      exact (hfw.stores p e hpe).kept (htarget.requests _ hR)
    · rw [Code.evalOperand_consts htarget.consts]
      exact hsimF.symm_eval hfw.fixed v

/-- **The pass forwards correctly exactly when the types agree**, for every block of a well-formed
function on which it returns. -/
theorem localForwardMemory_correct_iff (h : WellFormedBlock m b l)
    (hrun : m.localForwardMemory b = some m₂) :
    ForwardsCorrectly t m m₂ b l ↔ TypesAgree t m l := by
  constructor
  -- the correct behaviour gives the condition
  · intro hok k
    -- strong induction: the invariant of the loop before `k` needs the condition below `k`
    induction k using Nat.strong_induction_on with
    | _ k ih =>
      intro i st hreach hi
      have hk : k < l.length := (List.getElem?_eq_some_iff.mp hi).1
      obtain ⟨σ, hfw⟩ := forwarding_of_reached h hreach (Nat.le_of_lt hk) ih
      obtain ⟨st', hstep⟩ := step_of_run h hrun hreach hi
      obtain ⟨d₀, hd₀, harm⟩ := forward_arm hstep
      constructor
      · intro d ptr e hd hkind he hty
        rw [hd₀] at hd
        cases hd
        exact hok.loads k i st e.value d₀ hreach hi hd₀ ⟨d₀, ptr, e, hd₀, hkind, he, hty, rfl⟩
      · intro d value ptr e n n' hd hkind he hty hn hn'
        rw [hd₀] at hd
        cases hd
        have hknown := hfw.stores ptr e he
        obtain ⟨d', hd', hk'⟩ := hknown.inst
        refine hok.stores k i st e.inst d₀ d' value e.value ptr ptr n n' hreach hi ?_ hd₀ hkind hd' hk'
          hn hn'
        refine ⟨d₀, value, ptr, st', hd₀, hkind, hstep, ?_, hknown.kept⟩
        cases harm with
        | store hk₁ hty₁ hs hl hr heq =>
          rw [hkind] at hk₁
          cases hk₁
          rw [hty] at hty₁
          cases hty₁
          rw [heq]
          exact (hr _).mpr (Or.inr ⟨e, he, rfl, rfl⟩)
        | replace hk₁ | keep hk₁ | call hk₁ => rw [hkind] at hk₁; cases hk₁
        | other hload hstore => exact absurd hkind (hstore value ptr)
  -- the condition gives the correct behaviour
  · intro hagree
    refine ⟨?_, ?_, preserved_of_typesAgree h hrun hagree⟩
    -- a load is replaced by a value of its type
    · rintro k i st v d hreach hi hd ⟨d₀, ptr, e, hd₀, hkind, he, hty, rfl⟩
      rw [hd] at hd₀
      cases hd₀
      exact (hagree k i st hreach hi).load d ptr e hd hkind he hty
    -- a store is superseded by one that covers it
    · rintro k i st prev d d' value value' ptr ptr' n n' hreach hi ⟨-, -, -, st', -, -, hstep, hin, hnot⟩
        hd hkind hd' hk' hn hn'
      have hk : k ≤ l.length := Nat.le_of_lt (List.getElem?_eq_some_iff.mp hi).1
      obtain ⟨σ, hfw⟩ := forwarding_of_reached h hreach hk fun j _ => hagree j
      obtain ⟨d₀, hd₀, harm⟩ := forward_arm hstep
      rw [hd] at hd₀
      cases hd₀
      cases harm with
      | store hk₁ hty₁ hs hl hr heq =>
        rw [hkind] at hk₁
        cases hk₁
        rw [heq] at hin
        obtain ⟨e, he, hety, rfl⟩ := ((hr prev).mp hin).resolve_left hnot
        obtain ⟨d₁, hd₁, hk₁⟩ := (hfw.stores ptr e he).inst
        rw [hd'] at hd₁
        cases hd₁
        obtain ⟨rfl, -⟩ := InstKind.store.inj (hk'.symm.trans hk₁)
        exact (hagree k i st hreach hi).store d value ptr e n n' hd hkind he (hety ▸ hty₁) hn hn'
      | replace hk₁ | keep hk₁ | call hk₁ => rw [hkind] at hk₁; cases hk₁
      | other hload hstore => exact absurd hkind (hstore value ptr)

end Pass

/-! ## A load of the stored type and a load of another type -/

/-- The constant 1000 is stored to a stack slot as an `i32`, and an integer of `bits` bits is loaded
from the slot and returned. -/
def forwardEdits (bits : Nat) : List Edit :=
  [.createFunction "main" ⟨.int bits, []⟩, .addConst (.int 32) (.int ⟨1000, 32⟩),
    .newInst 1 .ptr (.alloca (.int 32)) none, .appendInst ⟨1, 1⟩ ⟨1, 1⟩,
    .newInst 1 .void (.store (.const 1) (.inst ⟨1, 1⟩)) none, .appendInst ⟨1, 1⟩ ⟨1, 2⟩,
    .newInst 1 (.int bits) (.load (.inst ⟨1, 1⟩)) none, .appendInst ⟨1, 1⟩ ⟨1, 3⟩,
    .newInst 1 .void (.ret (some (.inst ⟨1, 3⟩))) none, .setTerminator ⟨1, 1⟩ ⟨1, 4⟩]

def forwardModule (bits : Nat) : ModuleCore := (runEdits (forwardEdits bits)).getD ModuleCore.new

def forwardInsts : List InstRef := [⟨1, 1⟩, ⟨1, 2⟩, ⟨1, 3⟩]

theorem forwardModule_indexed {bits : Nat} (hrun : runEdits (forwardEdits bits) = some (forwardModule bits)) :
    (forwardModule bits).Indexed :=
  (reachable_of_plain (by simp [forwardEdits, Edit.plain]) hrun).indexed

theorem forwardModule_wellFormed {bits : Nat} (h : bits = 8 ∨ bits = 32) :
    WellFormedBlock (forwardModule bits) ⟨1, 1⟩ forwardInsts := by
  rcases h with rfl | rfl
  · exact ⟨forwardModule_indexed rfl, rfl, by decide, by decide, by decide⟩
  · exact ⟨forwardModule_indexed rfl, rfl, by decide, by decide, by decide⟩

theorem localForwardMemory_correct_iff_sameType :
    ∃ m₂, (forwardModule 32).localForwardMemory ⟨1, 1⟩ = some m₂ ∧
      ForwardsCorrectly .rv32 (forwardModule 32) m₂ ⟨1, 1⟩ forwardInsts := by
  refine ⟨_, rfl, ?_⟩
  exact (localForwardMemory_correct_iff (forwardModule_wellFormed (Or.inr rfl)) rfl).mpr (by decide)

/-- Every access of the block goes through the one pointer, before and after each replacement. -/
theorem forwardModule_accesses {bits k : Nat} (h : bits = 8 ∨ bits = 32) {st : ForwardState}
    (hreach : Reached (forwardModule bits) forwardInsts k st) :
    ∀ a ∈ forwardInsts, ∀ p ty, st.module.code.accessOf a = some (p, ty) → p = .inst ⟨1, 1⟩ := by
  have hall : ∀ j < 4, ((forwardInsts.take j).foldlM ForwardState.forward
      (.start (forwardModule bits))).map (fun st =>
        forwardInsts.map fun a => (st.module.code.accessOf a).map Prod.fst) =
      some [none, some (.inst ⟨1, 1⟩), some (.inst ⟨1, 1⟩)] := by
    rcases h with rfl | rfl <;> decide
  have htake : ∃ j < 4, forwardInsts.take k = forwardInsts.take j := by
    by_cases hk : k < 4
    · exact ⟨k, hk, rfl⟩
    · exact ⟨3, by decide, by rw [List.take_of_length_le (by simp [forwardInsts]; omega)]; rfl⟩
  obtain ⟨j, hj, htake⟩ := htake
  have hst := hall j hj
  unfold Reached at hreach
  rw [← htake, hreach, Option.map_some, Option.some.injEq] at hst
  simp only [forwardInsts, List.map_cons, List.map_nil, List.cons.injEq, and_true] at hst
  obtain ⟨h₁, h₂, h₃⟩ := hst
  intro a ha p ty hacc
  simp only [forwardInsts, List.mem_cons, List.not_mem_nil, or_false] at ha
  rcases ha with rfl | rfl | rfl
  · rw [hacc] at h₁
    cases h₁
  · rw [hacc] at h₂
    exact Option.some.inj h₂
  · rw [hacc] at h₃
    exact Option.some.inj h₃

/-- A load of an `i8` after a store of an `i32` to the same pointer is replaced by the `i32`,
although the alias test answers nothing wrong. -/
theorem localForwardMemory_not_correct : ∃ m₂,
    WellFormedBlock (forwardModule 8) ⟨1, 1⟩ forwardInsts ∧
    (forwardModule 8).localForwardMemory ⟨1, 1⟩ = some m₂ ∧
    (∀ E s k st, Reached (forwardModule 8) forwardInsts k st →
      AliasSound st.module E forwardInsts s) ∧
    ¬ ForwardsCorrectly .rv32 (forwardModule 8) m₂ ⟨1, 1⟩ forwardInsts := by
  refine ⟨_, forwardModule_wellFormed (Or.inl rfl), rfl, ?_, ?_⟩
  · intro E s k st hreach pre evs s' hpre _ a ha b hb p q ty ty' hp hq hmay
    have hsame := forwardModule_accesses (Or.inl rfl) hreach
    rw [hsame a (hpre.subset ha) p ty hp, hsame b (hpre.subset hb) q ty' hq, ptrMayAlias,
      if_pos rfl] at hmay
    cases hmay
  · intro hok
    have hstep : ∃ st d, Reached (forwardModule 8) forwardInsts 2 st ∧
        st.module.inst ⟨1, 3⟩ = some d ∧ ReplacesLoad st ⟨1, 3⟩ (.const 1) ∧ d.ty = .int 8 ∧
        st.module.code.operandTy (.const 1) = some (.int 32) :=
      ⟨_, _, rfl, rfl, ⟨_, _, _, rfl, rfl, rfl, rfl, rfl⟩, rfl, rfl⟩
    obtain ⟨st, d, hreach, hd, hreplaces, hload, hvalue⟩ := hstep
    have htys := hok.loads 2 ⟨1, 3⟩ st (.const 1) d hreach rfl hd hreplaces
    rw [hvalue, hload] at htys
    cases htys

end Ir
