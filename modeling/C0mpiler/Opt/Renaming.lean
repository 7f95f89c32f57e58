import C0mpiler.Opt.ForwardErase
import C0mpiler.Ir.EditsTotal
import C0mpiler.Sem.SubstWellFormed
import Mathlib

/-!
# Passes that replace instructions by equal values

A pass that replaces pure instructions, one after the other, by values that are available where
they stand and equal there, and in the end erases those that are not used any more. `Renaming` is
what holds between two replacements; `Renaming.replace` is one replacement, and
`Renaming.eraseUnused` the deletions at the end, after which every function is the one of before
under a substitution (`Substitutes`).
-/

namespace Ir

open ModuleCore

namespace Code

variable {C : Code} {f : FunctionId} {fd : FunctionData} {E : Env}

/-- In a list without repetitions, what comes before what comes before. -/
theorem pair_sublist_trans {l : List InstId} (hl : l.Nodup) {i j k : InstId}
    (hij : [i, j].Sublist l) (hjk : [j, k].Sublist l) : [i, k].Sublist l := by
  obtain ⟨before, after, rfl, hfirst⟩ := List.eq_append_cons_of_mem (hij.mem (show j ∈ [i, j] by simp))
  have hj : j ∉ after := (List.nodup_cons.mp (List.nodup_append.mp hl).2.1).1
  have hi : i ∈ before := by
    obtain ⟨l₁, l₂, heq, h₁, h₂⟩ := List.sublist_append_iff.mp hij
    cases l₁ with
    | cons x l₁ =>
      obtain rfl : i = x := (List.cons.inj heq).1
      exact h₁.mem List.mem_cons_self
    | nil =>
      rw [List.nil_append] at heq
      rw [← heq] at h₂
      rcases List.cons_sublist_cons'.mp h₂ with h₂ | ⟨-, h₂⟩
      · exact absurd (h₂.mem (by simp)) hj
      · exact absurd (h₂.mem List.mem_cons_self) hj
  have hk : k ∈ after := by
    obtain ⟨l₁, l₂, heq, h₁, h₂⟩ := List.sublist_append_iff.mp hjk
    cases l₁ with
    | cons x l₁ =>
      obtain rfl : j = x := (List.cons.inj heq).1
      exact absurd (h₁.mem List.mem_cons_self) hfirst
    | nil =>
      rw [List.nil_append] at heq
      rw [← heq] at h₂
      exact (List.cons_sublist_cons.mp h₂).mem List.mem_cons_self
  show ([i] ++ [k]).Sublist (before ++ j :: after)
  refine List.Sublist.append (List.singleton_sublist.mpr hi) ?_
  exact (List.singleton_sublist.mpr hk).trans (List.sublist_cons_self _ _)

/-- What is available at a pure instruction is available wherever the instruction is. -/
theorem AvailableAt.trans (hwf : C.WellFormed f fd) {x : InstId} {d : InstData} {b b' : BlockId}
    {i : InstId} {w : ValueId} (hd : C.inst ⟨f, x⟩ = some d) (hparent : d.parent = some ⟨f, b⟩)
    (hpure : d.kind.isPure = true) (hw : C.AvailableAt f fd.entry w b x)
    (hplace : Flow.Reach (C.Edge f) fd.entry b ∨ ∀ j, w = .inst j → C.ComputedIn f j b)
    (hx : C.AvailableAt f fd.entry (.inst ⟨f, x⟩) b' i) : C.AvailableAt f fd.entry w b' i := by
  intro j hj
  obtain ⟨a, ha, hcase⟩ := hx _ rfl
  obtain rfl : a = b := ha.unique ⟨rfl, d, hd, hparent⟩
  obtain ⟨a', ha', hcase'⟩ := hw j hj
  refine ⟨a', ha', ?_⟩
  -- `x` is read in its own block, or in one it dominates
  rcases hcase with ⟨rfl, bd, hb, hbefore⟩ | ⟨hne, hdom⟩
  · refine hcase'.imp_left ?_
    rintro ⟨rfl, bd', hb', hbefore'⟩
    rw [hb] at hb'
    cases hb'
    refine ⟨rfl, bd, hb, ?_⟩
    obtain ⟨-, bd', hb', hxphi, -, hxterm⟩ := hwf.placed x d _ hd hparent
    rw [hb] at hb'
    cases hb'
    -- a pure instruction is neither a phi nor a terminator
    have hnotphi : x ∉ bd.phis := fun hmem => by
      have hkind := hxphi.mp hmem
      rw [InstKind.isPhi_of_isPure hpure] at hkind
      cases hkind
    have hnotterm : bd.terminator ≠ some x := fun hmem => by
      have hkind := hxterm.mp hmem
      rw [InstKind.isTerminator_of_isPure hpure] at hkind
      cases hkind
    -- the places of `x` and of `i` in the block
    rcases hbefore with ⟨-, hmem⟩ | hsub | ⟨hterm, hmem⟩
    · exact absurd hmem hnotphi
    · rcases hbefore' with ⟨-, hphi⟩ | hsub' | ⟨hterm', -⟩
      · exact Or.inl ⟨hsub.mem (by simp), hphi⟩
      · exact Or.inr (Or.inl (pair_sublist_trans (hwf.distinct _ bd hb).2 hsub' hsub))
      · exact absurd hterm' hnotterm
    · rcases hbefore' with ⟨-, hphi⟩ | hsub' | ⟨hterm', -⟩
      · exact Or.inr (Or.inr ⟨hterm, Or.inl hphi⟩)
      · exact Or.inr (Or.inr ⟨hterm, Or.inr (hsub'.mem List.mem_cons_self)⟩)
      · exact absurd hterm' hnotterm
  -- `x` dominates the block of `i`, and `w` stands before `x`
  · right
    rcases hcase' with ⟨rfl, -⟩ | ⟨hne', hdom'⟩
    · exact ⟨hne, hdom⟩
    · refine ⟨fun heq => ?_, hdom'.trans hdom⟩
      subst heq
      -- `w` is computed in the same block as the one that is read
      rcases hplace with hreach | hsame
      · exact hne (hdom'.antisymm hdom hreach).symm
      · exact hne' (ha'.unique (hsame j hj))

theorem Computed.func {x : InstRef} {entry : BlockId} {c : FlowState}
    (h : C.Computed f entry x c) : x.func = f := by
  rcases c with ⟨_ | p, b, s⟩ | ⟨b, rest, s⟩ | _
  · exact h.elim
  · obtain ⟨a, ha, -⟩ := h
    exact ha.1
  · obtain ⟨a, ha, -⟩ := h
    exact ha.1
  · exact h.elim

/-! ## Between two replacements -/

/-- The module is `C` with values renamed by `σ`: the `removed` instructions, to values that are
available there and equal. -/
structure Renaming (C : Code) (f : FunctionId) (entry : BlockId) (removed : List InstRef)
    (σ : ValueId → ValueId) (m : ModuleCore) : Prop where
  indexed : m.Indexed
  code : m.code = C.mapOperands σ
  moved : ∀ v, σ v ≠ v → ∃ r ∈ removed, v = .inst r
  pure : ∀ r ∈ removed, r.func = f ∧ ∃ d, C.inst r = some d ∧ d.parent.isSome ∧ d.kind.isPure = true
  ssa : C.KeepsSsa f entry σ
  types : ∀ v, C.operandTy (σ v) = C.operandTy v
  values : ∀ E c v, C.Standing f entry E c → C.ComputedValue f entry v c →
    C.ComputedValue f entry (σ v) c ∧ C.evalOperand E c.regs (σ v) = C.evalOperand E c.regs v
  progress : ∀ E b i rest s, C.Standing f entry E (.inside b (i :: rest) s) → ⟨f, i⟩ ∈ removed →
    ∃ d v, C.inst ⟨f, i⟩ = some d ∧ evalPure E d.ty d.kind (C.evalOperand E s.regs) = some v

theorem renaming_id {m : ModuleCore} (h : m.Indexed) (f : FunctionId) (entry : BlockId) :
    m.code.Renaming f entry [] id m where
  indexed := h
  code := mapOperands_id.symm
  moved _ hv := absurd rfl hv
  pure _ hr := absurd hr List.not_mem_nil
  ssa := ⟨fun _ => rfl, fun _ _ _ hv => hv, fun _ _ hv => hv⟩
  types _ := rfl
  values _ _ _ _ hv := ⟨hv, rfl⟩
  progress _ _ _ _ _ _ hr := absurd hr List.not_mem_nil

/-- The pure instruction `x` of `b` can be replaced by `w`. -/
structure Replaceable (C : Code) (f : FunctionId) (entry : BlockId) (b : BlockId) (x : InstId)
    (w : ValueId) : Prop where
  inst : ∃ d, C.inst ⟨f, x⟩ = some d ∧ d.parent = some ⟨f, b⟩ ∧ d.kind.isPure = true ∧
    C.valueTy w = some d.ty ∧ C.operandTy w = some d.ty
  available : C.AvailableAt f entry w b x
  place : Flow.Reach (C.Edge f) entry b ∨ ∀ j, w = .inst j → C.ComputedIn f j b
  value : ∀ E c, C.Standing f entry E c → C.Computed f entry ⟨f, x⟩ c →
    C.evalOperand E c.regs w = c.regs ⟨f, x⟩
  progress : ∀ E b rest s, C.Standing f entry E (.inside b (x :: rest) s) →
    ∃ d v, C.inst ⟨f, x⟩ = some d ∧ evalPure E d.ty d.kind (C.evalOperand E s.regs) = some v

/-- One replacement. -/
theorem Renaming.replace (hwf : C.WellFormed f fd) {removed : List InstRef} {σ : ValueId → ValueId}
    {m m' : ModuleCore} (h : C.Renaming f fd.entry removed σ m) {b : BlockId} {x : InstId}
    {w : ValueId} (hx : C.Replaceable f fd.entry b x w)
    (hrun : m.replaceAllUsesWith (.inst ⟨f, x⟩) w = some m') :
    C.Renaming f fd.entry (removed ++ [⟨f, x⟩]) (substValue (.inst ⟨f, x⟩) w ∘ σ) m' := by
  obtain ⟨d, hd, hparent, hpure, hvalueTy, hoperandTy⟩ := hx.inst
  have hin : C.ComputedIn f ⟨f, x⟩ b := ⟨rfl, d, hd, hparent⟩
  -- what holds of the old name, and of the instruction's new one, holds of the new name
  have hsubst : ∀ {P : ValueId → Prop} {v : ValueId}, P (σ v) → (σ v = .inst ⟨f, x⟩ → P w) →
      P ((substValue (.inst ⟨f, x⟩) w ∘ σ) v) := by
    intro P v hold hnew
    show P (if σ v = .inst ⟨f, x⟩ then w else σ v)
    split
    · next heq => exact hnew heq
    · exact hold
  constructor
  -- the fields of `Renaming`
  · exact replaceAllUsesWith_indexed h.indexed hrun
  · rw [replaceAllUsesWith_code h.indexed hrun, h.code, mapOperands_mapOperands]
  · intro v hv
    -- a value that moves now is `x`, or one that moved before
    by_cases heq : σ v = v
    · by_cases hvx : v = .inst ⟨f, x⟩
      · exact ⟨_, List.mem_append_right _ (List.mem_singleton_self _), hvx⟩
      · refine absurd ?_ hv
        show (if σ v = _ then w else σ v) = v
        rw [heq, if_neg hvx]
    · obtain ⟨r, hr, hvr⟩ := h.moved v heq
      exact ⟨r, List.mem_append_left _ hr, hvr⟩
  · intro r hr
    rcases List.mem_append.mp hr with hr | hr
    · exact h.pure r hr
    · rw [List.mem_singleton.mp hr]
      exact ⟨rfl, d, hd, Option.isSome_of_eq_some hparent, hpure⟩
  -- `KeepsSsa`: types, availability at an instruction and after a block
  · constructor
    · intro v
      refine hsubst (P := fun u => C.valueTy u = C.valueTy v) (h.ssa.types v) fun heq => ?_
      rw [← h.ssa.types v, heq, hvalueTy]
      exact (congrArg (Option.map InstData.ty) hd).symm
    · intro v b' i hv
      have hold := h.ssa.available v b' i hv
      exact hsubst (P := fun u => C.AvailableAt f fd.entry u b' i) hold fun heq =>
        AvailableAt.trans hwf hd hparent hpure hx.available hx.place (heq ▸ hold)
    -- `x` is available at the end of `p`, and so is `w`
    · intro v p hv
      have hold := h.ssa.after v p hv
      refine hsubst (P := fun u => C.AvailableAfter f fd.entry u p) hold fun heq j hj => ?_
      obtain ⟨a, ha, hdom⟩ := (heq ▸ hold) _ rfl
      obtain rfl := ha.unique hin
      obtain ⟨a', ha', ⟨rfl, -⟩ | ⟨-, hdom'⟩⟩ := hx.available j hj
      · exact ⟨a', ha', hdom⟩
      · exact ⟨a', ha', hdom'.trans hdom⟩
  · intro v
    refine hsubst (P := fun u => C.operandTy u = C.operandTy v) (h.types v) fun heq => ?_
    rw [← h.types v, heq, hoperandTy]
    exact (congrArg (Option.map InstData.ty) hd).symm
  -- a computed value is renamed to one that has its value
  · intro E c v hc hv
    obtain ⟨hcomputed, hval⟩ := h.values E c v hc hv
    refine hsubst (P := fun u => C.ComputedValue f fd.entry u c ∧
      C.evalOperand E c.regs u = C.evalOperand E c.regs v) ⟨hcomputed, hval⟩ fun heq => ?_
    have hxc : C.Computed f fd.entry ⟨f, x⟩ c := hcomputed _ heq
    constructor
    · intro j hj
      refine AvailableAt.computed hwf hc.located hd (InstKind.isPhi_of_isPure hpure) hxc fun a ha => ?_
      rw [ha.unique hin, ← hj]
      exact hx.available
    · rw [hx.value E c hc hxc, ← hval, heq]
      rfl
  -- a removed instruction is one that can make its step
  · intro E b' i rest s hc hmem
    rcases List.mem_append.mp hmem with hmem | hmem
    · exact h.progress E b' i rest s hc hmem
    · cases List.mem_singleton.mp hmem
      exact hx.progress E b' rest s hc

/-! ## The deletions -/

theorem withoutInsts_nil (C : Code) : C.withoutInsts [] = C := by
  refine Code.ext rfl ?_ ?_ rfl rfl rfl
  · funext r
    show (if r ∈ [] then none else C.inst r) = C.inst r
    exact if_neg List.not_mem_nil
  · funext b
    show (C.block b).map _ = C.block b
    cases C.block b with
    | none => rfl
    | some d => simp

/-- Erasing one more instruction. -/
theorem withoutInsts_cons (hwf : C.WellFormed f fd) {erased : List InstRef} {i : InstId}
    {d : InstData} {b : BlockId} (hd : C.inst ⟨f, i⟩ = some d) (hparent : d.parent = some ⟨f, b⟩)
    (hpure : d.kind.isPure = true) (hi : (⟨f, i⟩ : InstRef) ∉ erased) (σ : ValueId → ValueId) :
    ((((C.mapOperands σ).withoutInsts erased).updBlock ⟨f, b⟩ (·.without i)).removeInst ⟨f, i⟩) =
      (C.mapOperands σ).withoutInsts (⟨f, i⟩ :: erased) := by
  obtain ⟨-, bd, hb, -, hinsts, -⟩ := hwf.placed i d _ hd hparent
  have hmem : i ∈ bd.insts :=
    hinsts.mpr ⟨InstKind.isPhi_of_isPure hpure, InstKind.isTerminator_of_isPure hpure⟩
  refine Code.ext rfl ?_ ?_ rfl rfl rfl
  -- the instruction maps: `i` goes as the last one
  · funext r
    show Function.update ((C.mapOperands σ).withoutInsts erased).inst ⟨f, i⟩ none r =
      if r ∈ _ :: erased then none else (C.mapOperands σ).inst r
    by_cases heq : r = ⟨f, i⟩
    · subst heq
      rw [Function.update_self, if_pos List.mem_cons_self]
    · rw [Function.update_of_ne heq]
      show (if r ∈ erased then none else _) = _
      simp [heq]
  -- the blocks: only `b` loses an instruction
  · funext b'
    show Function.update ((C.mapOperands σ).withoutInsts erased).block ⟨f, b⟩ _ b' =
      (C.block b').map _
    by_cases hbb : b' = ⟨f, b⟩
    · subst hbb
      rw [Function.update_self, withoutInsts_block hb, hb, Option.map_some, Option.map_some]
      refine congrArg some ?_
      have hfilter : i ∈ bd.insts.filter fun i => (⟨f, i⟩ : InstRef) ∉ erased :=
        List.mem_filter.mpr ⟨hmem, by simpa using hi⟩
      rw [BlockData.without, if_pos hfilter]
      refine congrArg (fun is => { bd with insts := is }) ?_
      show (bd.insts.filter _).erase i = _
      rw [((hwf.distinct b bd hb).2.filter _).erase_eq_filter, List.filter_filter]
      refine List.filter_congr fun j _ => ?_
      by_cases hj : j = i
      · simp [hj]
      · simp [hj]
    · rw [Function.update_of_ne hbb]
      show (C.block b').map _ = (C.block b').map _
      cases hb' : C.block b' with
      | none => rfl
      | some bd' =>
        rw [Option.map_some, Option.map_some]
        refine congrArg some ?_
        refine congrArg (fun is => { bd' with insts := is }) (List.filter_congr fun j hj => ?_)
        -- other blocks do not hold an instruction of `b`
        have hne : (⟨b'.func, j⟩ : InstRef) ≠ ⟨f, i⟩ := by
          intro heq
          obtain ⟨f', b'⟩ := b'
          cases heq
          have hin := hwf.computedIn hb' (Or.inr (Or.inl hj))
          exact hbb (by rw [hin.unique ⟨rfl, d, hd, hparent⟩])
        simp [hne]

theorem Unread.mono {r : InstRef} {erased erased' : List InstRef}
    (h : (C.withoutInsts erased).Unread r) (hsub : ∀ x ∈ erased, x ∈ erased') :
    (C.withoutInsts erased').Unread r := by
  intro u d hu
  by_cases hmem : u ∈ erased'
  · rw [show (C.withoutInsts erased').inst u = none from if_pos hmem] at hu
    cases hu
  · rw [withoutInsts_inst hmem] at hu
    exact h u d ((withoutInsts_inst fun hin => hmem (hsub u hin)).trans hu)

/-- An unused value with exact use lists is read by nothing. -/
theorem unread_of_uses {m : ModuleCore} (h : m.Indexed) {r : InstRef}
    (huses : m.valueUses (.inst r) = some []) : m.code.Unread r := by
  intro u d hu hparent op hop heq
  obtain ⟨d, hd, rfl⟩ := ModuleCore.inst_of_code_inst hu
  have hmem : (⟨u, op.2⟩ : Use) ∈ [] := by
    refine (h.values.mem_iff huses).mpr ⟨⟨d, hd, hparent⟩, d, hd, ?_⟩
    rw [← heq]
    exact hop
  cases hmem

/-- The module between two deletions. -/
structure Erasing (C : Code) (σ : ValueId → ValueId) (removed erased : List InstRef)
    (m : ModuleCore) : Prop where
  indexed : m.Indexed
  code : m.code = (C.mapOperands σ).withoutInsts erased
  requested : ∀ r ∈ erased, r ∈ removed
  unread : ∀ r ∈ erased, ((C.mapOperands σ).withoutInsts erased).Unread r

/-- One deletion. -/
theorem Renaming.eraseIfUnused (hwf : C.WellFormed f fd) {removed erased : List InstRef}
    {σ : ValueId → ValueId} {m₀ m : ModuleCore} (h : C.Renaming f fd.entry removed σ m₀)
    (hm : C.Erasing σ removed erased m) {r : InstRef} (hr : r ∈ removed) :
    ∃ m' erased', m.eraseIfUnused r = some m' ∧ C.Erasing σ removed erased' m' := by
  obtain ⟨hfunc, d, hd, hparent, hpure⟩ := h.pure r hr
  obtain ⟨rf, i⟩ := r
  obtain rfl : f = rf := hfunc.symm
  have hfunc : m.code.func f = some fd := by
    rw [hm.code]
    exact hwf.func
  obtain ⟨fd', hfd, -⟩ := Option.map_eq_some_iff.mp hfunc
  have hget : m.inst ⟨f, i⟩ = fd'.insts.get? i := by
    rw [ModuleCore.inst, hfd]
    rfl
  -- erased already, by a request made twice
  cases hinst : m.inst ⟨f, i⟩ with
  | none =>
    refine ⟨m, erased, ?_, hm⟩
    simp only [ModuleCore.eraseIfUnused, hfd, ← hget, hinst, Option.bind_eq_bind, Option.bind_some]
  | some d' =>
    by_cases huses : d'.uses = []
    · -- the instruction is still where it was
      have hcode := code_inst_of_inst hinst
      -- it is there, so it was not erased
      have hi : (⟨f, i⟩ : InstRef) ∉ erased := by
        intro hmem
        rw [hm.code, show ((C.mapOperands σ).withoutInsts erased).inst ⟨f, i⟩ = none from
          if_pos hmem] at hcode
        cases hcode
      rw [hm.code, inst_substituted hd hparent hi] at hcode
      obtain ⟨b, hb⟩ := Option.isSome_iff_exists.mp hparent
      obtain ⟨hbf, bd, hbd, -, hinsts, -⟩ := hwf.placed i d b hd hb
      obtain ⟨bf, b⟩ := b
      obtain rfl : f = bf := hbf.symm
      have hparent' : d'.parent = some ⟨f, b⟩ := by
        rw [← hb]
        exact (congrArg InstData.parent (Option.some.inj hcode)).symm
      have hkind : d'.kind = d.kind.mapOperands σ :=
        (congrArg InstData.kind (Option.some.inj hcode)).symm
      -- its operands are renamed, and it has no block operands
      have hblocks : d'.kind.blockOperands = [] := by
        rw [hkind, InstKind.blockOperands_mapOperands]
        cases hk : d.kind <;> rw [hk] at hpure <;> first | rfl | cases hpure
      have hmem : i ∈ bd.insts.filter fun i => (⟨f, i⟩ : InstRef) ∉ erased := by
        refine List.mem_filter.mpr ⟨hinsts.mpr ?_, by simpa using hi⟩
        exact ⟨InstKind.isPhi_of_isPure hpure, InstKind.isTerminator_of_isPure hpure⟩
      have hblock : m.code.block ⟨f, b⟩ = some
          { bd with insts := bd.insts.filter fun i => (⟨f, i⟩ : InstRef) ∉ erased } := by
        rw [hm.code]
        exact withoutInsts_block hbd
      -- the use lists are empty, so the erasure goes through
      obtain ⟨m', hrun⟩ :=
        eraseInstFromParent_total hm.indexed hinst huses hparent' hblock hmem hblocks
      obtain ⟨hval, hcode'⟩ := eraseInstFromParent_code hinst hparent' hrun
      refine ⟨m', ⟨f, i⟩ :: erased, ?_, eraseInstFromParent_indexed hm.indexed hrun, ?_, ?_, ?_⟩
      · simp only [ModuleCore.eraseIfUnused, hfd, ← hget, hinst, huses, Option.bind_eq_bind,
          Option.bind_some, List.isEmpty_nil, if_true]
        exact hrun
      · rw [hcode', hm.code]
        exact withoutInsts_cons hwf hd hb hpure hi σ
      · intro r hmem'
        -- erased instructions are unread: the new one and the old ones
        rcases List.mem_cons.mp hmem' with rfl | hmem'
        · exact hr
        · exact hm.requested r hmem'
      · intro r hmem'
        have hold : ((C.mapOperands σ).withoutInsts erased).Unread r := by
          rcases List.mem_cons.mp hmem' with rfl | hmem'
          · rw [← hm.code]
            exact unread_of_uses hm.indexed hval
          · exact hm.unread r hmem'
        exact hold.mono fun x hx => List.mem_cons_of_mem _ hx
    -- an instruction with uses stays
    · refine ⟨m, erased, ?_, hm⟩
      have hempty : d'.uses.isEmpty = false := by simpa using huses
      simp only [ModuleCore.eraseIfUnused, hfd, ← hget, hinst, hempty, Option.bind_eq_bind,
        Option.bind_some, Bool.false_eq_true, if_false]

/-- The deletions at the end of the pass return, and what is left is the code with a substitution, for
this function and for every other. -/
theorem Renaming.eraseUnused (hwf : C.WellFormed f fd) {removed : List InstRef}
    {σ : ValueId → ValueId} {m : ModuleCore} (h : C.Renaming f fd.entry removed σ m) :
    ∃ m' erased, removed.foldlM ModuleCore.eraseIfUnused m = some m' ∧ m'.Indexed ∧
      m'.code = (C.mapOperands σ).withoutInsts erased ∧
      ∀ g entry, (g = f → entry = fd.entry) → C.Substitutes g entry σ erased ∧ C.KeepsSsa g entry σ := by
  -- the loop over the requests
  have hloop : ∀ (l : List InstRef) (m : ModuleCore) (erased : List InstRef),
      (∀ r ∈ l, r ∈ removed) → C.Erasing σ removed erased m →
      ∃ m' erased', l.foldlM ModuleCore.eraseIfUnused m = some m' ∧
        C.Erasing σ removed erased' m' := by
    intro l
    induction l with
    | nil => exact fun m erased _ hm => ⟨m, erased, rfl, hm⟩
    | cons r l ih =>
      intro m erased hl hm
      obtain ⟨m₁, erased₁, hrun₁, hm₁⟩ := h.eraseIfUnused hwf hm (hl r List.mem_cons_self)
      obtain ⟨m', erased', hrun, hm'⟩ := ih m₁ erased₁ (fun x hx => hl x (List.mem_cons_of_mem _ hx)) hm₁
      exact ⟨m', erased', OptionFold.cons_eq_some.mpr ⟨m₁, hrun₁, hrun⟩, hm'⟩
  -- before the loop nothing is erased
  have hstart : C.Erasing σ removed [] m := by
    refine ⟨h.indexed, ?_, fun r hr => absurd hr List.not_mem_nil,
      fun r hr => absurd hr List.not_mem_nil⟩
    rw [withoutInsts_nil, h.code]
  obtain ⟨m', erased, hrun, hm'⟩ := hloop removed m [] (fun _ hr => hr) hstart
  refine ⟨m', erased, hrun, hm'.indexed, hm'.code, fun g entry hg => ?_⟩
  have hpure : ∀ r ∈ erased, ∃ d, C.inst r = some d ∧ d.kind.isPure = true := by
    intro r hr
    obtain ⟨-, d, hd, -, hpure⟩ := h.pure r (hm'.requested r hr)
    exact ⟨d, hd, hpure⟩
  -- the function of the pass
  by_cases hgf : g = f
  · obtain rfl := hg hgf
    subst hgf
    exact ⟨⟨hpure, hm'.unread, h.types, fun E c v hc hv => (h.values E c v hc hv).2,
      fun E b i rest s hc hr => h.progress E b i rest s hc (hm'.requested _ hr)⟩, h.ssa⟩
  · -- the values of another function are not renamed
    have hfixed : ∀ v : ValueId, (∀ j, v = .inst j → j.func = g) → σ v = v := by
      intro v hv
      by_contra hne
      obtain ⟨r, hr, rfl⟩ := h.moved v hne
      exact hgf ((hv r rfl).symm.trans (h.pure r hr).1)
    constructor
    -- in another function no value moves
    · refine ⟨hpure, hm'.unread, h.types, fun E c v hc hv => ?_, fun E b i rest s hc hr => ?_⟩
      · rw [hfixed v fun j hj => ?_]
        exact (hv j hj).func
      · exact absurd (h.pure _ (hm'.requested _ hr)).1 hgf
    · refine ⟨h.ssa.types, fun v b i hv => ?_, fun v p hv => ?_⟩
      · rw [hfixed v fun j hj => ?_]
        · exact hv
        · obtain ⟨a, ha, -⟩ := hv j hj
          exact ha.1
      · rw [hfixed v fun j hj => ?_]
        · exact hv
        · obtain ⟨a, ha, -⟩ := hv j hj
          exact ha.1

end Code

end Ir
