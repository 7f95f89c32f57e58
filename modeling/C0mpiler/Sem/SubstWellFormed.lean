import C0mpiler.Sem.Substitution
import Mathlib

/-!
# A substitution keeps a function well formed

When the substitution also respects where values are available (`KeepsSsa`), the function with the
substitution is well formed again (`Substitutes.wellFormed`), so passes that substitute can follow
each other.
-/

namespace Ir

namespace Code

/-- What the substitution makes of a value has its type and can be used wherever it can. -/
structure KeepsSsa (C : Code) (f : FunctionId) (entry : BlockId) (σ : ValueId → ValueId) : Prop where
  types : ∀ v, C.valueTy (σ v) = C.valueTy v
  available : ∀ v b i, C.AvailableAt f entry v b i → C.AvailableAt f entry (σ v) b i
  after : ∀ v p, C.AvailableAfter f entry v p → C.AvailableAfter f entry (σ v) p

section

variable {C : Code} {f : FunctionId} {fd : FunctionData} {σ : ValueId → ValueId}
  {erased : List InstRef}

theorem of_inst_substituted {r : InstRef} {d' : InstData}
    (h : ((C.mapOperands σ).withoutInsts erased).inst r = some d') :
    r ∉ erased ∧ ∃ d, C.inst r = some d ∧ d'.ty = d.ty ∧ d'.parent = d.parent ∧
      d'.kind = if d.parent.isSome then d.kind.mapOperands σ else d.kind := by
  by_cases hr : r ∈ erased
  · rw [show ((C.mapOperands σ).withoutInsts erased).inst r = none from if_pos hr] at h
    cases h
  · rw [withoutInsts_inst hr] at h
    exact ⟨hr, inst_of_mapOperands h⟩

theorem of_block_withoutInsts {b : BlockId} {bd' : BlockData}
    (h : ((C.mapOperands σ).withoutInsts erased).block ⟨f, b⟩ = some bd') :
    ∃ bd, C.block ⟨f, b⟩ = some bd ∧
      bd' = { bd with insts := bd.insts.filter fun i => (⟨f, i⟩ : InstRef) ∉ erased } := by
  obtain ⟨bd, hb, rfl⟩ := Option.map_eq_some_iff.mp h
  exact ⟨bd, hb, rfl⟩

/-- An instruction that stays stands where it stood. -/
theorem holdsAs_withoutInsts {bd : BlockData} {i : InstId} (hi : (⟨f, i⟩ : InstRef) ∉ erased)
    (k : InstKind) :
    ({ bd with insts := bd.insts.filter fun i => (⟨f, i⟩ : InstRef) ∉ erased } : BlockData).HoldsAs i
      (k.mapOperands σ) ↔ bd.HoldsAs i k := by
  have hinsts : i ∈ (bd.insts.filter fun i => (⟨f, i⟩ : InstRef) ∉ erased) ↔ i ∈ bd.insts := by
    simp [List.mem_filter, hi]
  rw [BlockData.HoldsAs, BlockData.HoldsAs, InstKind.isPhi_mapOperands,
    InstKind.isTerminator_mapOperands, hinsts]

theorem before_withoutInsts {bd : BlockData} {j i : InstId} (hj : (⟨f, j⟩ : InstRef) ∉ erased)
    (hi : (⟨f, i⟩ : InstRef) ∉ erased) (h : bd.Before j i) :
    ({ bd with insts := bd.insts.filter fun i => (⟨f, i⟩ : InstRef) ∉ erased } : BlockData).Before
      j i := by
  have hinsts : ∀ {x}, (⟨f, x⟩ : InstRef) ∉ erased → x ∈ bd.insts →
      x ∈ bd.insts.filter fun i => (⟨f, i⟩ : InstRef) ∉ erased := fun hx hmem =>
    List.mem_filter.mpr ⟨hmem, by simpa using hx⟩
  rcases h with ⟨hmem, hphi⟩ | hsub | ⟨hterm, hphi | hmem⟩
  · exact Or.inl ⟨hinsts hi hmem, hphi⟩
  · refine Or.inr (Or.inl ?_)
    have hfilter := hsub.filter fun i => decide ((⟨f, i⟩ : InstRef) ∉ erased)
    rwa [List.filter_cons_of_pos (by simpa using hj), List.filter_cons_of_pos (by simpa using hi),
      List.filter_nil] at hfilter
  · exact Or.inr (Or.inr ⟨hterm, Or.inl hphi⟩)
  · exact Or.inr (Or.inr ⟨hterm, Or.inr (hinsts hj hmem)⟩)

variable (h : C.Substitutes f fd.entry σ erased) (hwf : C.WellFormed f fd)
include h hwf

theorem Substitutes.edgeAt_iff {p b : BlockId} {slot : BlockOperandSlot} :
    ((C.mapOperands σ).withoutInsts erased).EdgeAt f p slot b ↔ C.EdgeAt f p slot b := by
  constructor
  · rintro ⟨k', hterm, hslot⟩
    obtain ⟨k, hterm', rfl⟩ := h.terminatorIs_left hwf hterm
    exact ⟨k, hterm', by rwa [InstKind.blockOperands_mapOperands] at hslot⟩
  · rintro ⟨k, hterm, hslot⟩
    exact ⟨_, h.terminatorIs_right hwf hterm, by rwa [InstKind.blockOperands_mapOperands]⟩

theorem Substitutes.edge_eq :
    ((C.mapOperands σ).withoutInsts erased).Edge f = C.Edge f := by
  funext p b
  exact propext (exists_congr fun slot => h.edgeAt_iff hwf)

omit h hwf in
theorem computedIn_substituted {j : InstRef} {a : BlockId} (hj : j ∉ erased)
    (ha : C.ComputedIn f j a) : ((C.mapOperands σ).withoutInsts erased).ComputedIn f j a := by
  obtain ⟨hfunc, d, hd, hparent⟩ := ha
  exact ⟨hfunc, _, inst_substituted hd (Option.isSome_of_eq_some hparent) hj, hparent⟩

/-- What was available and is not erased is available afterwards. -/
theorem Substitutes.availableAt {v : ValueId} {b : BlockId} {i : InstId}
    (hv : ∀ j, v = .inst j → j ∉ erased) (hi : (⟨f, i⟩ : InstRef) ∉ erased)
    (havail : C.AvailableAt f fd.entry v b i) :
    ((C.mapOperands σ).withoutInsts erased).AvailableAt f fd.entry v b i := by
  intro j hj
  obtain ⟨a, ha, hcase⟩ := havail j hj
  refine ⟨a, computedIn_substituted (hv j hj) ha, ?_⟩
  rw [h.edge_eq hwf]
  refine hcase.imp_left fun ⟨hab, bd, hb, hbefore⟩ => ⟨hab, _, withoutInsts_block hb, ?_⟩
  obtain ⟨_, j⟩ := j
  cases ha.1
  exact before_withoutInsts (hv _ hj) hi hbefore

omit hwf in
/-- The operands that an instruction has after the substitution. -/
theorem Substitutes.operand_stays {i : InstId} {d : InstData} (hd : C.inst ⟨f, i⟩ = some d)
    (hparent : d.parent.isSome) (hi : (⟨f, i⟩ : InstRef) ∉ erased)
    {op : ValueId × OperandSlot} (hop : op ∈ (d.kind.mapOperands σ).valueOperands) :
    ∃ op' ∈ d.kind.valueOperands, op.1 = σ op'.1 ∧ (∀ j, op.1 = .inst j → j ∉ erased) ∧
      ((C.mapOperands σ).withoutInsts erased).valueTy op.1 = C.valueTy op.1 := by
  rw [InstKind.valueOperands_mapOperands] at hop
  obtain ⟨op', hop', rfl⟩ := List.mem_map.mp hop
  have hkept : ∀ j, σ op'.1 = .inst j → j ∉ erased := fun j hj =>
    h.notMem_of_operand hd hparent hi hop' hj
  refine ⟨op', hop', rfl, hkept, ?_⟩
  show Code.valueTy _ (σ op'.1) = C.valueTy (σ op'.1)
  rw [← congrFun (valueTy_mapOperands C σ) (σ op'.1)]
  cases hv : σ op'.1 with
  | inst j =>
    show Option.map InstData.ty _ = Option.map InstData.ty _
    rw [withoutInsts_inst (hkept j hv)]
  | _ => rfl

/-- A substitution that respects the places of values keeps the function well formed. -/
theorem Substitutes.wellFormed (hssa : C.KeepsSsa f fd.entry σ) :
    ((C.mapOperands σ).withoutInsts erased).WellFormed f fd where
  func := hwf.func
  isDefined := hwf.isDefined
  nodup := hwf.nodup
  entry := hwf.entry
  blocks b := by
    rw [hwf.blocks b]
    exact (Option.isSome_map (f := fun d : BlockData => _)).symm ▸ Iff.rfl
  terminated b bd' hb' := by
    obtain ⟨bd, hb, rfl⟩ := of_block_withoutInsts hb'
    exact hwf.terminated b bd hb
  distinct b bd' hb' := by
    obtain ⟨bd, hb, rfl⟩ := of_block_withoutInsts hb'
    exact ⟨(hwf.distinct b bd hb).1, (hwf.distinct b bd hb).2.filter _⟩
  owned b bd' i hb' hholds := by
    obtain ⟨bd, hb, rfl⟩ := of_block_withoutInsts hb'
    -- an instruction that is still in a block was not erased
    have hi : (⟨f, i⟩ : InstRef) ∉ erased ∧ bd.Holds i := by
      rcases hholds with hphi | hinst | hterm
      · exact ⟨h.phi_stays hwf hb hphi, Or.inl hphi⟩
      · have hmem := List.mem_filter.mp hinst
        exact ⟨by simpa using hmem.2, Or.inr (Or.inl hmem.1)⟩
      · exact ⟨h.terminator_stays hwf hb hterm, Or.inr (Or.inr hterm)⟩
    obtain ⟨d, hd, hparent, hholdsAs⟩ := hwf.owned b bd i hb hi.2
    exact ⟨_, inst_substituted hd (Option.isSome_of_eq_some hparent) hi.1, hparent,
      (holdsAs_withoutInsts hi.1 d.kind).mpr hholdsAs⟩
  placed i d' b hd' hparent' := by
    obtain ⟨hi, d, hd, -, hp, hk⟩ := of_inst_substituted hd'
    rw [hp] at hparent'
    rw [if_pos (Option.isSome_of_eq_some hparent')] at hk
    obtain ⟨hfunc, bd, hb, hholds⟩ := hwf.placed i d b hd hparent'
    obtain ⟨_, b⟩ := b
    cases hfunc
    exact ⟨rfl, _, withoutInsts_block hb, hk ▸ (holdsAs_withoutInsts hi d.kind).mpr hholds⟩
  targets i d' hd' hparent' op hop := by
    obtain ⟨-, d, hd, -, hp, hk⟩ := of_inst_substituted hd'
    rw [hp] at hparent'
    rw [hk, if_pos hparent', InstKind.blockOperands_mapOperands] at hop
    have hsome := hwf.targets i d hd hparent' op hop
    exact (Option.isSome_map (f := fun d : BlockData => _)).trans hsome
  operands i d' hd' hparent' op hop := by
    obtain ⟨hi, d, hd, -, hp, hk⟩ := of_inst_substituted hd'
    rw [hp] at hparent'
    rw [hk, if_pos hparent'] at hop
    -- an operand after the substitution is the image of one before
    obtain ⟨op', hop', heq, -, hty⟩ := h.operand_stays hd hparent' hi hop
    obtain ⟨ty, hty', hne⟩ := hwf.operands i d hd hparent' op' hop'
    refine ⟨ty, ?_, hne⟩
    rw [hty, heq, hssa.types, hty']
  available i d' b hd' hparent' hphi op hop := by
    obtain ⟨hi, d, hd, -, hp, hk⟩ := of_inst_substituted hd'
    rw [hp] at hparent'
    rw [if_pos (Option.isSome_of_eq_some hparent')] at hk
    rw [hk] at hop hphi
    rw [InstKind.isPhi_mapOperands] at hphi
    obtain ⟨op', hop', heq, hkept, -⟩ :=
      h.operand_stays hd (Option.isSome_of_eq_some hparent') hi hop
    refine h.availableAt hwf hkept hi ?_
    rw [heq]
    exact hssa.available _ _ _ (hwf.available i d b hd hparent' hphi op' hop')
  incoming i d' incomings idx hd' hparent' hk' k incoming hin := by
    obtain ⟨hi, d, hd, -, hp, hk⟩ := of_inst_substituted hd'
    rw [hp] at hparent'
    rw [if_pos hparent', hk'] at hk
    cases hkind : d.kind with
    -- the incoming values of a phi
    | phi incomings' _ =>
      rw [hkind] at hk
      cases hk
      rw [HashMap.lookup_mapVal] at hin
      obtain ⟨incoming', hin', rfl⟩ := Option.map_eq_some_iff.mp hin
      have hop : (σ incoming'.value, OperandSlot.phiIncomingVal k) ∈
          (d.kind.mapOperands σ).valueOperands := by
        rw [InstKind.valueOperands_mapOperands, hkind]
        exact List.mem_map.mpr ⟨(incoming'.value, .phiIncomingVal k),
          List.mem_map.mpr ⟨⟨k, incoming'⟩, AList.mem_lookup_iff.mp hin', rfl⟩, rfl⟩
      obtain ⟨-, -, -, hkept, -⟩ := h.operand_stays hd hparent' hi hop
      intro j hj
      obtain ⟨a, ha, hdom⟩ :=
        hssa.after _ _ (hwf.incoming i d incomings' idx hd hparent' hkind k incoming' hin') j hj
      refine ⟨a, computedIn_substituted (hkept j hj) ha, ?_⟩
      rw [h.edge_eq hwf]
      exact hdom
    | _ =>
      rw [hkind] at hk
      cases hk
  returns i d' value hd' hparent' hk' := by
    obtain ⟨hi, d, hd, hty, hp, hk⟩ := of_inst_substituted hd'
    have hparent : d.parent.isSome := hp ▸ hparent'
    rw [hk', if_pos hparent] at hk
    -- a return is still a return
    have hret : ∃ value', d.kind = .ret value' := by
      cases hkind : d.kind <;> rw [hkind] at hk <;> first | exact ⟨_, rfl⟩ | cases hk
    obtain ⟨value', hkind⟩ := hret
    obtain ⟨hvoid, hvalue⟩ := hwf.returns i d value' hd hparent hkind
    refine ⟨hty.trans hvoid, ?_⟩
    rw [hkind] at hk
    cases hk
    cases value' with
    | none => exact hvalue
    | some v =>
      have hop : (σ v, OperandSlot.retVal) ∈ (d.kind.mapOperands σ).valueOperands := by
        rw [hkind]
        exact List.mem_singleton_self _
      obtain ⟨-, -, -, -, htyv⟩ := h.operand_stays hd hparent hi hop
      show Code.valueTy _ (σ v) = _
      rw [htyv, hssa.types]
      exact hvalue

end

end Code

end Ir
