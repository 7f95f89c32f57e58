import C0mpiler.Semantics.Mutability
import Mathlib

/-!
# What the visitors keep

Each visitor extends the table of types, records only mutable places, and returns a result that
tells the truth about the access path of its expression (`ExprResult.Good`). There is one lemma for
each visitor, under the assumption that the visits of the operands keep it, and `visitExpr_sound`
puts them together by induction on the fuel.
-/

namespace Semantics

/-! ## Results -/

/-- The result is right about the paths it carries. -/
structure ExprResult.Good (ut : TypeUt) (r : ExprResult) : Prop where
  access : r.access.Compat ut
  mutbl : r.assignee.toMutability = some .mut → r.access.lastMutbl = .mut
  assignees : ∀ acc ∈ r.assignees, acc.Compat ut
  assigned : r.assignee = .place .mut ∨ r.assignee = .only →
    ∀ acc ∈ r.assignees, acc.lastMutbl = .mut

namespace ExprResult

variable {ut ut' : TypeUt}

/-- A good result stays good when the table is extended. -/
theorem Good.extends {r : ExprResult} (h : r.Good ut) (hext : Extends ut ut') : r.Good ut' where
  access := h.access.extends hext
  mutbl := h.mutbl
  assignees acc hacc := (h.assignees acc hacc).extends hext
  assigned := h.assigned

/-- A result without a place behind it. -/
theorem good_temporary (assignee : AssigneeKind) : Good ut ⟨assignee, .temporary, []⟩ where
  access := Access.compat_temporary
  mutbl _ := rfl
  assignees _ h := nomatch h
  assigned _ _ h := nomatch h

/-- A value is good. -/
theorem good_ofValue : ofValue.Good ut := good_temporary .value

/-- A place is good when it is reached through mutable references, should it be mutable. -/
theorem good_ofPlace {mutbl : Mutability} {access : Access} (hcompat : access.Compat ut)
    (hmutbl : mutbl = .mut → access.lastMutbl = .mut) : (ofPlace mutbl access).Good ut where
  access := hcompat
  mutbl h := hmutbl (Option.some.inj h)
  assignees acc hacc := by
    rw [List.mem_singleton.mp hacc]
    exact hcompat
  assigned h acc hacc := by
    rw [List.mem_singleton.mp hacc]
    cases h with
    | inl h => exact hmutbl (AssigneeKind.place.inj h)
    | inr h => cases h

end ExprResult

/-! ## Merging -/

/-- The test against `&mut`. -/
theorem Mutability.of_guard {m : Mutability} {u : Unit}
    (h : guard (!m.lt .mut) = some u) : m = .mut := by
  cases m <;> first | rfl | cases h

/-- A merged result may be assigned only if both parts may. -/
theorem AssigneeKind.merge_assigned {k₁ k₂ k : AssigneeKind} (h : k₁.merge k₂ = some k)
    (hk : k = .place .mut ∨ k = .only) :
    (k₁ = .place .mut ∨ k₁ = .only) ∧ (k₂ = .place .mut ∨ k₂ = .only) := by
  rcases k₁ with (_ | _) | _ | _ <;> rcases k₂ with (_ | _) | _ | _ <;>
    rcases hk with rfl | rfl <;> simp_all [merge, Mutability.and]

/-- An aggregate can be assigned only when each of its elements can. -/
theorem mergeResultInfo_assigned {rs : List ExprResult} {k : AssigneeKind}
    (h : mergeResultInfo rs = some k) (hk : k = .place .mut ∨ k = .only) :
    ∀ r ∈ rs, r.assignee = .place .mut ∨ r.assignee = .only := by
  suffices hloop : ∀ k₀ : AssigneeKind,
      rs.foldlM (fun assignee r => assignee.merge r.assignee) k₀ = some k →
      (k₀ = .place .mut ∨ k₀ = .only) ∧ ∀ r ∈ rs, r.assignee = .place .mut ∨ r.assignee = .only from
    (hloop _ h).2
  clear h
  induction rs with
  | nil =>
    intro k₀ h
    cases h
    exact ⟨hk, fun _ h => nomatch h⟩
  | cons r rs ih =>
    intro k₀ h
    obtain ⟨k₁, hmerge, hrest⟩ := OptionFold.cons_eq_some.mp h
    obtain ⟨hk₁, hrs⟩ := ih k₁ hrest
    obtain ⟨hk₀, hr⟩ := AssigneeKind.merge_assigned hmerge hk₁
    exact ⟨hk₀, List.forall_mem_cons.mpr ⟨hr, hrs⟩⟩

/-- One part alone. -/
theorem mergeResultInfo_singleton (r : ExprResult) : mergeResultInfo [r] = some r.assignee := by
  obtain ⟨assignee, access, assignees⟩ := r
  cases assignee with
  | place m => cases m <;> rfl
  | value => rfl
  | only => rfl

/-- The parts of a tuple, an array or a struct: the whole may be assigned where each part may. -/
theorem good_merge {ut : TypeUt} {rs : List ExprResult} {k : AssigneeKind}
    (hmerge : mergeResultInfo rs = some k) (hrs : ∀ r ∈ rs, r.Good ut) :
    ExprResult.Good ut ⟨k, .temporary, rs.flatMap ExprResult.assignees⟩ where
  access := Access.compat_temporary
  mutbl _ := rfl
  assignees acc hacc := by
    obtain ⟨r, hr, hacc⟩ := List.mem_flatMap.mp hacc
    exact (hrs r hr).assignees acc hacc
  assigned hk acc hacc := by
    obtain ⟨r, hr, hacc⟩ := List.mem_flatMap.mp hacc
    exact (hrs r hr).assigned (mergeResultInfo_assigned hmerge hk r hr) acc hacc

/-! ## States -/

namespace Analyzer

/-- Names stand where they may be, and what has been mutated so far was mutable. -/
structure Ok (a : Analyzer) : Prop where
  nominal : NominalTable a.ut
  mutated : ∀ acc ∈ a.mutated, acc.lastMutbl = .mut ∧ acc.Compat a.ut

/-- What a step of the analyser keeps. -/
structure Leads (a a' : Analyzer) : Prop where
  ok : a.Ok → a'.Ok
  ext : a.Ok → Extends a.ut a'.ut

variable {a a' a'' : Analyzer}

theorem Leads.refl (a : Analyzer) : Leads a a := ⟨fun h => h, fun _ => .refl a.ut⟩

theorem Leads.trans (h : Leads a a') (h' : Leads a' a'') : Leads a a'' :=
  ⟨fun ha => h'.ok (h.ok ha), fun ha => (h.ext ha).trans (h'.ext (h.ok ha))⟩

/-- A step that changes the table only. -/
theorem leads_ut {ut : TypeUt} (h : NominalTable a.ut → Extends a.ut ut) :
    Leads a { a with ut := ut } where
  ok ha := by
    have hext := h ha.nominal
    refine ⟨hext.nominal ha.nominal, fun acc hacc => ?_⟩
    obtain ⟨hmut, hcompat⟩ := ha.mutated acc hacc
    exact ⟨hmut, hcompat.extends hext⟩
  ext ha := h ha.nominal

/-- A new type is a new key. -/
theorem newType_leads {ty : ResolvedTy} (hty : ty.Nominal) : Leads a (a.newType ty).2 :=
  leads_ut fun _ => newKey_extends hty

/-- A new type variable. -/
theorem newAnyType_leads : Leads a (a.newType .anyType).2 :=
  newType_leads (ResolvedTy.nominal_of_names rfl)

/-- Several type variables. -/
theorem newAnyTypes_leads (n : Nat) : Leads a (a.newAnyTypes n).2 := by
  induction n generalizing a with
  | zero => exact .refl a
  | succ n ih => exact newAnyType_leads.trans ih

variable {fuel : Nat}

/-- `ty_intern_eq` extends the table. -/
theorem tyInternEq_leads {left right : TypeIntern}
    (h : a.tyInternEq fuel left right = some a') : Leads a a' := by
  obtain ⟨ut, hrun, rfl⟩ := Option.map_eq_some_iff.mp h
  exact leads_ut fun hut => solveEq_extends hut hrun

/-- `ty_downgrade_eq` extends the table. -/
theorem tyDowngradeEq_leads {lower higher : TypeIntern}
    (h : a.tyDowngradeEq fuel lower higher = some a') : Leads a a' := by
  obtain ⟨ut, hrun, rfl⟩ := Option.map_eq_some_iff.mp h
  exact leads_ut fun hut => solveEq_extends hut hrun

/-- `type_eq` extends the table. -/
theorem typeEq_leads {left : TypeIntern} {rightTy : ResolvedTy} (hty : rightTy.Nominal)
    (h : a.typeEq fuel left rightTy = some a') : Leads a a' := by
  obtain ⟨ut, hrun, rfl⟩ := Option.map_eq_some_iff.mp h
  exact leads_ut fun hut => solveEqWithType_extends hut hty hrun

/-- Recording accesses that were allowed. -/
theorem addMutated_leads {accesses : List Access}
    (h : a.Ok → ∀ acc ∈ accesses, acc.lastMutbl = .mut ∧ acc.Compat a.ut) :
    Leads a (a.addMutated accesses) where
  ok ha := by
    refine ⟨ha.nominal, fun acc hacc => ?_⟩
    cases List.mem_append.mp hacc with
    | inl hacc => exact ha.mutated acc hacc
    | inr hacc => exact h ha acc hacc
  ext _ := .refl a.ut

end Analyzer

/-! ## The visitors -/

open Analyzer

/-- The visits of the operands keep what the visitors need. -/
def Sound (visit : Visit) : Prop :=
  ∀ a e target r a', visit a e target = some (r, a') → Leads a a' ∧ (a.Ok → r.Good a'.ut)

section

variable {P : Prims} {fuel : Nat} {visit : Visit} {a a' : Analyzer} {target : TypeIntern}
  {r : ExprResult}

/-- The parts are visited in order, each in the state that the one before left. -/
theorem visitAll_sound (hvisit : Sound visit) {check : Analyzer → TypeIntern → Option Unit}
    {es : List (Expr × TypeIntern)} {rs : List ExprResult}
    (h : visitAll visit check a es = some (rs, a')) :
    Leads a a' ∧ (a.Ok → ∀ r ∈ rs, r.Good a'.ut) := by
  induction es generalizing a rs with
  | nil =>
    cases h
    exact ⟨.refl _, fun _ _ h => nomatch h⟩
  | cons e es ih =>
    obtain ⟨⟨r, a₁⟩, hfirst, h⟩ := Option.bind_eq_some_iff.mp h
    obtain ⟨-, -, h⟩ := Option.bind_eq_some_iff.mp h
    obtain ⟨⟨rs', a₂⟩, hrest, h⟩ := Option.bind_eq_some_iff.mp h
    cases h
    obtain ⟨hleads₁, hr⟩ := hvisit _ _ _ _ _ hfirst
    obtain ⟨hleads₂, hrs⟩ := ih hrest
    refine ⟨hleads₁.trans hleads₂, fun ha => List.forall_mem_cons.mpr ⟨?_, ?_⟩⟩
    · exact (hr ha).extends (hleads₂.ext (hleads₁.ok ha))
    · exact hrs (hleads₁.ok ha)

theorem visitTupExpr_sound (hvisit : Sound visit) {exprs : List Expr} {force : Bool}
    (h : visitTupExpr P fuel visit a exprs force target = some (r, a')) :
    Leads a a' ∧ (a.Ok → r.Good a'.ut) := by
  unfold visitTupExpr at h
  -- `()` first, then an expression in parentheses, then a tuple proper
  split at h
  · obtain ⟨a₁, heq, h⟩ := Option.bind_eq_some_iff.mp h
    obtain ⟨k, hk, h⟩ := Option.bind_eq_some_iff.mp h
    cases h
    exact ⟨tyInternEq_leads heq, fun _ => ExprResult.good_temporary k⟩
  · -- parentheses
    obtain ⟨a₁, heq, h⟩ := Option.bind_eq_some_iff.mp h
    obtain ⟨⟨r₁, a₂⟩, hrun, h⟩ := Option.bind_eq_some_iff.mp h
    obtain ⟨k, hk, h⟩ := Option.bind_eq_some_iff.mp h
    cases h
    rw [mergeResultInfo_singleton] at hk
    cases hk
    have hleads := newAnyType_leads.trans (tyInternEq_leads heq)
    obtain ⟨hleads₂, hr⟩ := hvisit _ _ _ _ _ hrun
    exact ⟨hleads.trans hleads₂, fun ha => hr (hleads.ok ha)⟩
  · obtain ⟨a₁, heq, h⟩ := Option.bind_eq_some_iff.mp h
    obtain ⟨probe, hprobe, h⟩ := Option.bind_eq_some_iff.mp h
    split at h
    · obtain ⟨⟨rs, a₂⟩, hrun, h⟩ := Option.bind_eq_some_iff.mp h
      obtain ⟨k, hk, h⟩ := Option.bind_eq_some_iff.mp h
      cases h
      have hleads := ((newAnyTypes_leads exprs.length).trans
        (newType_leads (ResolvedTy.nominal_of_names rfl))).trans (tyInternEq_leads heq)
      obtain ⟨hleads₂, hrs⟩ := visitAll_sound hvisit hrun
      exact ⟨hleads.trans hleads₂, fun ha => good_merge hk (hrs (hleads.ok ha))⟩
    · cases h

/-- The cases of `visit_expr`, one lemma for each: an array. -/
theorem visitArrayExpr_sound (hvisit : Sound visit) {exprs : List Expr}
    (h : visitArrayExpr fuel visit a exprs target = some (r, a')) :
    Leads a a' ∧ (a.Ok → r.Good a'.ut) := by
  obtain ⟨a₁, heq, h⟩ := Option.bind_eq_some_iff.mp h
  obtain ⟨⟨rs, a₂⟩, hrun, h⟩ := Option.bind_eq_some_iff.mp h
  obtain ⟨-, -, h⟩ := Option.bind_eq_some_iff.mp h
  obtain ⟨k, hk, h⟩ := Option.bind_eq_some_iff.mp h
  cases h
  have hleads := newAnyType_leads.trans
    (typeEq_leads (ResolvedTy.nominal_of_names rfl) heq)
  obtain ⟨hleads₂, hrs⟩ := visitAll_sound hvisit hrun
  exact ⟨hleads.trans hleads₂, fun ha => good_merge hk (hrs (hleads.ok ha))⟩

/-- A struct expression. -/
theorem visitStructExpr_sound (hvisit : Sound visit) {structType : TypeIntern}
    {fields : List (String × Expr)}
    (h : visitStructExpr fuel visit a structType fields target = some (r, a')) :
    Leads a a' ∧ (a.Ok → r.Good a'.ut) := by
  obtain ⟨a₁, heq, h⟩ := Option.bind_eq_some_iff.mp h
  obtain ⟨probe, hprobe, h⟩ := Option.bind_eq_some_iff.mp h
  split at h
  · obtain ⟨targets, htargets, h⟩ := Option.bind_eq_some_iff.mp h
    obtain ⟨⟨rs, a₂⟩, hrun, h⟩ := Option.bind_eq_some_iff.mp h
    obtain ⟨k, hk, h⟩ := Option.bind_eq_some_iff.mp h
    cases h
    have hleads := tyInternEq_leads heq
    obtain ⟨hleads₂, hrs⟩ := visitAll_sound hvisit hrun
    exact ⟨hleads.trans hleads₂, fun ha => good_merge hk (hrs (hleads.ok ha))⟩
  · cases h

/-- Auto-dereferencing passes references of the table, and the level holds their mutabilities. -/
theorem autoDerefTypes_spec {T : Type} {intern : TypeIntern}
    {func : TypeIntern → Option (Option T)} {level : DerefLevel} {t : T}
    {refs : List (TypeIntern × RefMutability)} (ha : a.Ok)
    (h : autoDerefTypes P fuel a intern func = some (level, t, refs)) :
    (∀ p ∈ refs, Access.CompatStep a.ut p) ∧
      level.mutbls = (refs.map fun p => p.2.toMutability).reverse := by
  unfold autoDerefTypes at h
  split at h
  · next hrun =>
    cases h
    obtain ⟨n, hdepth, hmutbls⟩ := autoDerefLoop_mutbls hrun
    have hn : n = level.depth := by
      rw [hdepth]
      show n = 0 + n
      omega
    subst hn
    refine ⟨derefTypes_compat ha.nominal, ?_⟩
    rw [hmutbls]
    simp [DerefLevel.mutbls]
  · cases h

/-- An automatic dereference gives mutability only when each of its references does. -/
theorem lastMutbl_chainMutbl {level : DerefLevel} {refs : List (TypeIntern × RefMutability)}
    {mutbl : Mutability} {access : Access}
    (hlevel : level.mutbls = (refs.map fun p => p.2.toMutability).reverse)
    (haccess : mutbl = .mut → access.lastMutbl = .mut)
    (h : level.chainMutbl mutbl = .mut) : (access.through refs).lastMutbl = .mut := by
  rw [DerefLevel.chainMutbl_eq, hlevel] at h
  obtain ⟨hnil, hrefs⟩ := h
  refine Access.lastMutbl_through.mpr ⟨fun heq => haccess (hnil ?_), fun p hp => hrefs _ ?_⟩
  · rw [heq]
    rfl
  · exact List.mem_reverse.mpr (List.mem_map_of_mem hp)

/-- A field: its mutability is the one of the receiver and of the references passed. -/
theorem visitFieldExpr_sound (hvisit : Sound visit) {receiver : Expr} {ident : String}
    (h : visitFieldExpr P fuel visit a receiver ident target = some (r, a')) :
    Leads a a' ∧ (a.Ok → r.Good a'.ut) := by
  obtain ⟨⟨r₁, a₁⟩, hrun, h⟩ := Option.bind_eq_some_iff.mp h
  obtain ⟨-, -, h⟩ := Option.bind_eq_some_iff.mp h
  obtain ⟨⟨level, ⟨probe, items⟩, refs⟩, hderef, h⟩ := Option.bind_eq_some_iff.mp h
  obtain ⟨pos, -, h⟩ := Option.bind_eq_some_iff.mp h
  obtain ⟨fieldTy, -, h⟩ := Option.bind_eq_some_iff.mp h
  obtain ⟨a₂, heq, h⟩ := Option.bind_eq_some_iff.mp h
  obtain ⟨k, hk, h⟩ := Option.bind_eq_some_iff.mp h
  obtain ⟨mutbl, hmutbl, h⟩ := Option.bind_eq_some_iff.mp h
  cases h
  rw [mergeResultInfo_singleton] at hk
  cases hk
  obtain ⟨hleads₁, hr⟩ := hvisit _ _ _ _ _ hrun
  have hleads₁ := newAnyType_leads.trans hleads₁
  have hleads₂ := tyDowngradeEq_leads heq
  refine ⟨hleads₁.trans hleads₂, fun ha => ?_⟩
  have hgood := hr (newAnyType_leads.ok ha)
  obtain ⟨hrefs, hlevel⟩ := autoDerefTypes_spec (hleads₁.ok ha) hderef
  refine ExprResult.good_ofPlace ((hgood.access.through hrefs).extends
    (hleads₂.ext (hleads₁.ok ha))) (lastMutbl_chainMutbl hlevel fun hmut => ?_)
  exact hgood.mutbl (hmutbl.trans (congrArg some hmut))

/-- An index. -/
theorem visitIndexExpr_sound (hvisit : Sound visit) {array index : Expr}
    (h : visitIndexExpr P fuel visit a array index target = some (r, a')) :
    Leads a a' ∧ (a.Ok → r.Good a'.ut) := by
  obtain ⟨⟨r₁, a₁⟩, hrun, h⟩ := Option.bind_eq_some_iff.mp h
  obtain ⟨⟨ri, a₂⟩, hindex, h⟩ := Option.bind_eq_some_iff.mp h
  obtain ⟨⟨level, innerTy, refs⟩, hderef, h⟩ := Option.bind_eq_some_iff.mp h
  obtain ⟨a₃, heq, h⟩ := Option.bind_eq_some_iff.mp h
  obtain ⟨-, -, h⟩ := Option.bind_eq_some_iff.mp h
  obtain ⟨-, -, h⟩ := Option.bind_eq_some_iff.mp h
  obtain ⟨mutbl, hmutbl, h⟩ := Option.bind_eq_some_iff.mp h
  cases h
  have hleads₀ : Leads a _ := newAnyType_leads
  obtain ⟨hleads₁, hr⟩ := hvisit _ _ _ _ _ hrun
  obtain ⟨hleads₂, -⟩ := hvisit _ _ _ _ _ hindex
  have hleads₃ := tyDowngradeEq_leads heq
  have hleads := (hleads₀.trans hleads₁).trans hleads₂
  refine ⟨hleads.trans hleads₃, fun ha => ?_⟩
  have hgood := (hr (hleads₀.ok ha)).extends (hleads₂.ext (hleads₁.ok (hleads₀.ok ha)))
  obtain ⟨hrefs, hlevel⟩ := autoDerefTypes_spec (hleads.ok ha) hderef
  refine ExprResult.good_ofPlace ((hgood.access.through hrefs).extends
    (hleads₃.ext (hleads.ok ha))) (lastMutbl_chainMutbl hlevel fun hmut => ?_)
  exact hgood.mutbl (hmutbl.trans (congrArg some hmut))

/-- A name. -/
theorem visitPathExpr_sound {index : PlaceIndex}
    (h : visitPathExpr fuel a index target = some (r, a')) :
    Leads a a' ∧ (a.Ok → r.Good a'.ut) := by
  obtain ⟨value, -, h⟩ := Option.bind_eq_some_iff.mp h
  obtain ⟨a₁, heq, h⟩ := Option.bind_eq_some_iff.mp h
  split at h
  · cases h
    exact ⟨tyDowngradeEq_leads heq,
      fun _ => ExprResult.good_ofPlace Access.compat_temporary fun _ => rfl⟩
  · cases h
    exact ⟨tyDowngradeEq_leads heq,
      fun _ => ExprResult.good_ofPlace (fun _ h => nomatch h) fun hmut => hmut⟩

/-- A type that the table shows as a reference. -/
theorem probe_compatStep {ut : TypeUt} (hut : NominalTable ut) {i inner : TypeIntern}
    {probe : ResolvedTy} {m : RefMutability} (hprobe : ut.probeType i = some probe)
    (hkind : probe.kind = .ref inner m) : Access.CompatStep ut (i, m) := by
  have hstep : (i, m) ∈ derefTypes ut.probeValue i 1 1 i := by
    unfold derefTypes
    rw [show TypeTable.probeType ut.probeValue i = some probe from hprobe]
    simp only [hkind]
    exact List.mem_cons_self
  exact derefTypes_compat hut _ hstep

/-- `*e` passes one reference. -/
theorem visitDerefExpr_sound (hvisit : Sound visit) {e : Expr}
    (h : visitDerefExpr fuel visit a e target = some (r, a')) :
    Leads a a' ∧ (a.Ok → r.Good a'.ut) := by
  obtain ⟨⟨r₁, a₁⟩, hrun, h⟩ := Option.bind_eq_some_iff.mp h
  obtain ⟨probe, hprobe, h⟩ := Option.bind_eq_some_iff.mp h
  split at h
  · next inner m hkind =>
    obtain ⟨a₂, heq, h⟩ := Option.bind_eq_some_iff.mp h
    obtain ⟨-, -, h⟩ := Option.bind_eq_some_iff.mp h
    cases h
    have hleads₀ : Leads a _ := newAnyType_leads
    obtain ⟨hleads₁, hr⟩ := hvisit _ _ _ _ _ hrun
    have hleads₂ := tyDowngradeEq_leads heq
    have hleads := hleads₀.trans hleads₁
    refine ⟨hleads.trans hleads₂, fun ha => ?_⟩
    have hstep := probe_compatStep (hleads.ok ha).nominal hprobe hkind
    refine ExprResult.good_ofPlace (Access.Compat.extends (Access.Compat.through
      (hr (hleads₀.ok ha)).access ?_) (hleads₂.ext (hleads.ok ha))) fun hmut => ?_
    · intro p hp
      rw [List.mem_singleton.mp hp]
      exact hstep
    · refine Access.lastMutbl_through.mpr ⟨fun h => (nomatch h), fun p hp => ?_⟩
      rw [List.mem_singleton.mp hp]
      exact hmut
  · cases h

/-- `&e` is a value; `&mut e` is recorded and was allowed. -/
theorem visitAddrOfExpr_sound (hvisit : Sound visit) {mutbl : Mutability} {e : Expr}
    (h : visitAddrOfExpr fuel visit a mutbl e target = some (r, a')) :
    Leads a a' ∧ (a.Ok → r.Good a'.ut) := by
  obtain ⟨a₁, heq, h⟩ := Option.bind_eq_some_iff.mp h
  obtain ⟨⟨r₁, a₂⟩, hrun, h⟩ := Option.bind_eq_some_iff.mp h
  obtain ⟨-, -, h⟩ := Option.bind_eq_some_iff.mp h
  obtain ⟨k, hk, h⟩ := Option.bind_eq_some_iff.mp h
  obtain ⟨innerMutbl, hinner, h⟩ := Option.bind_eq_some_iff.mp h
  obtain ⟨_, hguard, h⟩ := Option.bind_eq_some_iff.mp h
  cases h
  rw [mergeResultInfo_singleton] at hk
  cases hk
  have hleads₀ := (newAnyType_leads.trans
    (newType_leads (ResolvedTy.nominal_of_names rfl))).trans (tyInternEq_leads heq)
  obtain ⟨hleads₁, hr⟩ := hvisit _ _ _ _ _ hrun
  have hleads := hleads₀.trans hleads₁
  refine ⟨⟨fun ha => ?_, fun ha => hleads.ext ha⟩, fun _ => ExprResult.good_ofValue⟩
  refine (addMutated_leads fun _ acc hacc => ?_).ok (hleads.ok ha)
  have hgood := hr (hleads₀.ok ha)
  split at hacc
  · next hmut =>
    rw [List.mem_singleton.mp hacc]
    subst hmut
    refine ⟨hgood.mutbl ?_, hgood.access⟩
    exact hinner.trans (congrArg some (Mutability.of_guard hguard))
  · cases hacc

/-- An assignment is recorded and was allowed. -/
theorem visitAssignExpr_sound (hvisit : Sound visit) {left right : Expr}
    (h : visitAssignExpr P fuel visit a left right target = some (r, a')) :
    Leads a a' ∧ (a.Ok → r.Good a'.ut) := by
  obtain ⟨a₁, heq, h⟩ := Option.bind_eq_some_iff.mp h
  obtain ⟨⟨r₁, a₂⟩, hleft, h⟩ := Option.bind_eq_some_iff.mp h
  obtain ⟨⟨rr, a₃⟩, hright, h⟩ := Option.bind_eq_some_iff.mp h
  obtain ⟨-, -, h⟩ := Option.bind_eq_some_iff.mp h
  have hleads₀ := (tyInternEq_leads heq).trans newAnyType_leads
  obtain ⟨hleads₁, hr⟩ := hvisit _ _ _ _ _ hleft
  obtain ⟨hleads₂, -⟩ := hvisit _ _ _ _ _ hright
  have hleads := (hleads₀.trans hleads₁).trans hleads₂
  -- the left side has been accepted as an assignee
  have hassigned : r₁.assignee = .place .mut ∨ r₁.assignee = .only →
      Leads a (a₃.addMutated r₁.assignees) := fun hk =>
    ⟨fun ha => by
      have hgood := (hr (hleads₀.ok ha)).extends (hleads₂.ext (hleads₁.ok (hleads₀.ok ha)))
      exact (addMutated_leads fun _ acc hacc =>
        ⟨hgood.assigned hk acc hacc, hgood.assignees acc hacc⟩).ok (hleads.ok ha),
      hleads.ext⟩
  split at h
  · next hk =>
    cases h
    exact ⟨hassigned (.inl hk), fun _ => ExprResult.good_ofValue⟩
  · next hk =>
    cases h
    exact ⟨hassigned (.inr hk), fun _ => ExprResult.good_ofValue⟩
  · cases h
  · cases h

/-- The type of the right side is a new key at most. -/
theorem assignOpTarget_leads {op : AssignOp} {expTy rightTy : TypeIntern} {probe : ResolvedTy}
    (h : assignOpTarget P a op expTy probe = some (rightTy, a')) : Leads a a' := by
  unfold assignOpTarget at h
  split at h
  · cases h
    exact .refl a
  · split at h
    · split at h
      · cases h
        exact newType_leads (ResolvedTy.nominal_of_names rfl)
      · cases h
        exact .refl a
    · split at h
      · cases h
        exact .refl a
      · cases h

/-- A compound assignment. -/
theorem visitAssignOpExpr_sound (hvisit : Sound visit) {op : AssignOp} {left right : Expr}
    (h : visitAssignOpExpr P fuel visit a op left right target = some (r, a')) :
    Leads a a' ∧ (a.Ok → r.Good a'.ut) := by
  obtain ⟨a₁, heq, h⟩ := Option.bind_eq_some_iff.mp h
  obtain ⟨⟨r₁, a₂⟩, hleft, h⟩ := Option.bind_eq_some_iff.mp h
  obtain ⟨probe, -, h⟩ := Option.bind_eq_some_iff.mp h
  obtain ⟨⟨rightTy, a₃⟩, htarget, h⟩ := Option.bind_eq_some_iff.mp h
  obtain ⟨⟨rr, a₄⟩, hright, h⟩ := Option.bind_eq_some_iff.mp h
  obtain ⟨-, -, h⟩ := Option.bind_eq_some_iff.mp h
  have hleads₀ := (tyInternEq_leads heq).trans newAnyType_leads
  obtain ⟨hleads₁, hr⟩ := hvisit _ _ _ _ _ hleft
  have hleads₂ := (assignOpTarget_leads htarget).trans (hvisit _ _ _ _ _ hright).1
  have hleads := (hleads₀.trans hleads₁).trans hleads₂
  split at h
  · next hk =>
    cases h
    refine ⟨⟨fun ha => ?_, hleads.ext⟩, fun _ => ExprResult.good_ofValue⟩
    have hgood := (hr (hleads₀.ok ha)).extends (hleads₂.ext (hleads₁.ok (hleads₀.ok ha)))
    refine (addMutated_leads fun _ acc hacc => ?_).ok (hleads.ok ha)
    rw [List.mem_singleton.mp hacc]
    exact ⟨hgood.mutbl (by rw [hk]; rfl), hgood.access⟩
  · cases h
  · cases h
  · cases h

/-- A receiver that is borrowed mutably was a mutable place. -/
theorem checkReceiver_leads {level : DerefLevel} {receiverMutbl : Mutability} {selfTy : ResolvedTy}
    {access : Access}
    (haccess : a.Ok → access.Compat a.ut ∧
      (level.chainMutbl receiverMutbl = .mut → access.lastMutbl = .mut))
    (h : checkReceiver a level receiverMutbl selfTy access = some a') : Leads a a' := by
  unfold checkReceiver at h
  split at h
  · next inner refMutbl hkind =>
    obtain ⟨_, hguard, h⟩ := Option.bind_eq_some_iff.mp h
    cases h
    refine addMutated_leads fun ha acc hacc => ?_
    split at hacc
    · next hmut =>
      rw [List.mem_singleton.mp hacc]
      obtain ⟨hcompat, hlast⟩ := haccess ha
      refine ⟨hlast ?_, hcompat⟩
      rw [hmut] at hguard
      exact Mutability.of_guard hguard
    · cases hacc
  · split at h
    · cases h
      exact .refl a
    · cases h

/-- A method call: the receiver is checked against the type of `self`. -/
theorem visitMethodCallExpr_sound (hvisit : Sound visit) {receiver : Expr} {symbol : String}
    {args : List Expr}
    (h : visitMethodCallExpr P fuel visit a receiver symbol args target = some (r, a')) :
    Leads a a' ∧ (a.Ok → r.Good a'.ut) := by
  obtain ⟨⟨r₁, a₁⟩, hrun, h⟩ := Option.bind_eq_some_iff.mp h
  obtain ⟨⟨level, index, refs⟩, hderef, h⟩ := Option.bind_eq_some_iff.mp h
  obtain ⟨value, -, h⟩ := Option.bind_eq_some_iff.mp h
  have hleads₀ : Leads a _ := newAnyType_leads
  obtain ⟨hleads₁, hr⟩ := hvisit _ _ _ _ _ hrun
  have hleads := hleads₀.trans hleads₁
  split at h
  case h_3 => cases h
  -- both kinds of methods are called in the same way
  all_goals
    obtain ⟨probe, -, h⟩ := Option.bind_eq_some_iff.mp h
    split at h
    · next retTy selfTy argTys hkind =>
      obtain ⟨a₂, heq, h⟩ := Option.bind_eq_some_iff.mp h
      obtain ⟨_, -, h⟩ := Option.bind_eq_some_iff.mp h
      obtain ⟨⟨rs, a₃⟩, hargs, h⟩ := Option.bind_eq_some_iff.mp h
      obtain ⟨_, -, h⟩ := Option.bind_eq_some_iff.mp h
      obtain ⟨_, -, h⟩ := Option.bind_eq_some_iff.mp h
      obtain ⟨firstProbe, -, h⟩ := Option.bind_eq_some_iff.mp h
      obtain ⟨receiverMutbl, hmutbl, h⟩ := Option.bind_eq_some_iff.mp h
      obtain ⟨a₄, hcheck, h⟩ := Option.bind_eq_some_iff.mp h
      cases h
      have hleads₂ := (tyDowngradeEq_leads heq).trans (visitAll_sound hvisit hargs).1
      have hcheck' : a.Ok → Leads a₃ a' := fun ha => by
        have hgood := hr (hleads₀.ok ha)
        obtain ⟨hrefs, hlevel⟩ := autoDerefTypes_spec (hleads.ok ha) hderef
        refine checkReceiver_leads (fun _ => ⟨?_, ?_⟩) hcheck
        · exact (hgood.access.through hrefs).extends (hleads₂.ext (hleads.ok ha))
        · exact lastMutbl_chainMutbl hlevel fun hmut =>
            hgood.mutbl (hmutbl.trans (congrArg some hmut))
      exact ⟨⟨fun ha => ((hleads.trans hleads₂).trans (hcheck' ha)).ok ha,
        fun ha => ((hleads.trans hleads₂).trans (hcheck' ha)).ext ha⟩,
        fun _ => ExprResult.good_ofValue⟩
    · cases h

/-- One statement of a body. -/
theorem visitStep_leads (hvisit : Sound visit) {step : Step Expr}
    (h : visitStep fuel visit a step = some a') : Leads a a' := by
  cases step with
  | newType ty hty =>
    cases h
    exact newType_leads hty
  | eq left right => exact tyInternEq_leads h
  | downgradeEq lower higher => exact tyDowngradeEq_leads h
  | eqWithType left rightTy hty => exact typeEq_leads hty h
  | declare index value =>
    obtain ⟨_, -, h⟩ := Option.bind_eq_some_iff.mp h
    cases h
    exact ⟨fun ha => ⟨ha.nominal, ha.mutated⟩, fun _ => .refl a.ut⟩
  | visit e target =>
    obtain ⟨⟨r, a₁⟩, hrun, rfl⟩ := Option.map_eq_some_iff.mp h
    exact (hvisit _ _ _ _ _ hrun).1

/-- The statements in order. -/
theorem visitSteps_leads (hvisit : Sound visit) {steps : List (Step Expr)}
    (h : steps.foldlM (visitStep fuel visit) a = some a') : Leads a a' :=
  OptionFold.relates .refl (fun _ _ _ => .trans) (fun _ _ _ _ hrun => visitStep_leads hvisit hrun) h

end

/-- the induction is on the fuel; each case of the expression has its lemma above. -/
theorem visitExpr_sound (P : Prims) (fuel : Nat) : Sound (visitExpr P fuel) := by
  induction fuel with
  | zero => exact fun _ _ _ _ _ h => nomatch h
  | succ fuel ih =>
    intro a e target r a' h
    cases e with
    | path index => exact visitPathExpr_sound h
    | underscore =>
      cases h
      exact ⟨.refl a, fun _ => ExprResult.good_temporary .only⟩
    | tup exprs force => exact visitTupExpr_sound ih h
    | array exprs => exact visitArrayExpr_sound ih h
    | struct structType fields => exact visitStructExpr_sound ih h
    | field receiver ident => exact visitFieldExpr_sound ih h
    | index array index => exact visitIndexExpr_sound ih h
    | deref e => exact visitDerefExpr_sound ih h
    | addrOf mutbl e => exact visitAddrOfExpr_sound ih h
    | assign left right => exact visitAssignExpr_sound ih h
    | assignOp op left right => exact visitAssignOpExpr_sound ih h
    | methodCall receiver symbol args => exact visitMethodCallExpr_sound ih h
    | value steps =>
      obtain ⟨a₁, hsteps, heq⟩ := Option.map_eq_some_iff.mp h
      cases heq
      exact ⟨visitSteps_leads ih hsteps, fun _ => ExprResult.good_ofValue⟩

end Semantics
