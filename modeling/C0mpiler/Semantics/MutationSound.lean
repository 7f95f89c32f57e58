import C0mpiler.Semantics.Visitors
import Mathlib

/-!
# Mutated places are mutable

The analyser visits the bodies of a crate with one table of types. Of a place that it lets a body
mutate it has looked at the last step that dereferences only, with the mutability that the
references had then. The place is mutable when the steps before are, and when none of the weak
references of the last step has been unified with a shared one afterwards.
-/

namespace Semantics

/-- The type is a shared reference. -/
def TypeUt.Shared (ut : TypeUt) (i : TypeIntern) : Prop :=
  ∃ inner, ut.probeType i = some (.refType inner .not)

namespace Access

/-- What the language asks of a place that is mutated. -/
def Mutable (ut : TypeUt) (a : Access) : Prop :=
  (∀ step ∈ a.steps, ∀ p ∈ step, ¬ ut.Shared p.1) ∧ (a.steps = [] → a.root.mutbl = .mut)

/-- No reference of an earlier step is shared, and no reference of the last step that was weak when
it was visited has become shared. -/
def SharedNowhereElse (ut : TypeUt) (a : Access) : Prop :=
  (∀ step ∈ a.steps.dropLast, ∀ p ∈ step, ¬ ut.Shared p.1) ∧
    ∀ step ∈ a.steps.getLast?, ∀ p ∈ step, p.2 = .weakMut → ¬ ut.Shared p.1

variable {ut : TypeUt} {a : Access}

/-- A reference that was mutable, and not weakly so, is not shared. -/
theorem CompatStep.not_shared {p : TypeIntern × RefMutability} (h : CompatStep ut p)
    (hmut : p.2.toMutability = .mut) (hweak : p.2 ≠ .weakMut) : ¬ ut.Shared p.1 := by
  obtain ⟨inner, m, hprobe, hm⟩ := h
  intro ⟨inner', hshared⟩
  rw [hprobe] at hshared
  cases hshared
  cases hm with
  | inl hm => exact hweak hm
  | inr hm =>
    rw [← hm] at hmut
    cases hmut

/-- Only the last step through references has to be mutable for the place to be. -/
theorem lastMutbl_getLast (h : a.lastMutbl = .mut) {step : List (TypeIntern × RefMutability)}
    (hstep : step ∈ a.steps.getLast?) : ∀ p ∈ step, p.2.toMutability = .mut := by
  unfold lastMutbl at h
  rw [show a.steps.getLast? = some step from hstep] at h
  dsimp only at h
  split at h
  · assumption
  · cases h

/-- A mutable place may be changed through exactly when no earlier step passes a shared reference.
-/
theorem mutable_iff (hmut : a.lastMutbl = .mut) (hcompat : a.Compat ut) :
    a.Mutable ut ↔ a.SharedNowhereElse ut := by
  constructor
  · intro ⟨hsteps, _⟩
    refine ⟨fun step hstep => hsteps step (List.dropLast_subset _ hstep), ?_⟩
    exact fun step hstep p hp _ => hsteps step (List.mem_of_getLast? hstep) p hp
  · intro ⟨hearlier, hlast⟩
    refine ⟨fun step hstep p hp => ?_, fun hnil => ?_⟩
    · cases hsplit : a.steps.getLast? with
      | none => exact absurd (List.getLast?_eq_none_iff.mp hsplit ▸ hstep) List.not_mem_nil
      | some last =>
        have hsteps : a.steps = a.steps.dropLast ++ [last] :=
          (List.dropLast_append_getLast? last hsplit).symm
        rw [hsteps] at hstep
        cases List.mem_append.mp hstep with
        | inl hstep => exact hearlier step hstep p hp
        | inr hstep =>
          rw [List.mem_singleton.mp hstep] at hp
          have hpmut := lastMutbl_getLast hmut hsplit p hp
          by_cases hweak : p.2 = .weakMut
          · exact hlast last hsplit p hp hweak
          · exact (hcompat last (List.mem_of_getLast? hsplit) p hp).not_shared hpmut hweak
    · unfold lastMutbl at hmut
      rw [hnil] at hmut
      exact hmut

end Access

/-! ## Crates -/

/-- What the stages before the bodies have built: the types and the values of the items. -/
structure Definitions where
  ut : TypeUt
  places : PlaceIndex → Option PlaceValue
  nominal : NominalTable ut

/-- The analyzer before the first expression. -/
def Definitions.analyzer (defs : Definitions) : Analyzer := ⟨defs.ut, defs.places, []⟩

/-- It has recorded nothing. -/
theorem Definitions.analyzer_ok (defs : Definitions) : defs.analyzer.Ok :=
  ⟨defs.nominal, fun _ h => nomatch h⟩

/-- The bodies of a crate, with the declarations of their bindings. -/
def visitCrate (P : Prims) (fuel : Nat) (a : Analyzer) (bodies : List (Step Expr)) :
    Option Analyzer :=
  bodies.foldlM (visitStep fuel (visitExpr P fuel)) a

/-- Every place that an accepted crate mutates is mutable, if and only if each of them is shared
nowhere else than where the analyser looks. -/
theorem visitCrate_mutable_iff (P : Prims) (fuel : Nat) (defs : Definitions)
    (bodies : List (Step Expr)) (a : Analyzer)
    (h : visitCrate P fuel defs.analyzer bodies = some a) :
    (∀ access ∈ a.mutated, access.Mutable a.ut) ↔
      ∀ access ∈ a.mutated, access.SharedNowhereElse a.ut := by
  have hok := (visitSteps_leads (visitExpr_sound P fuel) h).ok defs.analyzer_ok
  refine forall₂_congr fun access haccess => ?_
  obtain ⟨hmut, hcompat⟩ := hok.mutated access haccess
  exact Access.mutable_iff hmut hcompat

/-! ## A mutable reference behind a shared one -/

/-- A crate with the type `& &mut i32`. -/
def sharedTable : TypeUt :=
  let ut := (UnificationTable.empty.newKey (.tupType [])).2
  let ut := (ut.newKey ⟨none, .builtIn .i32⟩).2
  let ut := (ut.newKey ⟨none, .builtIn .u32⟩).2
  let ut := (ut.newKey ⟨none, .builtIn .usize⟩).2
  let ut := (ut.newKey (.refType (.other 1) .mut)).2
  (ut.newKey (.refType (.other 4) .not)).2

/-- The table of the example is well named. -/
theorem sharedTable_nominal : NominalTable sharedTable := by
  have hempty : NominalTable .empty := fun _ => ResolvedTy.nominal_of_names rfl
  have hnew : ∀ (ut : TypeUt) (ty : ResolvedTy), NominalTable ut → ty.names = none →
      NominalTable (ut.newKey ty).2 := fun ut ty hut hty =>
    (newKey_extends (ResolvedTy.nominal_of_names hty)).nominal hut
  exact hnew _ _ (hnew _ _ (hnew _ _ (hnew _ _ (hnew _ _ (hnew _ _ hempty rfl) rfl) rfl) rfl) rfl) rfl

/-- The definitions of the example. -/
def sharedDefs : Definitions := ⟨sharedTable, fun _ => none, sharedTable_nominal⟩

/-- The types that the example's literals have. -/
def sharedPrims : Prims where
  unitType := .other 0
  u32Type := .other 2
  usizeType := .other 3
  refStrType := .never
  searchValueInImpl _ _ _ := some none

/-- The parameters `r: &mut i32`, `rr: & &mut i32` and `x: i32` of a function. -/
def sharedParams : List (Step Expr) :=
  [.declare 0 ⟨.other 4, .binding, .not⟩, .declare 1 ⟨.other 5, .binding, .not⟩,
    .declare 2 ⟨.other 1, .binding, .not⟩]

/-- `*r = x`. -/
theorem visitCrate_mutable_iff_deref : ∃ a,
    visitCrate sharedPrims 9 sharedDefs.analyzer
      (sharedParams ++ [.visit (.assign (.deref (.path 0)) (.path 2)) (.other 0)]) = some a ∧
    ((∀ access ∈ a.mutated, access.Mutable a.ut) ↔
      ∀ access ∈ a.mutated, access.SharedNowhereElse a.ut) := by
  obtain ⟨a, ha⟩ := Option.isSome_iff_exists.mp
    (show (visitCrate sharedPrims 9 sharedDefs.analyzer
      (sharedParams ++ [.visit (.assign (.deref (.path 0)) (.path 2)) (.other 0)])).isSome from rfl)
  exact ⟨a, ha, visitCrate_mutable_iff _ _ _ _ a ha⟩

/-- `**rr = x` is accepted: only the inner reference is looked at. -/
theorem visitCrate_not_mutable : ¬ ∀ (P : Prims) (fuel : Nat) (defs : Definitions)
    (bodies : List (Step Expr)) (a : Analyzer), visitCrate P fuel defs.analyzer bodies = some a →
    ∀ access ∈ a.mutated, access.Mutable a.ut := by
  intro h
  have hmutable := h sharedPrims 9 sharedDefs
    (sharedParams ++ [.visit (.assign (.deref (.deref (.path 1))) (.path 2)) (.other 0)]) _ rfl
    ⟨.binding .not, [[(.other 8, .not)], [(.other 7, .mut)]]⟩ List.mem_cons_self
  exact hmutable.1 _ List.mem_cons_self _ List.mem_cons_self ⟨.other 4, rfl⟩

end Semantics
