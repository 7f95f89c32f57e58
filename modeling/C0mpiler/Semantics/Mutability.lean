import C0mpiler.Semantics.Assignee
import Mathlib

/-!
# What the analyser lets a program mutate

The mutability that the visitors compute for a place is the one of the last step of its access path
that dereferences (`Access.lastMutbl`): a later step forgets what the earlier ones went through. So
a mutated place goes through no shared reference exactly when its earlier steps do not, and when no
reference that was weak at the last step has become shared since.
-/

namespace Semantics

/-! ## Levels -/

namespace DerefLevel

/-- The mutabilities of the references, the last one first. -/
def mutbls : DerefLevel → List Mutability
  | .not => []
  | .deref inner m => m :: inner.mutbls

/-- The loop asks for `mut` at each reference. -/
theorem chainLoop_eq (m : Mutability) (level : DerefLevel) :
    level.chainLoop m = .mut ↔ m = .mut ∧ ∀ m' ∈ level.mutbls, m' = .mut := by
  induction level generalizing m with
  | not => simp [chainLoop, mutbls]
  | deref inner m' ih =>
    rw [chainLoop, ih]
    simp only [mutbls, List.mem_cons, forall_eq_or_imp]
    cases m <;> cases m' <;> simp [Mutability.and]

/-- A chain is mutable when each of its references is; without one the object decides. -/
theorem chainMutbl_eq (raw : Mutability) (level : DerefLevel) :
    level.chainMutbl raw = .mut ↔
      (level.mutbls = [] → raw = .mut) ∧ ∀ m ∈ level.mutbls, m = .mut := by
  cases level with
  | not => simp [chainMutbl, mutbls]
  | deref inner m => simp [chainMutbl, mutbls, chainLoop_eq]

end DerefLevel

/-- The loop passes the references that `derefTypes` lists, innermost last. -/
theorem autoDerefLoop_mutbls {ε T : Type} {ut : TypeTable} {u32Type : TypeIntern}
    {func : TypeIntern → Except ε (Option T)} {fuel : Nat} {i base : TypeIntern}
    {level level' : DerefLevel} {t : T}
    (h : autoDerefLoop ut u32Type func fuel (some i) level = some (.ok (some (level', base, t)))) :
    ∃ n, level'.depth = level.depth + n ∧ level'.mutbls =
      ((derefTypes ut u32Type fuel n i).map fun p => p.2.toMutability).reverse ++ level.mutbls := by
  induction fuel generalizing i level with
  | zero => cases h
  | succ fuel ih =>
    unfold autoDerefLoop at h
    split at h
    · cases h
    · cases h
      exact ⟨0, rfl, rfl⟩
    -- the type is accepted here, or the loop goes on behind a reference
    · split at h
      · cases h
      · next probe hprobe =>
        split at h
        · next inner m hkind =>
          obtain ⟨n, hdepth, hmutbls⟩ := ih h
          refine ⟨n + 1, ?_, ?_⟩
          · rw [hdepth]
            show level.depth + 1 + n = level.depth + (n + 1)
            omega
          · rw [hmutbls]
            simp only [derefTypes, hprobe, hkind, List.map_cons, List.reverse_cons,
              List.append_assoc, DerefLevel.mutbls]
            rfl
        · next hkind =>
          obtain ⟨n, hdepth, hmutbls⟩ := ih h
          refine ⟨n, hdepth, ?_⟩
          rw [hmutbls]
          cases n with
          | zero =>
            cases fuel with
            | zero => cases h
            | succ fuel => rfl
          | succ n => simp only [derefTypes, hprobe, hkind]
        -- a type that is no reference ends the loop
        · cases fuel <;> cases h

/-! ## Access paths -/

/-- A temporary may be changed. -/
def Root.mutbl : Root → Mutability
  | .binding m => m
  | .temporary => .mut

namespace Access

/-- The mutability that the analyser computes: the one of the last step that dereferences. -/
def lastMutbl (a : Access) : Mutability :=
  match a.steps.getLast? with
  | none => a.root.mutbl
  | some step => if ∀ p ∈ step, p.2.toMutability = .mut then .mut else .not

/-- The type is a reference, and its mutability is what the recorded one has become. -/
def CompatStep (ut : TypeUt) (p : TypeIntern × RefMutability) : Prop :=
  ∃ t m, ut.probeType p.1 = some (.refType t m) ∧ p.2.Becomes m

/-- Every reference on the way is one of the table. -/
def Compat (ut : TypeUt) (a : Access) : Prop := ∀ step ∈ a.steps, ∀ p ∈ step, CompatStep ut p

variable {ut ut' : TypeUt} {a : Access}

/-- A reference of the table stays one when the table is extended. -/
theorem CompatStep.extends {p : TypeIntern × RefMutability} (h : CompatStep ut p)
    (hext : Extends ut ut') : CompatStep ut' p := by
  obtain ⟨t, m, hprobe, hm⟩ := h
  obtain ⟨i, m₀⟩ := p
  cases i with
  | never => cases hprobe
  | other k =>
    obtain ⟨t', m', heq, hm'⟩ := hext.refs k t m (Option.some.inj hprobe)
    exact ⟨t', m', congrArg some heq, hm.trans hm'⟩

/-- The same for a whole access. -/
theorem Compat.extends (h : a.Compat ut) (hext : Extends ut ut') : a.Compat ut' :=
  fun step hstep p hp => (h step hstep p hp).extends hext

/-- A temporary passes no reference. -/
theorem compat_temporary : Access.temporary.Compat ut := fun _ h => nomatch h

/-- One more step through references of the table. -/
theorem Compat.through (h : a.Compat ut) {refs : List (TypeIntern × RefMutability)}
    (hrefs : ∀ p ∈ refs, CompatStep ut p) : (a.through refs).Compat ut := by
  cases refs with
  | nil => exact h
  | cons p refs =>
    intro step hstep
    cases List.mem_append.mp hstep with
    | inl hstep => exact h step hstep
    | inr hstep =>
      rw [List.mem_singleton.mp hstep]
      exact hrefs

/-- The last references decide; without any, the access is as before. -/
theorem lastMutbl_through {refs : List (TypeIntern × RefMutability)} :
    (a.through refs).lastMutbl = .mut ↔
      (refs = [] → a.lastMutbl = .mut) ∧ ∀ p ∈ refs, p.2.toMutability = .mut := by
  cases refs with
  | nil => simp [through]
  | cons p refs =>
    have hlast : (a.through (p :: refs)).lastMutbl =
        if ∀ q ∈ p :: refs, q.2.toMutability = .mut then .mut else .not := by
      unfold lastMutbl through
      simp only [List.getLast?_append, List.getLast?_singleton, Option.some_or]
    rw [hlast]
    split
    · next h => exact ⟨fun _ => ⟨fun h => (List.cons_ne_nil _ _ h).elim, h⟩, fun _ => rfl⟩
    · next h => exact ⟨fun h => (nomatch h), fun h' => absurd h'.2 h⟩

end Access

/-- The references that are followed are references of the table. -/
theorem derefTypes_compat {ut : TypeUt} (hut : NominalTable ut) {u32Type : TypeIntern} {fuel n : Nat}
    {i : TypeIntern} : ∀ p ∈ derefTypes ut.probeValue u32Type fuel n i, Access.CompatStep ut p := by
  induction fuel generalizing n i with
  | zero => exact fun _ h => nomatch h
  | succ fuel ih =>
    cases n with
    | zero => exact fun _ h => nomatch h
    | succ n =>
      intro p hp
      unfold derefTypes at hp
      split at hp
      · cases hp
      · next probe hprobe =>
        split at hp
        · next inner m hkind =>
          cases List.mem_cons.mp hp with
          | inl hp =>
            subst hp
            cases i with
            | never => cases hprobe
            | other k =>
              have hnone : probe.names = none := by
                cases hnames : probe.names with
                | none => rfl
                | some names =>
                  have hnominal : probe.Nominal := Option.some.inj hprobe ▸ hut k
                  have hfalse := hnominal (by rw [hnames]; rfl)
                  rw [hkind] at hfalse
                  exact hfalse.elim
              have heq : probe = .refType inner m := by
                obtain ⟨names, kind⟩ := probe
                cases hnone
                cases hkind
                rfl
              exact ⟨inner, m, heq ▸ hprobe, .refl m⟩
          | inr hp => exact ih p hp
        · exact ih p hp
        · cases hp

end Semantics
