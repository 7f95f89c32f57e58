import C0mpiler.Semantics.Types
import C0mpiler.Data.UnificationTable
import C0mpiler.Data.OptionFold
import Mathlib

/-!
# The type solver

`TypeSolver::eq` unifies two types of the table (`type_solver.rs`). A run that the analyser
rejects, by an error or a panic, is `none`, and so is one that does not end: the fuel bounds the
depth of the recursion.

A reference type stays one when types are unified. Only its mutability may change, and only while
it is weak (`solveEq_keepsRefs`).
-/

namespace Semantics

instance : Inhabited ResolvedTy := ⟨⟨none, .placeholder⟩⟩

/-- The table of the solver. -/
abbrev TypeUt := UnificationTable ResolvedTy

/-- The type behind a key in the solver's table. -/
def TypeUt.probeType (ut : TypeUt) (i : TypeIntern) : Option ResolvedTy :=
  TypeTable.probeType ut.probeValue i

namespace TypeIntern

/-- `TypeIntern::select`: the never type gives way to the other one. -/
def select : TypeIntern → TypeIntern → TypeIntern
  | .never, .never => .never
  | .never, .other k => .other k
  | .other k, _ => .other k

/-- The key, where there is one. -/
def toKey : TypeIntern → Option TypeKey
  | .never => none
  | .other k => some k

end TypeIntern

namespace ResolvedTy

/-- Nothing is known of the type yet. -/
def isAnyType (ty : ResolvedTy) : Bool := ty.kind == .any .any

def isInteger (ty : ResolvedTy) : Bool :=
  match ty.kind with
  | .builtIn .i32 | .builtIn .isize | .builtIn .u32 | .builtIn .usize => true
  | .any .anyInt | .any .anySignedInt => true
  | _ => false

def isBoolType (ty : ResolvedTy) : Bool := ty.kind == .builtIn .bool

def isStringType (ty : ResolvedTy) : Bool := ty.names == some (["String"], none)

def refType (inner : TypeIntern) (mutbl : RefMutability) : ResolvedTy := ⟨none, .ref inner mutbl⟩

def anyType : ResolvedTy := ⟨none, .any .any⟩

def anyIntType : ResolvedTy := ⟨none, .any .anyInt⟩

def tupType (items : List TypeIntern) : ResolvedTy := ⟨none, .tup items⟩

def arrayType (elem : TypeIntern) (len : Option Nat) : ResolvedTy := ⟨none, .array elem len⟩

/-- Only structs, enums, traits and built-in types have names. -/
def Nominal (ty : ResolvedTy) : Prop :=
  ty.names.isSome → match ty.kind with
    | .placeholder | .builtIn _ | .tup _ | .enum | .trait => True
    | _ => False

/-- A type without a name satisfies `Nominal`. -/
theorem nominal_of_names {ty : ResolvedTy} (h : ty.names = none) : ty.Nominal := by
  intro hsome
  rw [h] at hsome
  cases hsome

end ResolvedTy

/-- `RefMutability::eq`. -/
def RefMutability.eq : RefMutability → RefMutability → Option RefMutability
  | .weakMut, .weakMut => some .weakMut
  | .not, .not | .not, .weakMut | .weakMut, .not => some .not
  | .not, .mut | .mut, .not => none
  | .mut, .mut | .mut, .weakMut | .weakMut, .mut => some .mut

/-- What a literal's type variable may be cast to. -/
def AnyTyKind.canCastTo (kind : AnyTyKind) (target : ResolvedTyKind) : Bool :=
  match kind, target with
  | .any, _ => true
  | .anyInt, .builtIn .i32 | .anyInt, .builtIn .isize | .anyInt, .any .anySignedInt => true
  | .anySignedInt, .builtIn .i32 | .anySignedInt, .builtIn .isize
  | .anySignedInt, .any .anySignedInt => true
  | .anyInt, .builtIn .u32 | .anyInt, .builtIn .usize | .anyInt, .any .anyInt => true
  | _, _ => false

/-- Two array lengths: an unknown one takes the other. -/
def unifyLen : Option Nat → Option Nat → Option (Option Nat)
  | none, none => some none
  | none, some l | some l, none => some (some l)
  | some l₁, some l₂ => if l₁ = l₂ then some (some l₁) else none

/-- `unify_values`. -/
def unifyValues (value1 value2 : ResolvedTy) : Option ResolvedTy :=
  if value2.names.isSome then some value2
  else if value1.names.isSome then some value1
  else
    match value1.kind, value2.kind with
    | _, .any .any => some value1
    | .any .any, _ => some value2
    | .builtIn b₁, .builtIn b₂ => if b₁ = b₂ then some value1 else none
    | .ref t₁ m₁, .ref t₂ m₂ => (m₁.eq m₂).map fun m => ⟨none, .ref (t₁.select t₂) m⟩
    | .tup t₁, .tup t₂ =>
      if t₁.length = t₂.length then some ⟨none, .tup (List.zipWith TypeIntern.select t₁ t₂)⟩ else none
    | .array t₁ l₁, .array t₂ l₂ => (unifyLen l₁ l₂).map fun l => ⟨none, .array (t₁.select t₂) l⟩
    | .fn r₁ a₁, .fn r₂ a₂ =>
      some ⟨none, .fn (r₁.select r₂) (List.zipWith TypeIntern.select a₁ a₂)⟩
    | l, .any kind => if kind.canCastTo l then some value1 else none
    | .any kind, r => if kind.canCastTo r then some value2 else none
    | _, _ => none

/-! ## Solving -/

/-- `eq_inner`: the components of two types that have been unified. -/
def eqInner (eq : TypeUt → TypeIntern → TypeIntern → Option TypeUt) (ut : TypeUt)
    (leftTy rightTy : ResolvedTy) : Option TypeUt :=
  if leftTy.names ≠ rightTy.names then
    if leftTy.isAnyType || rightTy.isAnyType then some ut else none
  else
    match leftTy.kind, rightTy.kind with
    | .ref t₁ _, .ref t₂ _ => eq ut t₁ t₂
    | .tup t₁, .tup t₂ => (t₁.zip t₂).foldlM (fun ut p => eq ut p.1 p.2) ut
    | .array t₁ _, .array t₂ _ => eq ut t₁ t₂
    | .fn r₁ a₁, .fn r₂ a₂ => do
      let ut ← eq ut r₁ r₂
      (a₁.zip a₂).foldlM (fun ut p => eq ut p.1 p.2) ut
    | _, _ => some ut

/-- The two types that `eq` compares: `Self` stands for the type it is bound to. `some none` when
they are in one class already. -/
def implicitSelfTypes (ut : TypeUt) (left right : TypeKey) :
    Option (Option (ResolvedTy × ResolvedTy)) :=
  match (ut.probeValue left).kind, (ut.probeValue right).kind with
  | .implicitSelf l, .implicitSelf r => do
    let l ← l.toKey
    let r ← r.toKey
    if ut.unioned l r then some none else some (some (ut.probeValue l, ut.probeValue r))
  | .implicitSelf l, _ => do
    let l ← l.toKey
    if ut.unioned l right then some none else some (some (ut.probeValue l, ut.probeValue right))
  | _, .implicitSelf r => do
    let r ← r.toKey
    if ut.unioned left r then some none else some (some (ut.probeValue left, ut.probeValue r))
  | _, _ => some (some (ut.probeValue left, ut.probeValue right))

/-- A shared reference is expected and a mutable one is given. -/
def downgrades (leftTy rightTy : ResolvedTy) : Option (TypeIntern × TypeIntern) :=
  if leftTy.names.isNone && rightTy.names.isNone then
    match leftTy.kind, rightTy.kind with
    | .ref inner₁ .not, .ref inner₂ .mut => some (inner₁, inner₂)
    | _, _ => none
  else none

/-- `TypeSolver::eq`. -/
def solveEq : Nat → Bool → TypeUt → TypeIntern → TypeIntern → Option TypeUt
  | 0, _, _, _, _ => none
  | fuel + 1, downgrade, ut, .other left, .other right =>
    if ut.unioned left right then some ut
    else do
      match ← implicitSelfTypes ut left right with
      | none => some ut
      | some (leftTy, rightTy) =>
        match if downgrade then downgrades leftTy rightTy else none with
        | some (inner₁, inner₂) => solveEq fuel false ut inner₁ inner₂
        | none => do
          let ut ← ut.unifyVarVar unifyValues left right
          eqInner (solveEq fuel false) ut leftTy rightTy
  | _ + 1, _, ut, _, _ => some ut

/-- `eq_with_type`. -/
def solveEqWithType (fuel : Nat) (ut : TypeUt) (left : TypeIntern) (rightTy : ResolvedTy) :
    Option TypeUt :=
  match left with
  | .never => some ut
  | .other left => do
    let leftTy := ut.probeValue left
    let ut ← ut.unifyVarValue unifyValues left rightTy
    eqInner (solveEq fuel false) ut leftTy rightTy

/-! ## What solving keeps -/

/-- Only a weak mutability changes. -/
def RefMutability.Becomes (m m' : RefMutability) : Prop := m = .weakMut ∨ m' = m

theorem RefMutability.Becomes.refl (m : RefMutability) : m.Becomes m := Or.inr rfl

theorem RefMutability.Becomes.trans {m m' m'' : RefMutability} (h : m.Becomes m')
    (h' : m'.Becomes m'') : m.Becomes m'' := by
  rcases h with h | rfl
  · exact Or.inl h
  · exact h'

/-- `RefMutability::eq` only ever fixes a weak `mut`. -/
theorem RefMutability.becomes_eq {m₁ m₂ m : RefMutability} (h : m₁.eq m₂ = some m) :
    m₁.Becomes m ∧ m₂.Becomes m := by
  cases m₁ <;> cases m₂ <;> cases h <;> simp [Becomes]

/-- A reference stays a reference. -/
def KeepsRef (v w : ResolvedTy) : Prop :=
  ∀ t m, v = .refType t m → ∃ t' m', w = .refType t' m' ∧ m.Becomes m'

theorem KeepsRef.refl (v : ResolvedTy) : KeepsRef v v := fun t m h => ⟨t, m, h, .refl m⟩

theorem KeepsRef.trans {u v w : ResolvedTy} (h : KeepsRef u v) (h' : KeepsRef v w) : KeepsRef u w := by
  intro t m heq
  obtain ⟨t', m', heq', hm⟩ := h t m heq
  obtain ⟨t'', m'', heq'', hm'⟩ := h' t' m' heq'
  exact ⟨t'', m'', heq'', hm.trans hm'⟩

/-- Two values have the same name or none, or one of them is not known. -/
def NamesAgree (v w : ResolvedTy) : Prop := v.names = w.names ∨ v.isAnyType ∨ w.isAnyType

/-- `Self` in a trait, with the type it stands for. -/
def IsImplicitSelf (v : ResolvedTy) : Prop := ∃ i, v.kind = .implicitSelf i

/-- A unified type is still well named. -/
theorem unifyValues_nominal (v w u : ResolvedTy) (hv : v.Nominal) (hw : w.Nominal)
    (h : unifyValues v w = some u) : u.Nominal := by
  unfold unifyValues at h
  split at h
  · cases h
    exact hw
  · split at h
    · cases h
      exact hv
    · have hnone : u.names = none := by
        have hv' : v.names = none := by simpa using ‹¬ v.names.isSome = true›
        have hw' : w.names = none := by simpa using ‹¬ w.names.isSome = true›
        split at h
        all_goals first
          | (cases h; assumption)
          | (split at h <;> cases h <;> first | assumption | rfl)
          | (obtain ⟨m, -, rfl⟩ := Option.map_eq_some_iff.mp h; rfl)
          | (cases h; rfl)
          | cases h
      intro hsome
      rw [hnone] at hsome
      cases hsome

/-- Unifying with a named type fails at the names, so a reference is only unified with a reference
or with a type that is not known. -/
theorem unifyValues_keepsRef {v w u leftTy rightTy : ResolvedTy} (h : unifyValues v w = some u)
    (hv : v.Nominal) (hw : w.Nominal) (hleft : ¬ IsImplicitSelf v → leftTy = v)
    (hright : ¬ IsImplicitSelf w → rightTy = w) (hnames : NamesAgree leftTy rightTy) :
    KeepsRef v u ∧ KeepsRef w u := by
  -- a named type is no `Self`, and its names agree only with the same names
  have hnamed : ∀ (x : ResolvedTy) (t : TypeIntern) (m : RefMutability), x.Nominal →
      x.names.isSome → ¬ IsImplicitSelf x ∧ ¬ NamesAgree (.refType t m) x ∧
        ¬ NamesAgree x (.refType t m) := by
    intro x t m hx hsome
    have hkind := hx hsome
    have hany : x.isAnyType = false := by
      unfold ResolvedTy.isAnyType
      split at hkind <;> simp_all
    have hne : x.names ≠ none := Option.isSome_iff_ne_none.mp hsome
    refine ⟨?_, ?_, ?_⟩
    · rintro ⟨i, hi⟩
      rw [hi] at hkind
      exact hkind
    · rintro (heq | hl | hr)
      · exact hne heq.symm
      · cases hl
      · rw [hany] at hr
        cases hr
    · rintro (heq | hl | hr)
      · exact hne heq
      · rw [hany] at hl
        cases hl
      · cases hr
  constructor
  -- the left type is a reference: the other side is a reference too, or is named and refused
  · rintro t m rfl
    rw [hleft (by rintro ⟨i, hi⟩; cases hi)] at hnames
    unfold unifyValues at h
    split at h
    · next hsome =>
      obtain ⟨hself, hno, -⟩ := hnamed w t m hw hsome
      rw [hright hself] at hnames
      exact absurd hnames hno
    · obtain ⟨names, kind⟩ := w
      simp only [ResolvedTy.refType, Option.isSome_none, Bool.false_eq_true, if_false] at h
      cases kind with
      | ref t₂ m₂ =>
        obtain ⟨m', hm', rfl⟩ := Option.map_eq_some_iff.mp h
        exact ⟨_, m', rfl, (RefMutability.becomes_eq hm').1⟩
      | any kind =>
        cases kind <;> cases h
        exact ⟨t, m, rfl, .refl m⟩
      | _ => cases h
  -- the same with the sides exchanged
  · rintro t m rfl
    rw [hright (by rintro ⟨i, hi⟩; cases hi)] at hnames
    unfold unifyValues at h
    simp only [ResolvedTy.refType, Option.isSome_none, Bool.false_eq_true, if_false] at h
    split at h
    · next hsome =>
      obtain ⟨hself, -, hno⟩ := hnamed v t m hv hsome
      rw [hleft hself] at hnames
      exact absurd hnames hno
    · obtain ⟨names, kind⟩ := v
      cases kind with
      | ref t₁ m₁ =>
        obtain ⟨m', hm', rfl⟩ := Option.map_eq_some_iff.mp h
        exact ⟨_, m', rfl, (RefMutability.becomes_eq hm').2⟩
      | any kind =>
        cases kind <;> cases h
        exact ⟨t, m, rfl, .refl m⟩
      | _ => cases h

/-! ## Solving keeps the references -/

/-- What a step of the analyser does to the table: references stay, and names stay where they may
be. -/
structure Extends (ut ut' : TypeUt) : Prop where
  refs : ut.Along KeepsRef ut'
  nominal : (∀ k, (ut.probeValue k).Nominal) → ∀ k, (ut'.probeValue k).Nominal

theorem Extends.refl (ut : TypeUt) : Extends ut ut := ⟨.refl .refl ut, fun h => h⟩

theorem Extends.trans {ut ut' ut'' : TypeUt} (h : Extends ut ut') (h' : Extends ut' ut'') :
    Extends ut ut'' :=
  ⟨h.refs.trans (fun _ _ _ => .trans) h'.refs, fun hut => h'.nominal (h.nominal hut)⟩

/-- Every type of the table is well named. -/
def NominalTable (ut : TypeUt) : Prop := ∀ k, (ut.probeValue k).Nominal

/-- A new key changes no old one. -/
theorem newKey_extends {ut : TypeUt} {ty : ResolvedTy} (hty : ty.Nominal) :
    Extends ut (ut.newKey ty).2 where
  refs := UnificationTable.newKey_along .refl fun t m h => by cases h
  nominal h := UnificationTable.newKey_forall h hty

section

variable {eq : TypeUt → TypeIntern → TypeIntern → Option TypeUt} {ut ut' : TypeUt}

/-- A list of calls, each on the table of the one before. -/
theorem foldlM_extends
    (heq : ∀ ut l r ut', NominalTable ut → eq ut l r = some ut' → Extends ut ut')
    {l : List (TypeIntern × TypeIntern)} (hut : NominalTable ut)
    (hrun : l.foldlM (fun ut p => eq ut p.1 p.2) ut = some ut') : Extends ut ut' := by
  induction l generalizing ut with
  | nil =>
    cases hrun
    exact .refl _
  | cons p l ih =>
    obtain ⟨ut₁, hstep, hrest⟩ := OptionFold.cons_eq_some.mp hrun
    have hfirst := heq _ _ _ _ hut hstep
    exact hfirst.trans (ih (hfirst.nominal hut) hrest)

/-- `eq_inner` only extends the table, when the calls on components do. -/
theorem eqInner_extends
    (heq : ∀ ut l r ut', NominalTable ut → eq ut l r = some ut' → Extends ut ut')
    {leftTy rightTy : ResolvedTy} (hut : NominalTable ut)
    (hrun : eqInner eq ut leftTy rightTy = some ut') : Extends ut ut' := by
  unfold eqInner at hrun
  split at hrun
  · split at hrun
    · cases hrun
      exact .refl ut
    · cases hrun
  · split at hrun
    · exact heq _ _ _ _ hut hrun
    · exact foldlM_extends heq hut hrun
    · exact heq _ _ _ _ hut hrun
    · obtain ⟨ut₁, hret, hargs⟩ := Option.bind_eq_some_iff.mp hrun
      have hfirst := heq _ _ _ _ hut hret
      exact hfirst.trans (foldlM_extends heq (hfirst.nominal hut) hargs)
    · cases hrun
      exact .refl ut

/-- `eq_inner` succeeds only on names that agree. -/
theorem eqInner_names {leftTy rightTy : ResolvedTy}
    (hrun : eqInner eq ut leftTy rightTy = some ut') : NamesAgree leftTy rightTy := by
  unfold eqInner at hrun
  split at hrun
  · split at hrun
    · next hany => exact Or.inr (by simpa using hany)
    · cases hrun
  · next hnames => exact Or.inl (not_not.mp hnames)

/-- A type that is not `Self` is read as it stands. -/
theorem implicitSelfTypes_spec {left right : TypeKey} {leftTy rightTy : ResolvedTy}
    (h : implicitSelfTypes ut left right = some (some (leftTy, rightTy))) :
    (¬ IsImplicitSelf (ut.probeValue left) → leftTy = ut.probeValue left) ∧
      (¬ IsImplicitSelf (ut.probeValue right) → rightTy = ut.probeValue right) := by
  unfold implicitSelfTypes at h
  split at h
  · next l r hl hr =>
    exact ⟨fun hn => absurd ⟨l, hl⟩ hn, fun hn => absurd ⟨r, hr⟩ hn⟩
  · next l hl hr =>
    refine ⟨fun hn => absurd ⟨l, hl⟩ hn, fun _ => ?_⟩
    obtain ⟨k, -, h⟩ := Option.bind_eq_some_iff.mp h
    split at h <;> cases h
    rfl
  · next r hr hl =>
    refine ⟨fun _ => ?_, fun hn => absurd ⟨r, hr⟩ hn⟩
    obtain ⟨k, -, h⟩ := Option.bind_eq_some_iff.mp h
    split at h <;> cases h
    rfl
  · cases h
    exact ⟨fun _ => rfl, fun _ => rfl⟩

end

/-- Solving keeps the references. -/
theorem solveEq_extends {fuel : Nat} {downgrade : Bool} {ut ut' : TypeUt} {left right : TypeIntern}
    (hut : NominalTable ut) (hrun : solveEq fuel downgrade ut left right = some ut') :
    Extends ut ut' := by
  induction fuel generalizing downgrade ut ut' left right with
  | zero => cases hrun
  | succ fuel ih =>
    cases left with
    | never =>
      cases hrun
      exact .refl ut
    | other left =>
      cases right with
      | never =>
        cases hrun
        exact .refl ut
      | other right =>
        unfold solveEq at hrun
        split at hrun
        · cases hrun
          exact .refl ut
        -- the types are compared: the merge extends the table, then the components do
        · obtain ⟨types, htypes, hrun⟩ := Option.bind_eq_some_iff.mp hrun
          split at hrun
          · cases hrun
            exact .refl ut
          · next leftTy rightTy =>
            obtain ⟨hleft, hright⟩ := implicitSelfTypes_spec htypes
            split at hrun
            · exact ih hut hrun
            · obtain ⟨ut₁, hunify, hinner⟩ := Option.bind_eq_some_iff.mp hrun
              have hfirst : Extends ut ut₁ :=
                ⟨UnificationTable.unifyVarVar_along .refl (fun v hv =>
                    unifyValues_keepsRef hv (hut left) (hut right) hleft hright
                      (eqInner_names hinner)) hunify,
                  fun h => UnificationTable.unifyVarVar_forall h unifyValues_nominal hunify⟩
              exact hfirst.trans
                (eqInner_extends (fun _ _ _ _ h => ih h) (hfirst.nominal hut) hinner)

/-- `eq_with_type` extends the table. -/
theorem solveEqWithType_extends {fuel : Nat} {ut ut' : TypeUt} {left : TypeIntern}
    {rightTy : ResolvedTy} (hut : NominalTable ut) (hty : rightTy.Nominal)
    (hrun : solveEqWithType fuel ut left rightTy = some ut') :
    Extends ut ut' := by
  unfold solveEqWithType at hrun
  split at hrun
  · cases hrun
    exact .refl ut
  · next left =>
    obtain ⟨ut₁, hunify, hinner⟩ := Option.bind_eq_some_iff.mp hrun
    have hfirst : Extends ut ut₁ :=
      ⟨UnificationTable.unifyVarValue_along .refl (fun v hv =>
          (unifyValues_keepsRef hv (hut left) hty (fun _ => rfl) (fun _ => rfl)
            (eqInner_names hinner)).1) hunify,
        fun h => UnificationTable.unifyVarValue_forall h hty unifyValues_nominal hunify⟩
    exact hfirst.trans
      (eqInner_extends (fun _ _ _ _ h => solveEq_extends h) (hfirst.nominal hut) hinner)

end Semantics
