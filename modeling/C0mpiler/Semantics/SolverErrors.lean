import C0mpiler.Semantics.TypeSolver
import Mathlib

/-!
# The type solver with its errors

`TypeSolver` once more (`type_solver.rs`), with the error of a call that fails and the table that it
leaves. The tables are updated before the components of two types are compared, so a call that fails
may leave a changed table.
-/

namespace Semantics

/-- `TypeSolveError`. -/
inductive TypeSolveError where
  | nameMismatch | builtInMismatch | mutabilityMismatch | structLengthMismatch
  | arrayLengthMismatch | anyTypeMismatch | generalTypeMismatch
  deriving DecidableEq, Repr

/-- How a call of the solver fails. -/
inductive SolveFailure where
  | err (e : TypeSolveError)
  | panic
  deriving DecidableEq, Repr

/-- What a call returns, and the table it leaves. -/
abbrev SolverResult := Except SolveFailure Unit × TypeUt

namespace TypeSolver

/-- `unify_values`. -/
def unifyValues (value1 value2 : ResolvedTy) : Except SolveFailure ResolvedTy :=
  if value2.names.isSome then .ok value2
  else if value1.names.isSome then .ok value1
  else
    match value1.kind, value2.kind with
    | _, .any .any => .ok value1
    | .any .any, _ => .ok value2
    | .builtIn b₁, .builtIn b₂ => if b₁ = b₂ then .ok value1 else .error (.err .builtInMismatch)
    | .ref t₁ m₁, .ref t₂ m₂ =>
      match m₁.eq m₂ with
      | some m => .ok ⟨none, .ref (t₁.select t₂) m⟩
      | none => .error (.err .mutabilityMismatch)
    | .tup t₁, .tup t₂ =>
      if t₁.length = t₂.length then .ok ⟨none, .tup (List.zipWith TypeIntern.select t₁ t₂)⟩
      else .error (.err .structLengthMismatch)
    | .enum, .enum | .trait, .trait => .error .panic
    | .array t₁ l₁, .array t₂ l₂ =>
      match unifyLen l₁ l₂ with
      | some l => .ok ⟨none, .array (t₁.select t₂) l⟩
      | none => .error (.err .arrayLengthMismatch)
    | .fn r₁ a₁, .fn r₂ a₂ => .ok ⟨none, .fn (r₁.select r₂) (List.zipWith TypeIntern.select a₁ a₂)⟩
    | l, .any kind => if kind.canCastTo l then .ok value1 else .error (.err .anyTypeMismatch)
    | .any kind, r => if kind.canCastTo r then .ok value2 else .error (.err .anyTypeMismatch)
    | _, _ => .error (.err .generalTypeMismatch)

/-- `unify_var_var`. -/
def unifyVarVar (ut : TypeUt) (a b : TypeKey) : Except SolveFailure TypeUt :=
  if h : a < ut.next ∧ b < ut.next then
    if ut.unioned a b then .ok ut
    else
      match unifyValues (ut.probeValue a) (ut.probeValue b) with
      | .ok v => .ok (ut.union a b h.1 h.2 v)
      | .error e => .error e
  else .error .panic

/-- `unify_var_value`. -/
def unifyVarValue (ut : TypeUt) (a : TypeKey) (v : ResolvedTy) : Except SolveFailure TypeUt :=
  if h : a < ut.next then
    match unifyValues (ut.probeValue a) v with
    | .ok w => .ok (ut.setValue a h w)
    | .error e => .error e
  else .error .panic

/-- The components that `eq_inner` compares. -/
def components : ResolvedTyKind → ResolvedTyKind → List (TypeIntern × TypeIntern)
  | .ref t₁ _, .ref t₂ _ => [(t₁, t₂)]
  | .tup t₁, .tup t₂ => t₁.zip t₂
  | .array t₁ _, .array t₂ _ => [(t₁, t₂)]
  | .fn r₁ a₁, .fn r₂ a₂ => (r₁, r₂) :: a₁.zip a₂
  | _, _ => []

/-- Compare pairs in their order, up to the first failure. -/
def eqAll (eq : TypeUt → TypeIntern → TypeIntern → Option SolverResult) :
    List (TypeIntern × TypeIntern) → TypeUt → Option SolverResult
  | [], ut => some (.ok (), ut)
  | p :: ps, ut =>
    match eq ut p.1 p.2 with
    | some (.ok (), ut) => eqAll eq ps ut
    | r => r

/-- `eq_inner` with the kinds of failure. -/
def eqInner (eq : TypeUt → TypeIntern → TypeIntern → Option SolverResult) (ut : TypeUt)
    (leftTy rightTy : ResolvedTy) : Option SolverResult :=
  if leftTy.names ≠ rightTy.names then
    if leftTy.isAnyType || rightTy.isAnyType then some (.ok (), ut)
    else some (.error (.err .nameMismatch), ut)
  else eqAll eq (components leftTy.kind rightTy.kind) ut

/-- `eq`. The fuel bounds the depth of the recursion. -/
def eq : Nat → Bool → TypeUt → TypeIntern → TypeIntern → Option SolverResult
  | 0, _, _, _, _ => none
  | fuel + 1, downgrade, ut, .other left, .other right =>
    if ut.unioned left right then some (.ok (), ut)
    else
      match implicitSelfTypes ut left right with
      | none => some (.error .panic, ut)
      | some none => some (.ok (), ut)
      | some (some (leftTy, rightTy)) =>
        match if downgrade then downgrades leftTy rightTy else none with
        | some (inner₁, inner₂) => eq fuel false ut inner₁ inner₂
        | none =>
          match unifyVarVar ut left right with
          | .error e => some (.error e, ut)
          | .ok ut => eqInner (eq fuel false) ut leftTy rightTy
  | _ + 1, _, ut, _, _ => some (.ok (), ut)

/-- `eq_with_type`. -/
def eqWithType (fuel : Nat) (ut : TypeUt) (left : TypeIntern) (rightTy : ResolvedTy) :
    Option SolverResult :=
  match left with
  | .never => some (.ok (), ut)
  | .other left =>
    match unifyVarValue ut left rightTy with
    | .error e => some (.error e, ut)
    | .ok ut' => eqInner (eq fuel false) ut' (ut.probeValue left) rightTy

/-! ## The model without errors -/

/-- Without the kinds of failure it is the function of the other model. -/
theorem unifyValues_toOption (v w : ResolvedTy) :
    (unifyValues v w).toOption = Semantics.unifyValues v w := by
  unfold unifyValues Semantics.unifyValues
  split
  · rfl
  · split
    · rfl
    · obtain ⟨vnames, vkind⟩ := v
      obtain ⟨wnames, wkind⟩ := w
      dsimp only
      cases wkind with
      | any kind₂ =>
        cases kind₂ with
        | any => rfl
        | anyInt | anySignedInt =>
          cases vkind with
          | any kind₁ => cases kind₁ <;> rfl
          | _ => dsimp only; split <;> rfl
      | _ =>
        cases vkind with
        | any kind₁ =>
          cases kind₁ with
          | any => rfl
          | anyInt | anySignedInt => dsimp only; split <;> rfl
        | builtIn => first | rfl | (dsimp only; split <;> rfl)
        | tup => first | rfl | (dsimp only; split <;> rfl)
        | ref t₁ m₁ => first | rfl | (dsimp only; cases m₁.eq _ <;> rfl)
        | array t₁ l₁ => first | rfl | (dsimp only; cases unifyLen l₁ _ <;> rfl)
        | _ => rfl

/-- The table of a call that succeeds. -/
def okTable : Option SolverResult → Option TypeUt
  | some (.ok (), ut) => some ut
  | _ => none

/-- Merging two classes, without the kinds of failure. -/
theorem unifyVarVar_toOption (ut : TypeUt) (a b : TypeKey) :
    (unifyVarVar ut a b).toOption = ut.unifyVarVar Semantics.unifyValues a b := by
  unfold unifyVarVar UnificationTable.unifyVarVar
  split
  · split
    · rfl
    · rw [← unifyValues_toOption]
      cases unifyValues (ut.probeValue a) (ut.probeValue b) <;> rfl
  · rfl

section

variable {f : TypeUt → TypeIntern → TypeIntern → Option SolverResult}
  {g : TypeUt → TypeIntern → TypeIntern → Option TypeUt}

/-- A list of calls. -/
theorem okTable_eqAll (hfg : ∀ ut l r, okTable (f ut l r) = g ut l r)
    (ps : List (TypeIntern × TypeIntern)) (ut : TypeUt) :
    okTable (eqAll f ps ut) = ps.foldlM (fun ut p => g ut p.1 p.2) ut := by
  induction ps generalizing ut with
  | nil => rfl
  | cons p ps ih =>
    rw [List.foldlM_cons, ← hfg, eqAll]
    cases hf : f ut p.1 p.2 with
    | none => rfl
    | some res =>
      obtain ⟨r, ut'⟩ := res
      cases r with
      | ok u => exact ih ut'
      | error e => rfl

/-- The comparison of two types. -/
theorem okTable_eqInner (hfg : ∀ ut l r, okTable (f ut l r) = g ut l r) (ut : TypeUt)
    (leftTy rightTy : ResolvedTy) :
    okTable (eqInner f ut leftTy rightTy) = Semantics.eqInner g ut leftTy rightTy := by
  unfold eqInner Semantics.eqInner
  split
  · split <;> rfl
  · rw [okTable_eqAll hfg]
    obtain ⟨lnames, lkind⟩ := leftTy
    obtain ⟨rnames, rkind⟩ := rightTy
    cases lkind <;> cases rkind <;> first
      | rfl
      | simp [components]

end

/-- The two models of the solver agree: with the kinds of failure forgotten, `eq` is `solveEq` at every
depth of the stack. -/
theorem okTable_eq (fuel : Nat) (downgrade : Bool) (ut : TypeUt) (left right : TypeIntern) :
    okTable (eq fuel downgrade ut left right) = solveEq fuel downgrade ut left right := by
  induction fuel generalizing downgrade ut left right with
  | zero => rfl
  | succ fuel ih =>
    cases left with
    | never => rfl
    | other left =>
      cases right with
      | never => rfl
      | other right =>
        rw [eq, solveEq]
        split
        · rfl
        -- past the settled pairs the two models do the same: a downgrade, or the merge and the
        -- components
        · cases htypes : implicitSelfTypes ut left right with
          | none => rfl
          | some types =>
            cases types with
            | none => rfl
            | some types =>
              obtain ⟨leftTy, rightTy⟩ := types
              dsimp only [Option.bind_eq_bind, Option.bind_some]
              cases if downgrade = true then downgrades leftTy rightTy else none with
              | some inner => exact ih false ut inner.1 inner.2
              | none =>
                dsimp only
                rw [← unifyVarVar_toOption]
                cases unifyVarVar ut left right with
                | error e => rfl
                | ok ut' => exact okTable_eqInner (ih false) ut' leftTy rightTy

end TypeSolver

end Semantics
