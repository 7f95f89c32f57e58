import C0mpiler.Lexer.IntegerToken
import C0mpiler.Semantics.TypeSolver
import Mathlib

/-!
# Integer literals in the analyser

`visit_lit_expr` of the analyser and of the evaluator of constants, for integers. The check of the
range looks at the type that is known when the literal is visited, and `allow_i32_max` comes down to
it from the expressions around it. The evaluator of constants also computes the minus in front of a
literal.
-/

namespace Semantics

open Lex

/-- The expressions around a literal, as `visit_expr` tells them apart. -/
inductive LitFrame where
  | deref | not | neg | block | other
  deriving DecidableEq, Repr

/-- Who looks at the literal. -/
inductive LitVisitor where
  | analyzer | constEvaler
  deriving DecidableEq, Repr

/-- `typeError` is also a run of the solver that panics; `unwrapped` is the panic on the never
type and `negOverflow` that of a build with overflow checks on a negation. -/
inductive LitError where
  | unknownSuffix | typeError | overflow | unwrapped | negOverflow
  deriving DecidableEq, Repr

/-! ## `allow_i32_max` -/

/-- Whether `visit_expr` hands `allow_i32_max` on to an expression. -/
def LitFrame.keepsFlag : LitVisitor → LitFrame → Bool
  | _, .deref | _, .not | _, .neg => true
  | .analyzer, .block => true
  | .constEvaler, .block => false
  | _, .other => false

/-- What an expression with the flag `allow` hands on to the expression in it. -/
def LitFrame.innerFlag (visitor : LitVisitor) (allow : Bool) (frame : LitFrame) : Bool :=
  let allow := frame.keepsFlag visitor && allow
  if frame = .neg then !allow else allow

/-- The flag of a literal, from the outermost of the expressions around it. -/
def allowI32Max (visitor : LitVisitor) (path : List LitFrame) : Bool :=
  path.foldl (LitFrame.innerFlag visitor) false

/-! ## The visit -/

/-- The suffixes that name an integer type. -/
def suffixKind (suffix : List Char) : Option BuiltInTyKind :=
  match String.ofList suffix with
  | "i32" => some .i32
  | "isize" => some .isize
  | "u32" => some .u32
  | "usize" => some .usize
  | _ => none

/-- Signed types; a type variable of integers is none of them. -/
def ResolvedTy.isSigned (ty : ResolvedTy) : Bool :=
  ty.kind == .builtIn .i32 || ty.kind == .builtIn .isize

/-- The type of a literal on its own: that of its suffix, or some integer type. -/
def restrictTy (builtIns : BuiltInTyKind → TypeKey) (ut : TypeUt) :
    Option (List Char) → Option (TypeKey × TypeUt)
  | some suffix => (suffixKind suffix).map fun b => (builtIns b, ut)
  | none => some (ut.newKey .anyIntType)

/-- `visit_lit_expr`, for an integer. -/
def visitLitExpr (visitor : LitVisitor) (builtIns : BuiltInTyKind → TypeKey) (fuel : Nat)
    (ut : TypeUt) (target : TypeIntern) (allow : Bool) (symbol : List Char)
    (suffix : Option (List Char)) : Except LitError (TypeUt × Nat) :=
  match restrictTy builtIns ut suffix with
  | none => .error .unknownSuffix
  | some (restrict, ut) =>
    match solveEq fuel false ut target (.other restrict) with
    | none => .error .typeError
    | some ut =>
      match parseU32 symbol with
      | none => .error .overflow
      | some value =>
        -- the evaluator of constants probes the literal's own type
        let probed := match visitor with
          | .analyzer => target
          | .constEvaler => .other restrict
        match ut.probeType probed with
        | none => .error .unwrapped
        | some probe =>
          if probe.isSigned && (value > 2147483648 || (value == 2147483648 && !allow)) then
            .error .overflow
          else
            match visitor with
            | .analyzer => .ok (ut, value)
            | .constEvaler =>
              match solveEq fuel false ut target (.other restrict) with
              | none => .error .typeError
              | some ut => .ok (ut, value)

/-- `(-(*i as i32)) as u32`, the minus of the evaluator of constants. -/
def constNeg (checks : Bool) (i : Nat) : Option Nat :=
  if checks && i == 2147483648 then none else some ((2 ^ 32 - i) % 2 ^ 32)

/-! ## The literal's type -/

/-- The table as later steps of the analyser leave it. -/
inductive SolverRun : TypeUt → TypeUt → Prop
  | refl (ut : TypeUt) : SolverRun ut ut
  | newType {ut ut' : TypeUt} (ty : ResolvedTy) (hrest : SolverRun (ut.newKey ty).2 ut') :
      SolverRun ut ut'
  | eq {ut ut₁ ut' : TypeUt} (fuel : Nat) (downgrade : Bool) (left right : TypeIntern)
      (hstep : solveEq fuel downgrade ut left right = some ut₁) (hrest : SolverRun ut₁ ut') :
      SolverRun ut ut'
  | eqWithType {ut ut₁ ut' : TypeUt} (fuel : Nat) (left : TypeIntern) (rightTy : ResolvedTy)
      (hstep : solveEqWithType fuel ut left rightTy = some ut₁) (hrest : SolverRun ut₁ ut') :
      SolverRun ut ut'

/-- An integer literal and the state in which it is visited. -/
structure LitOccurrence where
  lexeme : List Char
  visitor : LitVisitor
  path : List LitFrame
  builtIns : BuiltInTyKind → TypeKey
  fuel : Nat
  /-- The compiler is built with overflow checks. -/
  checks : Bool
  ut : TypeUt
  target : TypeIntern
  probe_builtIns : ∀ b, ut.probeValue (builtIns b) = ⟨none, .builtIn b⟩
  nominal : NominalTable ut
  /-- `Self` is only bound to traits. -/
  selfTraits : ∀ k i, (ut.probeValue k).kind = .implicitSelf i →
    ∃ l, i = .other l ∧ (ut.probeValue l).kind = .trait

namespace LitOccurrence

variable (o : LitOccurrence)

/-- The digits of the literal. -/
def symbol : List Char := (parseNumberLiteral o.lexeme).1

/-- Its suffix. -/
def suffix : Option (List Char) := (parseNumberLiteral o.lexeme).2

/-- `allow_i32_max` where the visitor stands. -/
def allow : Bool := allowI32Max o.visitor o.path

/-- The visit of the literal. -/
def visit : Except LitError (TypeUt × Nat) :=
  visitLitExpr o.visitor o.builtIns o.fuel o.ut o.target o.allow o.symbol o.suffix

/-- The literal stands directly under a unary minus. -/
def Negated : Prop := o.path.getLast? = some .neg

instance : Decidable o.Negated := inferInstanceAs (Decidable (_ = _))

/-- The visit of the literal and of the minus that it stands directly under: the analyser does not
compute it (`visit_unary_expr`). -/
def visitNegated : Except LitError (TypeUt × Nat) :=
  match o.visit with
  | .error e => .error e
  | .ok (ut, value) =>
    if o.visitor = .constEvaler ∧ o.Negated then
      match constNeg o.checks value with
      | none => .error .negOverflow
      | some value => .ok (ut, value)
    else .ok (ut, value)

/-- The literal passes, together with the minus signs around it. -/
def Accepted : Prop := ∃ r, o.visitNegated = .ok r

/-- The table once the type of the literal is that of its place. -/
def typed : Option TypeUt :=
  match restrictTy o.builtIns o.ut o.suffix with
  | none => none
  | some (restrict, ut) => solveEq o.fuel false ut o.target (.other restrict)

/-- A run of the analyser in which the literal's type is signed in the end. -/
structure Inferred where
  start : TypeUt
  typed_eq : o.typed = some start
  final : TypeUt
  run : SolverRun start final
  ty : ResolvedTy
  probe_eq : final.probeType o.target = some ty
  signed : ty.isSigned = true

/-- The literal's value, negated if it stands directly under a minus, is one of an `i32`. -/
def InRange : Prop :=
  ∃ value : Nat, literalValue o.symbol = some value ∧
    let v : Int := if o.Negated then -value else value
    (-2 ^ 31 : Int) ≤ v ∧ v ≤ 2 ^ 31 - 1

/-- The type is known to be signed when the literal is visited. -/
def Known : Prop :=
  (∃ s b, o.suffix = some s ∧ suffixKind s = some b ∧ (b = .i32 ∨ b = .isize)) ∨
    ∃ ty, o.ut.probeType o.target = some ty ∧ ty.isSigned = true

/-- The negation of `2 ^ 31` overflows where the evaluator of constants computes it with checks. -/
def Overflows : Prop := o.visitor = .constEvaler ∧ o.checks = true ∧ o.Negated

/-- The literals that are judged right: all below `2 ^ 31` and from `2 ^ 32` on, those between if the
type is known, and `2 ^ 31` where the flag says of a known type what the place of the literal says and
the negation does not overflow. -/
def Judged : Prop :=
  ∀ value, literalValue o.symbol = some value → 2 ^ 31 ≤ value → value < 2 ^ 32 →
    if value = 2 ^ 31 then (o.Negated ↔ (o.Known → o.allow = true) ∧ ¬o.Overflows) else o.Known

end LitOccurrence

end Semantics
