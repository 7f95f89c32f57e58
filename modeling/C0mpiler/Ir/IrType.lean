import Mathlib

/-!
# IR types

The type of a value (`ir_type.rs`). A struct type is compared by its body only, as
`StructType::eq` does, so its name is left out. `structForward` is a struct that has been
declared but not given a body.
-/

namespace Ir

/-- The types. `structForward` is a named struct whose body has not been set. -/
inductive Ty where
  | int (bits : Nat)
  | function (returnType : Ty) (paramTypes : List Ty)
  | ptr
  | structForward
  | struct (fields : List Ty) (packed : Bool)
  | array (elem : Ty) (len : Nat)
  | void
  | label
  deriving Repr, Inhabited

namespace Ty

mutual
/-- Types are compared by their structure. -/
def beq : Ty → Ty → Bool
  | .int a, .int b => a == b
  | .function r ps, .function r' ps' => beq r r' && beqList ps ps'
  | .ptr, .ptr => true
  | .structForward, .structForward => true
  | .struct fs p, .struct fs' p' => beqList fs fs' && p == p'
  | .array e n, .array e' n' => beq e e' && n == n'
  | .void, .void => true
  | .label, .label => true
  | _, _ => false

/-- Compare two lists of types one by one. -/
def beqList : List Ty → List Ty → Bool
  | [], [] => true
  | t :: ts, t' :: ts' => beq t t' && beqList ts ts'
  | _, _ => false
end

mutual
/-- Types that compare as equal are equal. -/
theorem eq_of_beq : ∀ {a b : Ty}, beq a b = true → a = b
  | .int _, b, h => by cases b <;> simp_all [beq]
  | .function _ _, b, h => by
      cases b <;> simp only [beq, Bool.and_eq_true, reduceCtorEq] at h
      rw [eq_of_beq h.1, eq_of_beqList h.2]
  | .ptr, b, h => by cases b <;> simp_all [beq]
  | .structForward, b, h => by cases b <;> simp_all [beq]
  | .struct _ _, b, h => by
      cases b <;> simp only [beq, Bool.and_eq_true, beq_iff_eq, reduceCtorEq] at h
      rw [eq_of_beqList h.1, h.2]
  | .array _ _, b, h => by
      cases b <;> simp only [beq, Bool.and_eq_true, beq_iff_eq, reduceCtorEq] at h
      rw [eq_of_beq h.1, h.2]
  | .void, b, h => by cases b <;> simp_all [beq]
  | .label, b, h => by cases b <;> simp_all [beq]

/-- Lists of types that compare as equal are equal. -/
theorem eq_of_beqList : ∀ {a b : List Ty}, beqList a b = true → a = b
  | [], b, h => by cases b <;> simp_all [beqList]
  | _ :: _, b, h => by
      cases b <;> simp only [beqList, Bool.and_eq_true, reduceCtorEq] at h
      rw [eq_of_beq h.1, eq_of_beqList h.2]
end

mutual
/-- A type is equal to itself. -/
theorem beq_refl : ∀ a : Ty, beq a a = true
  | .int _ | .ptr | .structForward | .void | .label => by simp [beq]
  | .function r ps => by simp [beq, beq_refl r, beqList_refl ps]
  | .struct fs _ => by simp [beq, beqList_refl fs]
  | .array e _ => by simp [beq, beq_refl e]

/-- A list of types is equal to itself. -/
theorem beqList_refl : ∀ a : List Ty, beqList a a = true
  | [] => by simp [beqList]
  | t :: ts => by simp [beqList, beq_refl t, beqList_refl ts]
end

instance : DecidableEq Ty := fun a b =>
  decidable_of_iff (beq a b = true) ⟨eq_of_beq, fun h => h ▸ beq_refl a⟩

/-- An integer type of some width. -/
def isInt : Ty → Bool
  | .int _ => true
  | _ => false

/-- `as_int`: the width of an integer type. -/
def asInt : Ty → Option Nat
  | .int bits => some bits
  | _ => none

/-- The type of what returns nothing. -/
def isVoid : Ty → Bool
  | .void => true
  | _ => false

end Ty

end Ir
