import Mathlib

/-!
# Resolved types

The types of the analyser (`resolved_ty.rs`, `impls.rs`). A type is a key of the unification
table or the never type, and `probe_type` reads the table. Only reading is modelled: a
`TypeTable` is the table at the moment the analyser probes it.
-/

namespace Semantics

/-- Whether a binding or a place may be assigned. -/
inductive Mutability where
  | not
  | mut
  deriving DecidableEq, Repr

/-- `BitAnd for Mutability`. -/
def Mutability.and : Mutability → Mutability → Mutability
  | .mut, .mut => .mut
  | _, _ => .not

/-- The kinds of reference: `weakMut` is the type of `&mut e` before the solver has settled it. -/
inductive RefMutability where
  | not
  | mut
  | weakMut
  deriving DecidableEq, Repr

/-- The mutability of what the reference points to; a weak one counts as mutable. -/
def RefMutability.toMutability : RefMutability → Mutability
  | .not => .not
  | .mut | .weakMut => .mut

/-- The built-in types. -/
inductive BuiltInTyKind where
  | bool | char | i32 | isize | u32 | usize | str
  deriving DecidableEq, Repr

/-- The type variables: of any type, of an integer type, of a signed integer type. -/
inductive AnyTyKind where
  | any | anyInt | anySignedInt
  deriving DecidableEq, Repr

/-- A key of the type table. -/
abbrev TypeKey := Nat

/-- A type in the table; the never type has no key. -/
inductive TypeIntern where
  | never
  | other (key : TypeKey)
  deriving DecidableEq, Repr

/-- The kinds of type, as `ResolvedTyKind`; an array length that is not known yet is `none`. -/
inductive ResolvedTyKind where
  | placeholder
  | builtIn (kind : BuiltInTyKind)
  | ref (inner : TypeIntern) (mutbl : RefMutability)
  | tup (items : List TypeIntern)
  | enum
  | trait
  | array (elem : TypeIntern) (len : Option Nat)
  | fn (ret : TypeIntern) (args : List TypeIntern)
  | any (kind : AnyTyKind)
  | implicitSelf (inner : TypeIntern)
  deriving DecidableEq, Repr

/-- A type: the path and the type arguments of a named one, and its kind. -/
structure ResolvedTy where
  names : Option (List String × Option (List String))
  kind : ResolvedTyKind
  deriving DecidableEq, Repr

/-- The values of the unification table. -/
abbrev TypeTable := TypeKey → ResolvedTy

/-- The type behind a key; the never type has none. -/
def TypeTable.probeType (ut : TypeTable) : TypeIntern → Option ResolvedTy
  | .never => none
  | .other key => some (ut key)

/-! ## Dereference levels -/

/-- How many references an access goes through, and how each of them was borrowed. -/
inductive DerefLevel where
  | not
  | deref (inner : DerefLevel) (mutbl : Mutability)
  deriving DecidableEq, Repr

namespace DerefLevel

/-- No reference was followed. -/
def isNot : DerefLevel → Bool
  | .not => true
  | .deref _ _ => false

/-- The number of references followed. -/
def depth : DerefLevel → Nat
  | .not => 0
  | .deref inner _ => inner.depth + 1

/-- The loop of `chain_mutbl`. -/
def chainLoop (mutbl : Mutability) : DerefLevel → Mutability
  | .not => mutbl
  | .deref inner m => chainLoop (mutbl.and m) inner

/-- The mutability of a place reached through a chain of references: the innermost object's own
where there is none. -/
def chainMutbl (rawKind : Mutability) : DerefLevel → Mutability
  | .not => rawKind
  | .deref inner m => inner.chainLoop m

/-- A chain without a reference. -/
theorem eq_not {level : DerefLevel} (h : level.depth = 0) : level = .not := by
  cases level with
  | not => rfl
  | deref => cases h

/-- The last reference of a chain. -/
theorem exists_deref {level : DerefLevel} {n : Nat} (h : level.depth = n + 1) :
    ∃ inner mutbl, level = .deref inner mutbl ∧ inner.depth = n := by
  cases level with
  | not => cases h
  | deref inner mutbl => exact ⟨inner, mutbl, rfl, Nat.succ.inj h⟩

end DerefLevel

/-! ## Automatic dereference -/

section

variable {ε T : Type} (ut : TypeTable) (u32Type : TypeIntern)
  (func : TypeIntern → Except ε (Option T))

/-- `auto_deref`. The loop follows the references of a type; the fuel bounds its turns. -/
def autoDerefLoop : Nat → Option TypeIntern → DerefLevel →
    Option (Except ε (Option (DerefLevel × TypeIntern × T)))
  | _, none, _ => some (.ok none)
  | 0, some _, _ => none
  | fuel + 1, some i, level =>
    match func i with
    | .error e => some (.error e)
    | .ok (some t) => some (.ok (some (level, i, t)))
    | .ok none =>
      match ut.probeType i with
      | none => some (.ok none)
      | some probe =>
        match probe.kind with
        | .ref inner refMutbl =>
          autoDerefLoop fuel (some inner) (.deref level refMutbl.toMutability)
        | .any .anyInt => autoDerefLoop fuel (some u32Type) level
        | _ => autoDerefLoop fuel none level

/-- `auto_deref` from the type itself. -/
def autoDeref (fuel : Nat) (intern : TypeIntern) :
    Option (Except ε (Option (DerefLevel × TypeIntern × T))) :=
  autoDerefLoop ut u32Type func fuel (some intern) .not

/-- `intern` is `n` nested references to `base`, none of which `func` accepts. -/
inductive NestedRefs : TypeIntern → Nat → TypeIntern → Prop
  | base (i : TypeIntern) : NestedRefs i 0 i
  | ref {i inner base : TypeIntern} {n : Nat} {probe : ResolvedTy} {m : RefMutability}
      (hprobe : ut.probeType i = some probe) (hkind : probe.kind = .ref inner m)
      (hfunc : func i = .ok none) (hinner : NestedRefs inner n base) : NestedRefs i (n + 1) base

variable {ut u32Type func}

/-- The loop goes through `n` references and stops at the first type that `func` accepts. -/
theorem autoDerefLoop_nested {i base : TypeIntern} {n : Nat} (h : NestedRefs ut func i n base)
    {t : T} (ht : func base = .ok (some t)) {fuel : Nat} (hfuel : n < fuel) (level : DerefLevel) :
    ∃ level', autoDerefLoop ut u32Type func fuel (some i) level = some (.ok (some (level', base, t))) ∧
      level'.depth = level.depth + n := by
  induction h generalizing fuel level with
  | base i =>
    obtain ⟨fuel, rfl⟩ := Nat.exists_eq_succ_of_ne_zero (by omega : fuel ≠ 0)
    refine ⟨level, ?_, rfl⟩
    unfold autoDerefLoop
    rw [ht]
  | @ref i inner base n probe m hprobe hkind hfunc _ ih =>
    obtain ⟨fuel, rfl⟩ := Nat.exists_eq_succ_of_ne_zero (by omega : fuel ≠ 0)
    obtain ⟨level', hrun, hdepth⟩ := ih ht (by omega : n < fuel) (.deref level m.toMutability)
    refine ⟨level', ?_, ?_⟩
    · unfold autoDerefLoop
      rw [hfunc]
      simp only [hprobe, hkind]
      exact hrun
    · rw [hdepth]
      show level.depth + 1 + n = level.depth + (n + 1)
      omega

/-- The level of a type that is `n` nested references has depth `n`. -/
theorem autoDeref_nested (u32Type : TypeIntern) {i base : TypeIntern} {n : Nat}
    (h : NestedRefs ut func i n base) {t : T} (ht : func base = .ok (some t)) {fuel : Nat} (hfuel : n < fuel) :
    ∃ level, autoDeref ut u32Type func fuel i = some (.ok (some (level, base, t))) ∧
      level.depth = n := by
  obtain ⟨level, hrun, hdepth⟩ := autoDerefLoop_nested h ht hfuel .not
  exact ⟨level, hrun, hdepth.trans (Nat.zero_add n)⟩

end

end Semantics
