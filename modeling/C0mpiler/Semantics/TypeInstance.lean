import C0mpiler.Data.Fuel
import C0mpiler.Semantics.StructDecls
import Mathlib

/-!
# Consumers of types

The functions of the analyser that follow the keys of a type: its expansion to a tree
(`probe_type_instance_impl`), the lookup of what its impls hold, and the substitution of `Self`
(`remove_self_type_impl`). None of them remembers the keys it came through; the fuel bounds the depth
of the recursion.
-/

namespace Structs

open Semantics Lexical

/-- The names of a type, as `full_name` has them. -/
abbrev Names := Option (List Symbol × Option (List Symbol))

/-- A type as a tree. -/
inductive ResolvedTyInstance where
  | placeholder (names : Names)
  | builtIn (names : Names) (kind : BuiltInTyKind)
  | ref (names : Names) (inner : ResolvedTyInstance) (mutbl : RefMutability)
  | tup (names : Names) (items : List ResolvedTyInstance)
  | enum (names : Names)
  | trait (names : Names)
  | array (names : Names) (elem : ResolvedTyInstance) (len : Option Nat)
  | fn (names : Names) (ret : ResolvedTyInstance) (args : List ResolvedTyInstance)
  | any (names : Names) (kind : AnyTyKind)
  | implicitSelf (names : Names) (inner : ResolvedTyInstance)

namespace ResolvedTyInstance

mutual
/-- `remove_implicit_self`. -/
def removeImplicitSelf (alter : Option ResolvedTyInstance) : ResolvedTyInstance → ResolvedTyInstance
  | .ref names inner mutbl => .ref names (inner.removeImplicitSelf alter) mutbl
  | .tup names items => .tup names (removeImplicitSelfs alter items)
  | .array names elem len => .array names (elem.removeImplicitSelf alter) len
  | .fn names ret args => .fn names (ret.removeImplicitSelf alter) (removeImplicitSelfs alter args)
  | .implicitSelf _ inner => alter.getD inner
  | ty => ty

/-- The same for several types. -/
def removeImplicitSelfs (alter : Option ResolvedTyInstance) :
    List ResolvedTyInstance → List ResolvedTyInstance
  | [] => []
  | ty :: tys => ty.removeImplicitSelf alter :: removeImplicitSelfs alter tys
end

end ResolvedTyInstance

/-- `collect` of results that may be missing; the outer `none` is a lack of fuel. -/
def collectAll {α β : Type} (f : α → Option (Option β)) : List α → Option (Option (List β))
  | [] => some (some [])
  | x :: xs => do
    match ← f x with
    | none => some none
    | some y => do
      let ys ← collectAll f xs
      some (ys.map (y :: ·))

section Probe

variable (ut : TypeTable)

/-- The inner `none` is the never type. -/
def probeTypeInstanceImpl (removeSelf : Bool) (alter : Option ResolvedTyInstance) :
    Nat → TypeIntern → Option (Option ResolvedTyInstance)
  | 0, _ => none
  -- the type is copied part by part; a key is read anew each time it is met
  | fuel + 1, intern =>
    match ut.probeType intern with
    | none => some none
    | some ⟨names, kind⟩ =>
      match kind with
      | .placeholder => some (some (.placeholder names))
      | .builtIn builtIn => some (some (.builtIn names builtIn))
      | .ref inner mutbl => do
        let inner ← probeTypeInstanceImpl removeSelf alter fuel inner
        some (inner.map fun inner => .ref names inner mutbl)
      | .tup items => do
        let items ← collectAll (probeTypeInstanceImpl removeSelf alter fuel) items
        some (items.map (.tup names))
      | .enum => some (some (.enum names))
      | .trait => some (some (.trait names))
      | .array elem len => do
        let elem ← probeTypeInstanceImpl removeSelf alter fuel elem
        some (elem.map fun elem => .array names elem len)
      | .fn ret args => do
        match ← probeTypeInstanceImpl removeSelf alter fuel ret with
        | none => some none
        | some ret => do
          let args ← collectAll (probeTypeInstanceImpl removeSelf alter fuel) args
          some (args.map (.fn names ret))
      | .any anyKind => some (some (.any names anyKind))
      | .implicitSelf inner =>
        if removeSelf then
          match alter with
          | some alter => some (some alter)
          | none => probeTypeInstanceImpl removeSelf alter fuel inner
        else do
          let inner ← probeTypeInstanceImpl removeSelf alter fuel inner
          some (inner.map (.implicitSelf names))

/-- `probe_type_instance`. -/
def probeTypeInstance (fuel : Nat) (intern : TypeIntern) : Option (Option ResolvedTyInstance) :=
  probeTypeInstanceImpl ut false none fuel intern

/-- The names that the impls of a type define. -/
structure Impls where
  inherent : List Symbol
  traits : List (ResolvedTyInstance × List Symbol)

variable (impls : ResolvedTyInstance → Impls)

/-- `get_impls`: the inner `none` is the panic at the never type. -/
def getImpls (fuel : Nat) (ty : TypeIntern) : Option (Option Impls) := do
  let ty ← probeTypeInstance ut fuel ty
  some (ty.map impls)

/-- `search_value_in_impl`: the type and the trait under which the value is found. -/
def searchValueInImpl (fuel : Nat) (ty : TypeIntern) (symbol : Symbol) :
    Option (Except Fault (Option (ResolvedTyInstance × Option ResolvedTyInstance))) := do
  match ← probeTypeInstance ut fuel ty with
  | none => some (.error .panic)
  | some ty =>
    let found := impls (ty.removeImplicitSelf none)
    if symbol ∈ found.inherent then some (.ok (some (ty, none)))
    else
      match found.traits.filter (symbol ∈ ·.2) with
      | [] => some (.ok none)
      | [(trait, _)] => some (.ok (some (ty, some trait)))
      | _ => some (.error .error)

end Probe

/-- The loop over components: whether each one changed, and what it is now. -/
def removeAll (f : TypeIntern → Analyzer → Option (Option TypeIntern × Analyzer)) :
    List TypeIntern → Analyzer → Option (List (Bool × TypeIntern) × Analyzer)
  | [], a => some ([], a)
  | x :: xs, a => do
    let (new, a) ← f x a
    let (news, a) ← removeAll f xs a
    some (new.elim (false, x) (true, ·) :: news, a)

def removeSelfTypeImpl (target : Option TypeIntern) :
    Nat → TypeIntern → Analyzer → Option (Option TypeIntern × Analyzer)
  | 0, _, _ => none
  -- a named type is left as it is, so the walk ends at structs
  | fuel + 1, intern, a =>
    match a.probeType intern with
    | none => some (none, a)
    | some ⟨some _, _⟩ => some (none, a)
    | some ⟨none, kind⟩ =>
      match kind with
      | .placeholder | .builtIn _ | .any _ | .enum | .trait => some (none, a)
      | .ref inner mutbl => do
        match ← removeSelfTypeImpl target fuel inner a with
        | (none, a) => some (none, a)
        | (some new, a) =>
          let (key, a) := a.internType (.refType new mutbl)
          some (some (.other key), a)
      | .tup items => do
        let (news, a) ← removeAll (removeSelfTypeImpl target fuel) items a
        if news.any Prod.fst then
          let (key, a) := a.internType (.tupType (news.map Prod.snd))
          some (some (.other key), a)
        else some (none, a)
      | .array inner len => do
        match ← removeSelfTypeImpl target fuel inner a with
        | (none, a) => some (none, a)
        | (some new, a) =>
          let (key, a) := a.internType (.arrayType new len)
          some (some (.other key), a)
      | .fn ret items => do
        let (newRet, a) ← removeSelfTypeImpl target fuel ret a
        let (news, a) ← removeAll (removeSelfTypeImpl target fuel) items a
        if newRet.isSome ∨ news.any Prod.fst then
          let (key, a) := a.internType ⟨none, .fn (newRet.getD ret) (news.map Prod.snd)⟩
          some (some (.other key), a)
        else some (none, a)
      | .implicitSelf inner => some (some (target.getD inner), a)

/-! ## The graph of the keys -/

end Structs

namespace Semantics

/-- The types a type is made of. -/
def ResolvedTyKind.components : ResolvedTyKind → List TypeIntern
  | .ref inner _ => [inner]
  | .tup items => items
  | .array elem _ => [elem]
  | .fn ret args => ret :: args
  | .implicitSelf inner => [inner]
  | _ => []

/-- Those of them that a value of the type holds. -/
def ResolvedTyKind.fields : ResolvedTyKind → List TypeIntern
  | .tup items => items
  | .array elem _ => [elem]
  | _ => []

variable (ut : TypeTable)

/-- The parts of a type, where `parts` says which ones of its kind count. -/
def TypeTable.partsOf (parts : ResolvedTyKind → List TypeIntern) : TypeIntern → List TypeIntern
  | .never => []
  | .other key => parts (ut key).kind

/-- `i` is one of the parts of `j` that count. -/
def TypeTable.Part (parts : ResolvedTyKind → List TypeIntern) (i j : TypeIntern) : Prop :=
  i ∈ ut.partsOf parts j

/-- All parts of a type. -/
abbrev TypeTable.components : TypeIntern → List TypeIntern := ut.partsOf ResolvedTyKind.components

/-- `i` is one of the types that `j` is made of. -/
abbrev TypeTable.PartOf : TypeIntern → TypeIntern → Prop := ut.Part ResolvedTyKind.components

/-- A value of type `j` holds one of type `i`. -/
abbrev TypeTable.HeldBy : TypeIntern → TypeIntern → Prop := ut.Part ResolvedTyKind.fields

/-- What a type holds is a part of it. -/
theorem ResolvedTyKind.mem_components_of_mem_fields (kind : ResolvedTyKind) {i : TypeIntern}
    (h : i ∈ kind.fields) : i ∈ kind.components := by
  cases kind <;> first | exact h | cases h

/-- Holding is being a part. -/
theorem TypeTable.HeldBy.partOf {ut : TypeTable} {i j : TypeIntern} (h : ut.HeldBy i j) :
    ut.PartOf i j := by
  cases j with
  | never => cases h
  | other key => exact ResolvedTyKind.mem_components_of_mem_fields _ h

end Semantics

namespace Structs

open Semantics Lexical

/-- Reading several types returns when each of them does. -/
theorem isSome_collectAll {α β : Type} {f : α → Option (Option β)} {l : List α}
    (h : ∀ x ∈ l, (f x).isSome) : (collectAll f l).isSome := by
  induction l with
  | nil => rfl
  | cons x xs ih =>
    obtain ⟨y, hy⟩ := Option.isSome_iff_exists.mp (h x List.mem_cons_self)
    obtain ⟨ys, hys⟩ := Option.isSome_iff_exists.mp (ih fun z hz => h z (List.mem_cons_of_mem x hz))
    cases y with
    | none => simp only [collectAll, hy, Option.bind_eq_bind, Option.bind_some, Option.isSome_some]
    | some y =>
      simp only [collectAll, hy, hys, Option.bind_eq_bind, Option.bind_some, Option.isSome_some]

/-- It fails only when one of them does. -/
theorem collectAll_ne {α β : Type} {f : α → Option (Option β)} {l : List α}
    (hf : ∀ x ∈ l, f x ≠ some none) : collectAll f l ≠ some none := by
  induction l with
  | nil => nofun
  | cons x xs ih =>
    intro h
    have hx := hf x List.mem_cons_self
    have hxs := ih fun z hz => hf z (List.mem_cons_of_mem x hz)
    obtain ⟨y, hy, h⟩ := Option.bind_eq_some_iff.mp h
    cases y with
    | none => exact hx hy
    | some y =>
      obtain ⟨ys, hys, h⟩ := Option.bind_eq_some_iff.mp h
      cases ys with
      | none => exact hxs hys
      | some ys => cases h

/-- Where no result is missing, all members were visited. -/
theorem isSome_of_collectAll {α β : Type} {f : α → Option (Option β)} {l : List α}
    (hf : ∀ x ∈ l, f x ≠ some none) (h : (collectAll f l).isSome) : ∀ x ∈ l, (f x).isSome := by
  induction l with
  | nil => nofun
  | cons x xs ih =>
    cases hx : f x with
    | none =>
      simp only [collectAll, hx, Option.bind_eq_bind, Option.bind_none, Option.isSome_none] at h
      cases h
    | some y =>
      cases y with
      | none => exact absurd hx (hf x List.mem_cons_self)
      | some y =>
        simp only [collectAll, hx, Option.bind_eq_bind, Option.bind_some, Option.isSome_bind] at h
        have hxs : (collectAll f xs).isSome := by
          cases hys : collectAll f xs with
          | none =>
            rw [hys] at h
            cases h
          | some ys => rfl
        intro z hz
        rcases List.mem_cons.mp hz with rfl | hz
        · rw [hx]
          rfl
        · exact ih (fun z hz => hf z (List.mem_cons_of_mem x hz)) hxs z hz

section Probe

variable {ut : TypeTable} {removeSelf : Bool} {alter : Option ResolvedTyInstance}

/-- A type is expanded where its parts are. -/
theorem isSome_probeTypeInstanceImpl {fuel : Nat} {intern : TypeIntern}
    (h : ∀ i ∈ ut.components intern, (probeTypeInstanceImpl ut removeSelf alter fuel i).isSome) :
    (probeTypeInstanceImpl ut removeSelf alter (fuel + 1) intern).isSome := by
  cases intern with
  | never => rfl
  | other key =>
    simp only [TypeTable.components, TypeTable.partsOf] at h
    rcases hty : ut key with ⟨names, kind⟩
    rw [hty] at h
    simp only [probeTypeInstanceImpl, TypeTable.probeType, hty]
    cases kind with
    | ref inner mutbl =>
      obtain ⟨y, hy⟩ := Option.isSome_iff_exists.mp (h inner List.mem_cons_self)
      simp only [hy, Option.bind_eq_bind, Option.bind_some, Option.isSome_some]
    | tup items =>
      obtain ⟨ys, hys⟩ : ∃ ys, collectAll (probeTypeInstanceImpl ut removeSelf alter fuel) items =
          some ys := Option.isSome_iff_exists.mp (isSome_collectAll h)
      simp only [hys, Option.bind_eq_bind, Option.bind_some, Option.isSome_some]
    | array elem len =>
      obtain ⟨y, hy⟩ := Option.isSome_iff_exists.mp (h elem List.mem_cons_self)
      simp only [hy, Option.bind_eq_bind, Option.bind_some, Option.isSome_some]
    | fn ret args =>
      obtain ⟨y, hy⟩ := Option.isSome_iff_exists.mp (h ret List.mem_cons_self)
      obtain ⟨ys, hys⟩ := Option.isSome_iff_exists.mp
        (isSome_collectAll fun x hx => h x (List.mem_cons_of_mem ret hx))
      cases y <;> simp only [hy, hys, Option.bind_eq_bind, Option.bind_some, Option.isSome_some]
    | implicitSelf inner =>
      obtain ⟨y, hy⟩ := Option.isSome_iff_exists.mp (h inner List.mem_cons_self)
      cases removeSelf
      · simp only [hy, Bool.false_eq_true, if_false, Option.bind_eq_bind, Option.bind_some,
          Option.isSome_some]
      · cases alter with
        | none => simp only [hy, if_true, Option.isSome_some]
        | some alter => rfl
    | _ => rfl

/-- Where no chain of parts is infinite, a type is expanded. -/
theorem returns_probeTypeInstanceImpl {intern : TypeIntern} (h : Acc ut.PartOf intern) :
    Fuel.Returns (probeTypeInstanceImpl ut removeSelf alter · intern) :=
  .of_acc (fun _ _ => isSome_probeTypeInstanceImpl) h

/-- `get_impls` reads its type and nothing else. -/
theorem returns_getImpls {impls : ResolvedTyInstance → Impls} {ty : TypeIntern}
    (h : Acc ut.PartOf ty) : Fuel.Returns (getImpls ut impls · ty) := by
  obtain ⟨n, hn⟩ : Fuel.Returns (probeTypeInstance ut · ty) := returns_probeTypeInstanceImpl h
  refine ⟨n, fun m hm => ?_⟩
  obtain ⟨y, hy⟩ := Option.isSome_iff_exists.mp (hn m hm)
  simp only [getImpls, hy, Option.bind_eq_bind, Option.bind_some,
    Option.isSome_some]

/-- `search_value_in_impl` reads its type before the impls. -/
theorem returns_searchValueInImpl {impls : ResolvedTyInstance → Impls} {ty : TypeIntern}
    {symbol : Symbol} (h : Acc ut.PartOf ty) :
    Fuel.Returns (searchValueInImpl ut impls · ty symbol) := by
  obtain ⟨n, hn⟩ : Fuel.Returns (probeTypeInstance ut · ty) := returns_probeTypeInstanceImpl h
  refine ⟨n, fun m hm => ?_⟩
  obtain ⟨y, hy⟩ := Option.isSome_iff_exists.mp (hn m hm)
  cases y with
  | none =>
    simp only [searchValueInImpl, hy, Option.bind_eq_bind, Option.bind_some, Option.isSome_some]
  | some y =>
    simp only [searchValueInImpl, hy, Option.bind_eq_bind, Option.bind_some]
    split
    · rfl
    · split <;> rfl

/-! Where no type has the never type in it, the expansion visits all parts. -/

variable (hut : ∀ intern, TypeIntern.never ∉ ut.components intern)
include hut

/-- Only the never type has no instance. -/
theorem probeTypeInstance_ne {fuel : Nat} {intern : TypeIntern} (hne : intern ≠ .never) :
    probeTypeInstance ut fuel intern ≠ some none := by
  induction fuel generalizing intern with
  | zero => nofun
  | succ fuel ih =>
    cases intern with
    | never => exact absurd rfl hne
    | other key =>
      have hparts : ∀ i ∈ ut.components (.other key),
          probeTypeInstanceImpl ut false none fuel i ≠ some none :=
        fun i hi => ih fun h => hut (.other key) (h ▸ hi)
      simp only [TypeTable.components, TypeTable.partsOf] at hparts
      intro h
      rcases hty : ut key with ⟨names, kind⟩
      rw [hty] at hparts
      simp only [probeTypeInstance, probeTypeInstanceImpl, TypeTable.probeType, hty] at h
      cases kind with
      | ref inner mutbl =>
        obtain ⟨y, hy, h⟩ := Option.bind_eq_some_iff.mp h
        rw [Option.map_eq_none_iff.mp (Option.some.inj h)] at hy
        exact hparts inner List.mem_cons_self hy
      | tup items =>
        obtain ⟨y, hy, h⟩ := Option.bind_eq_some_iff.mp h
        rw [Option.map_eq_none_iff.mp (Option.some.inj h)] at hy
        exact collectAll_ne hparts hy
      | array elem len =>
        obtain ⟨y, hy, h⟩ := Option.bind_eq_some_iff.mp h
        rw [Option.map_eq_none_iff.mp (Option.some.inj h)] at hy
        exact hparts elem List.mem_cons_self hy
      | fn ret args =>
        obtain ⟨y, hy, h⟩ := Option.bind_eq_some_iff.mp h
        cases y with
        | none => exact hparts ret List.mem_cons_self hy
        | some y =>
          obtain ⟨ys, hys, h⟩ := Option.bind_eq_some_iff.mp h
          rw [Option.map_eq_none_iff.mp (Option.some.inj h)] at hys
          exact collectAll_ne (fun i hi => hparts i (List.mem_cons_of_mem ret hi)) hys
      | implicitSelf inner =>
        obtain ⟨y, hy, h⟩ := Option.bind_eq_some_iff.mp h
        rw [Option.map_eq_none_iff.mp (Option.some.inj h)] at hy
        exact hparts inner List.mem_cons_self hy
      | _ => cases h

/-- Reading a type reads all its parts, so a chain of parts is no longer than the stack. -/
theorem isSome_of_probeTypeInstance {fuel : Nat} {intern i : TypeIntern}
    (h : (probeTypeInstance ut (fuel + 1) intern).isSome) (hi : i ∈ ut.components intern) :
    (probeTypeInstance ut fuel i).isSome := by
  cases intern with
  | never => cases hi
  | other key =>
    have hparts : ∀ j ∈ ut.components (.other key), probeTypeInstance ut fuel j ≠ some none :=
      fun j hj => probeTypeInstance_ne hut fun h => hut (.other key) (h ▸ hj)
    obtain ⟨y, h⟩ := Option.isSome_iff_exists.mp h
    simp only [TypeTable.components, TypeTable.partsOf] at hi hparts
    rcases hty : ut key with ⟨names, kind⟩
    rw [hty] at hi hparts
    simp only [probeTypeInstance, probeTypeInstanceImpl, TypeTable.probeType, hty] at h
    cases kind with
    | ref inner mutbl =>
      obtain rfl := List.mem_singleton.mp hi
      obtain ⟨y, hy, -⟩ := Option.bind_eq_some_iff.mp h
      exact Option.isSome_of_eq_some hy
    | tup items =>
      obtain ⟨ys, hys, -⟩ := Option.bind_eq_some_iff.mp h
      exact isSome_of_collectAll hparts (Option.isSome_of_eq_some hys) i hi
    | array elem len =>
      obtain rfl := List.mem_singleton.mp hi
      obtain ⟨y, hy, -⟩ := Option.bind_eq_some_iff.mp h
      exact Option.isSome_of_eq_some hy
    | fn ret args =>
      obtain ⟨y, hy, h⟩ := Option.bind_eq_some_iff.mp h
      rcases List.mem_cons.mp hi with rfl | hi
      · exact Option.isSome_of_eq_some hy
      · cases y with
        | none => exact absurd hy (hparts ret List.mem_cons_self)
        | some y =>
          obtain ⟨ys, hys, -⟩ := Option.bind_eq_some_iff.mp h
          exact isSome_of_collectAll (fun j hj => hparts j (List.mem_cons_of_mem ret hj))
            (Option.isSome_of_eq_some hys) i hi
    | implicitSelf inner =>
      obtain rfl := List.mem_singleton.mp hi
      obtain ⟨y, hy, -⟩ := Option.bind_eq_some_iff.mp h
      exact Option.isSome_of_eq_some hy
    | _ => cases hi

/-- A type that is expanded has no infinite chain of parts. -/
theorem acc_of_probeTypeInstance {fuel : Nat} {intern : TypeIntern}
    (h : (probeTypeInstance ut fuel intern).isSome) : Acc ut.PartOf intern :=
  Fuel.acc_of_isSome (f := probeTypeInstance ut) (fun _ => rfl)
    (fun _ _ h _ hi => isSome_of_probeTypeInstance hut h hi) h

end Probe

/-! ## Substituting `Self` -/

/-- A type without a name is made of older ones. -/
def Analyzer.Grounded (a : Analyzer) : Prop :=
  ∀ (key : Nat) (ty : ResolvedTy), a.ut[key]? = some ty → ty.names = none →
    ∀ k : Nat, .other k ∈ ty.kind.components → k < key

/-- The type behind a key. -/
theorem Analyzer.probeType_of_getElem? {a : Analyzer} {key : TypeKey} {ty : ResolvedTy}
    (h : a.ut[key]? = some ty) : a.probeType (.other key) = some ty := by
  simp only [probeType, TypeTable.probeType, probeKey, List.getD_eq_getElem?_getD, h, Option.getD_some]

section RemoveSelf

variable {a₀ : Analyzer} {target : Option TypeIntern} {fuel : Nat}

/-- Removing `Self` from several types, in the tables that the first ones have extended. -/
theorem removeAll_total {f : TypeIntern → Analyzer → Option (Option TypeIntern × Analyzer)}
    {l : List TypeIntern} (hf : ∀ x ∈ l, ∀ a : Analyzer, a₀.ut <+: a.ut →
      ∃ new a', f x a = some (new, a') ∧ a₀.ut <+: a'.ut) {a : Analyzer} (ha : a₀.ut <+: a.ut) :
    ∃ news a', removeAll f l a = some (news, a') ∧ a₀.ut <+: a'.ut := by
  induction l generalizing a with
  | nil => exact ⟨[], a, rfl, ha⟩
  | cons x xs ih =>
    obtain ⟨new, a₁, hnew, ha₁⟩ := hf x List.mem_cons_self a ha
    obtain ⟨news, a', hnews, ha'⟩ := ih (fun z hz => hf z (List.mem_cons_of_mem x hz)) ha₁
    refine ⟨new.elim (false, x) (true, ·) :: news, a', ?_, ha'⟩
    simp only [removeAll, hnew, hnews, Option.bind_eq_bind, Option.bind_some]

/-- `Self` is substituted in a type of the table: the recursion stops at the names, and goes to older
types up to them. -/
theorem removeSelfTypeImpl_total (hground : a₀.Grounded) {key : Nat} (hkey : key < a₀.ut.length)
    (hfuel : key + 1 < fuel) {a : Analyzer} (ha : a₀.ut <+: a.ut) :
    ∃ new a', removeSelfTypeImpl target fuel (.other key) a = some (new, a') ∧ a₀.ut <+: a'.ut := by
  induction fuel generalizing key a with
  | zero => omega
  | succ fuel ih =>
    have hprobe := Analyzer.probeType_of_getElem? (List.prefix_iff_getElem?.mp ha key hkey)
    have hold := hground key _ (List.getElem?_eq_getElem hkey)
    -- the recursive calls, at the parts of a type without a name
    have hcall : ∀ i, a₀.ut[key].names = none → i ∈ a₀.ut[key].kind.components →
        ∀ a : Analyzer, a₀.ut <+: a.ut → ∃ new a',
          removeSelfTypeImpl target fuel i a = some (new, a') ∧ a₀.ut <+: a'.ut := by
      intro i hnames hi a ha
      cases i with
      | never =>
        obtain ⟨fuel, rfl⟩ : ∃ n, fuel = n + 1 := ⟨fuel - 1, by omega⟩
        exact ⟨none, a, rfl, ha⟩
      | other k =>
        have hlt := hold hnames k hi
        exact ih (by omega) (by omega) ha
    have hintern : ∀ (a : Analyzer) ty, a₀.ut <+: a.ut → a₀.ut <+: (a.internType ty).2.ut :=
      fun a ty h => h.trans (List.prefix_append a.ut [ty])
    -- a type without a name is walked; a named one stays
    rcases hty : a₀.ut[key] with ⟨_ | names, kind⟩
    · rw [hty] at hprobe hcall
      simp only [removeSelfTypeImpl, hprobe]
      cases kind with
      | ref inner mutbl =>
        obtain ⟨new, a₁, hnew, ha₁⟩ := hcall inner rfl List.mem_cons_self a ha
        simp only [hnew, Option.bind_eq_bind, Option.bind_some]
        cases new with
        | none => exact ⟨none, a₁, rfl, ha₁⟩
        | some new => exact ⟨_, _, rfl, hintern a₁ _ ha₁⟩
      | tup items =>
        obtain ⟨news, a₁, hnews, ha₁⟩ := removeAll_total (l := items) (hcall · rfl ·) ha
        simp only [hnews, Option.bind_eq_bind, Option.bind_some]
        split
        · exact ⟨_, _, rfl, hintern a₁ _ ha₁⟩
        · exact ⟨none, a₁, rfl, ha₁⟩
      | array inner len =>
        obtain ⟨new, a₁, hnew, ha₁⟩ := hcall inner rfl List.mem_cons_self a ha
        simp only [hnew, Option.bind_eq_bind, Option.bind_some]
        cases new with
        | none => exact ⟨none, a₁, rfl, ha₁⟩
        | some new => exact ⟨_, _, rfl, hintern a₁ _ ha₁⟩
      | fn ret items =>
        obtain ⟨newRet, a₁, hret, ha₁⟩ := hcall ret rfl List.mem_cons_self a ha
        obtain ⟨news, a₂, hnews, ha₂⟩ := removeAll_total (f := removeSelfTypeImpl target fuel) (l := items)
          (fun x hx => hcall x rfl (List.mem_cons_of_mem ret hx)) ha₁
        simp only [hret, hnews, Option.bind_eq_bind, Option.bind_some]
        split
        · exact ⟨_, _, rfl, hintern a₂ _ ha₂⟩
        · exact ⟨none, a₂, rfl, ha₂⟩
      | implicitSelf inner => exact ⟨_, a, rfl, ha⟩
      | _ => exact ⟨none, a, rfl, ha⟩
    · rw [hty] at hprobe
      simp only [removeSelfTypeImpl, hprobe]
      exact ⟨none, a, rfl, ha⟩

end RemoveSelf

end Structs
