import C0mpiler.Ir.Layout
import C0mpiler.Semantics.TypeInstance
import Mathlib

/-!
# Lowering types

From the types of the analyser to those of the IR (`transform_interned_ty_impl`), the bodies of the
named structs (`add_struct_type`), and the layout of a type whose structs are named
(`compute_layout`). A named struct is given by its key. The cache of the layouts is left out: an
entry is made when a layout is finished.
-/

namespace Structs

open Semantics

inductive TransformTypeConfig where
  | faithful
  | firstClass
  | firstClassNoUnit
  deriving DecidableEq, Repr

namespace TransformTypeConfig

def noAggregateType : TransformTypeConfig → Bool
  | .faithful => false
  | .firstClass | .firstClassNoUnit => true

def noUnit : TransformTypeConfig → Bool
  | .firstClassNoUnit => true
  | _ => false

end TransformTypeConfig

inductive IrTy where
  | int (bits : Nat)
  | ptr
  | void
  | fatPtr
  | named (key : TypeKey)
  | struct (fields : List IrTy)
  | array (elem : IrTy) (len : Nat)

def isAggregateType (ty : ResolvedTy) : Bool :=
  match ty.kind with
  | .array _ _ | .fn _ _ | .tup _ => true
  | _ => false

def isZeroLengthType (ty : ResolvedTy) : Bool :=
  match ty.kind with
  | .tup items => items.isEmpty
  | _ => false

def isUnsizedType (ty : ResolvedTy) : Bool := ty.kind == .builtIn .str

/-- A struct: it is lowered to its name. -/
def isNamedStruct (ty : ResolvedTy) : Bool :=
  ty.names.isSome &&
    match ty.kind with
    | .placeholder | .tup _ => true
    | _ => false

/-- A loop over types that may stop; the outer `none` is a lack of fuel. -/
def transformAll (f : TypeIntern → Option (Except Fault IrTy)) :
    List TypeIntern → Option (Except Fault (List IrTy))
  | [] => some (.ok [])
  | x :: xs => do
    match ← f x with
    | .error e => some (.error e)
    | .ok y => do
      let ys ← transformAll f xs
      some (ys.map (y :: ·))

section Transform

variable (ut : TypeTable) (t : Ir.TargetDataLayout)

def ptrWidthIntType : IrTy := .int (t.pointerSize * 8)

def transformInternedTyImpl :
    Nat → TypeIntern → TransformTypeConfig → Option (Except Fault IrTy)
  | 0, _, _ => none
  | _ + 1, .never, _ => some (.ok .void)
  | fuel + 1, .other key, cfg =>
    let ty := ut key
    if cfg.noUnit && isZeroLengthType ty then some (.ok .void)
    else if cfg.noAggregateType && isAggregateType ty then some (.ok .ptr)
    else if isNamedStruct ty then some (.ok (.named key))
    else
      match ty.kind with
      | .placeholder => some (.error .panic)
      | .builtIn builtIn =>
        match builtIn with
        | .bool => some (.ok (.int 1))
        | .char => some (.ok (.int 8))
        | .i32 | .u32 => some (.ok (.int 32))
        | .isize | .usize => some (.ok (ptrWidthIntType t))
        | .str => some (.error .panic)
      | .ref inner _ =>
        match ut.probeType inner with
        | none => some (.error .panic)
        | some innerTy => some (.ok (if isUnsizedType innerTy then .fatPtr else .ptr))
      | .tup items => do
        let fields ← transformAll (transformInternedTyImpl fuel · .faithful) items
        some (fields.map .struct)
      | .enum => some (.ok (.int 32))
      | .trait => some (.error .panic)
      | .array elem len => do
        match ← transformInternedTyImpl fuel elem .faithful with
        | .error e => some (.error e)
        | .ok elem => some (len.elim (.error .panic) fun len => .ok (.array elem len))
      | .fn _ _ => some (.ok .ptr)
      | .any .any => some (.error .panic)
      | .any .anyInt | .any .anySignedInt => some (.ok (.int 32))
      | .implicitSelf _ => some (.error .panic)

/-- The body of a struct. -/
def structBody (fuel : Nat) (items : List TypeIntern) : Option (Except Fault (List IrTy)) :=
  transformAll (transformInternedTyImpl ut t fuel · .faithful) items

/-- The loop of `add_struct_type` that sets the bodies. -/
def setBodies (fuel : Nat) : List (TypeKey × List TypeIntern) → HashMap TypeKey (List IrTy) →
    Option (Except Fault (HashMap TypeKey (List IrTy)))
  | [], bodies => some (.ok bodies)
  | (key, items) :: structs, bodies => do
    match ← structBody ut t fuel items with
    | .error e => some (.error e)
    | .ok body => setBodies fuel structs (bodies.insert key body)

end Transform

/-- The structs of the scopes (`absorb_scope_struct`). -/
def Analyzer.structs (a : Analyzer) : List (TypeKey × List TypeIntern) :=
  (a.types.entries.map Sigma.snd).filterMap fun key =>
    match (a.probeKey key).kind with
    | .tup items => some (key, items)
    | _ => none

/-- The bodies of all named structs; `String` is there from the start. -/
def addStructType (a : Analyzer) (t : Ir.TargetDataLayout) (fuel : Nat) :
    Option (Except Fault (HashMap TypeKey (List IrTy))) :=
  setBodies a.probeKey t fuel a.structs (AList.singleton stringKey [.ptr, ptrWidthIntType t])

/-! ## Layouts -/

/-- The loop over the fields of a struct; the inner `none` is an error. -/
def placeFields (f : IrTy → Option (Option Ir.TypeLayout)) : List IrTy → Ir.StructCursor →
    Option (Option Ir.StructCursor)
  | [], c => some (some c)
  | ty :: tys, c => do
    match ← f ty with
    | none => some none
    | some field => placeFields f tys (c.place false field.layout)

/-- The layout of a struct with these fields. -/
def structLayout (f : IrTy → Option (Option Ir.TypeLayout)) (tys : List IrTy) :
    Option (Option Ir.TypeLayout) := do
  let c ← placeFields f tys ⟨[], 0, 1⟩
  some (c.map fun c => ⟨(c.finish false).layout, .struct (c.finish false)⟩)

section Layout

variable (t : Ir.TargetDataLayout) (bodies : HashMap TypeKey (List IrTy))

def layoutOf : Nat → IrTy → Option (Option Ir.TypeLayout)
  | 0, _ => none
  | fuel + 1, ty =>
    match ty with
    | .int bits => some (some ⟨Ir.layoutOfInt bits, .scalar⟩)
    | .ptr => some (some ⟨⟨t.pointerSize, t.pointerAlign⟩, .scalar⟩)
    | .void => some (some ⟨⟨0, 1⟩, .scalar⟩)
    | .fatPtr => structLayout (layoutOf fuel) [.ptr, ptrWidthIntType t]
    | .named key =>
      match bodies.lookup key with
      | none => some none
      | some fields => structLayout (layoutOf fuel) fields
    | .struct fields => structLayout (layoutOf fuel) fields
    | .array elemTy len => do
      let elem ← layoutOf fuel elemTy
      some (elem.map fun elem =>
        let stride := elem.layout.stride
        let layout : Ir.Layout := ⟨stride * len, elem.layout.align⟩
        ⟨layout, .array ⟨layout, elem.layout, stride, len⟩⟩)

end Layout

/-! ## Lowering returns -/

theorem isSome_transformAll {f : TypeIntern → Option (Except Fault IrTy)} {l : List TypeIntern}
    (h : ∀ x ∈ l, (f x).isSome) : (transformAll f l).isSome := by
  induction l with
  | nil => rfl
  | cons x xs ih =>
    obtain ⟨y, hy⟩ := Option.isSome_iff_exists.mp (h x List.mem_cons_self)
    obtain ⟨ys, hys⟩ := Option.isSome_iff_exists.mp (ih fun z hz => h z (List.mem_cons_of_mem x hz))
    cases y <;> simp only [transformAll, hy, hys, Option.bind_eq_bind, Option.bind_some, Option.isSome_some]

theorem mem_of_transformAll {f : TypeIntern → Option (Except Fault IrTy)} {l : List TypeIntern}
    {ys : List IrTy} (h : transformAll f l = some (.ok ys)) {y : IrTy} (hy : y ∈ ys) :
    ∃ x ∈ l, f x = some (.ok y) := by
  induction l generalizing ys with
  | nil =>
    cases h
    cases hy
  | cons x xs ih =>
    obtain ⟨z, hz, h⟩ := Option.bind_eq_some_iff.mp h
    cases z with
    | error e => cases h
    | ok z =>
      obtain ⟨zs, hzs, h⟩ := Option.bind_eq_some_iff.mp h
      cases zs with
      | error e => cases h
      | ok zs =>
        cases h
        rcases List.mem_cons.mp hy with rfl | hy
        · exact ⟨x, List.mem_cons_self, hz⟩
        · obtain ⟨x', hx', h⟩ := ih hzs hy
          exact ⟨x', List.mem_cons_of_mem x hx', h⟩

/-- A type with a name is a struct. -/
def Analyzer.NamedStructs (a : Analyzer) : Prop :=
  ∀ (key : Nat) (ty : ResolvedTy), a.ut[key]? = some ty → ty.names.isSome → isNamedStruct ty

section Returns

variable {a : Analyzer} {t : Ir.TargetDataLayout}

/-- A type of the table is lowered: the recursion stops at the names, and goes to older types up to
them. -/
theorem isSome_transformInternedTyImpl (hground : a.Grounded) (hnamed : a.NamedStructs) {key fuel : Nat}
    (hkey : key < a.ut.length) (hfuel : key + 1 < fuel) (cfg : TransformTypeConfig) :
    (transformInternedTyImpl a.probeKey t fuel (.other key) cfg).isSome := by
  induction fuel generalizing key cfg with
  | zero => omega
  | succ fuel ih =>
    have hget := List.getElem?_eq_getElem hkey
    have hty : a.probeKey key = a.ut[key] := by
      simp only [Analyzer.probeKey, List.getD_eq_getElem?_getD, hget, Option.getD_some]
    -- the parts of a type have smaller keys
    have hparts : isNamedStruct (a.probeKey key) = false → ∀ i ∈ (a.probeKey key).kind.components,
        (transformInternedTyImpl a.probeKey t fuel i .faithful).isSome := by
      intro hnot i hi
      rw [hty] at hnot hi
      have hnames : a.ut[key].names = none := by
        refine Option.not_isSome_iff_eq_none.mp fun h => ?_
        rw [hnamed key _ hget h] at hnot
        cases hnot
      cases i with
      -- the type of a diverging expression is lowered without a look at others
      | never =>
        obtain ⟨fuel, rfl⟩ : ∃ n, fuel = n + 1 := ⟨fuel - 1, by omega⟩
        rfl
      | other k =>
        have hlt := hground key _ hget hnames k hi
        exact ih (by omega) (by omega) .faithful
    rw [transformInternedTyImpl]
    split
    · rfl
    -- the kinds in the order of `transform_interned_ty_impl`
    · split
      · rfl
      · split
        · rfl
        · next hnot =>
          have hparts := hparts (Bool.eq_false_iff.mpr hnot)
          split
          · rfl
          · split <;> rfl
          · split <;> rfl
          · next items hk =>
            rw [hk] at hparts
            obtain ⟨ys, hys⟩ := Option.isSome_iff_exists.mp (isSome_transformAll (l := items) hparts)
            simp only [hys, Option.bind_eq_bind, Option.bind_some, Option.isSome_some]
          · rfl
          · rfl
          · next elem len hk =>
            rw [hk] at hparts
            obtain ⟨y, hy⟩ := Option.isSome_iff_exists.mp (hparts elem List.mem_cons_self)
            cases y <;> simp only [hy, Option.bind_eq_bind, Option.bind_some, Option.isSome_some]
          all_goals rfl

theorem isSome_setBodies {fuel : Nat} {structs : List (TypeKey × List TypeIntern)}
    (h : ∀ s ∈ structs, (structBody a.probeKey t fuel s.2).isSome)
    (bodies : HashMap TypeKey (List IrTy)) : (setBodies a.probeKey t fuel structs bodies).isSome := by
  induction structs generalizing bodies with
  | nil => rfl
  | cons s structs ih =>
    obtain ⟨body, hbody⟩ := Option.isSome_iff_exists.mp (h s List.mem_cons_self)
    obtain ⟨key, items⟩ := s
    cases body with
    | error e => simp only [setBodies, hbody, Option.bind_eq_bind, Option.bind_some, Option.isSome_some]
    | ok body =>
      simp only [setBodies, hbody, Option.bind_eq_bind, Option.bind_some]
      exact ih (fun s hs => h s (List.mem_cons_of_mem _ hs)) _

end Returns

/-- A type whose layout needs no other one, and a pointer with a length. -/
def IrTy.Flat : IrTy → Prop
  | .int _ | .ptr | .void | .fatPtr => True
  | _ => False

/-- What a type of the table is lowered to. -/
theorem transformInternedTyImpl_cases {ut : TypeTable} {t : Ir.TargetDataLayout} {fuel : Nat}
    {key : TypeKey} {cfg : TransformTypeConfig} {ty : IrTy}
    (h : transformInternedTyImpl ut t fuel (.other key) cfg = some (.ok ty)) :
    (ty.Flat ∧ (cfg = .faithful → (ut key).kind.fields = [])) ∨
      (isNamedStruct (ut key) ∧ ty = .named key) ∨
      (∃ items tys fuel', (ut key).kind = .tup items ∧ structBody ut t fuel' items = some (.ok tys) ∧
        ty = .struct tys) ∨
      ∃ elem len elemTy fuel', (ut key).kind = .array elem (some len) ∧
        transformInternedTyImpl ut t fuel' elem .faithful = some (.ok elemTy) ∧
        ty = .array elemTy len := by
  cases fuel with
  | zero => cases h
  | succ fuel =>
    rw [transformInternedTyImpl] at h
    -- the unit type is lowered to `void`
    split at h
    · next hunit =>
      cases h
      refine .inl ⟨trivial, fun hcfg => ?_⟩
      rw [hcfg] at hunit
      cases hunit
    -- named structs, tuples, arrays and the flat types
    · split at h
      · next haggregate =>
        cases h
        refine .inl ⟨trivial, fun hcfg => ?_⟩
        rw [hcfg] at haggregate
        cases haggregate
      · split at h
        · next hnamed =>
          cases h
          exact .inr (.inl ⟨hnamed, rfl⟩)
        · split at h
          · cases h
          · next hk =>
            split at h <;> cases h <;> exact .inl ⟨trivial, fun _ => by rw [hk]; rfl⟩
          · next hk =>
            split at h
            · cases h
            · cases h
              refine .inl ⟨?_, fun _ => by rw [hk]; rfl⟩
              split <;> trivial
          · next items hk =>
            obtain ⟨tys, htys, h⟩ := Option.bind_eq_some_iff.mp h
            cases tys with
            | error e => cases h
            | ok tys =>
              cases h
              exact .inr (.inr (.inl ⟨items, tys, fuel, hk, htys, rfl⟩))
          · next hk =>
            cases h
            exact .inl ⟨trivial, fun _ => by rw [hk]; rfl⟩
          · cases h
          · next elem len hk =>
            obtain ⟨elemTy, helem, h⟩ := Option.bind_eq_some_iff.mp h
            cases elemTy with
            | error e => cases h
            | ok elemTy =>
              cases len with
              | none => cases h
              | some len =>
                cases h
                exact .inr (.inr (.inr ⟨elem, len, elemTy, fuel, hk, helem, rfl⟩))
          · next hk =>
            cases h
            exact .inl ⟨trivial, fun _ => by rw [hk]; rfl⟩
          · cases h
          · next hk =>
            cases h
            exact .inl ⟨trivial, fun _ => by rw [hk]; rfl⟩
          · next hk =>
            cases h
            exact .inl ⟨trivial, fun _ => by rw [hk]; rfl⟩
          · cases h

/-! ## Layouts return -/

section Layout

variable {t : Ir.TargetDataLayout} {bodies : HashMap TypeKey (List IrTy)}

theorem isSome_structLayout {f : IrTy → Option (Option Ir.TypeLayout)} {tys : List IrTy}
    (h : ∀ ty ∈ tys, (f ty).isSome) : (structLayout f tys).isSome := by
  have hplace : ∀ c, (placeFields f tys c).isSome := by
    induction tys with
    | nil => exact fun _ => rfl
    | cons ty tys ih =>
      intro c
      obtain ⟨y, hy⟩ := Option.isSome_iff_exists.mp (h ty List.mem_cons_self)
      cases y with
      | none => simp only [placeFields, hy, Option.bind_eq_bind, Option.bind_some, Option.isSome_some]
      | some field =>
        simp only [placeFields, hy, Option.bind_eq_bind, Option.bind_some]
        exact ih (fun z hz => h z (List.mem_cons_of_mem ty hz)) _
  obtain ⟨c, hc⟩ := Option.isSome_iff_exists.mp (hplace ⟨[], 0, 1⟩)
  simp only [structLayout, hc, Option.bind_eq_bind, Option.bind_some, Option.isSome_some]

theorem returns_structLayout {tys : List IrTy}
    (h : ∀ ty ∈ tys, Fuel.Returns (layoutOf t bodies · ty)) :
    Fuel.Returns fun fuel => structLayout (layoutOf t bodies fuel) tys := by
  obtain ⟨n, hn⟩ := Fuel.exists_forall h
  exact ⟨n, fun m hm => isSome_structLayout (hn m hm)⟩

theorem returns_layoutOf_scalar {ty : IrTy} (h : ∀ fuel, (layoutOf t bodies (fuel + 1) ty).isSome) :
    Fuel.Returns (layoutOf t bodies · ty) := .of_succ ⟨0, fun m _ => h m⟩

/-- A pointer and a length. -/
theorem returns_layoutOf_wide : ∀ ty ∈ [IrTy.ptr, ptrWidthIntType t],
    Fuel.Returns (layoutOf t bodies · ty) := by
  intro ty hty
  rcases List.mem_pair.mp hty with rfl | rfl
  · exact returns_layoutOf_scalar fun _ => rfl
  · exact returns_layoutOf_scalar fun _ => rfl

theorem returns_layoutOf_flat {ty : IrTy} (h : ty.Flat) : Fuel.Returns (layoutOf t bodies · ty) := by
  cases ty with
  | int | ptr | void => exact returns_layoutOf_scalar fun _ => rfl
  | fatPtr => exact .of_succ (returns_structLayout returns_layoutOf_wide)
  | _ => cases h

/-- Where the bodies of the structs come from. -/
theorem lookup_setBodies {ut : TypeTable} {fuel : Nat} {structs : List (TypeKey × List TypeIntern)}
    {bodies₀ : HashMap TypeKey (List IrTy)} (h : setBodies ut t fuel structs bodies₀ = some (.ok bodies))
    {key : TypeKey} {body : List IrTy} (hbody : bodies.lookup key = some body) :
    bodies₀.lookup key = some body ∨
      ∃ items, (key, items) ∈ structs ∧ structBody ut t fuel items = some (.ok body) := by
  induction structs generalizing bodies₀ with
  | nil =>
    cases h
    exact .inl hbody
  | cons s structs ih =>
    obtain ⟨key', items⟩ := s
    obtain ⟨body', hbody', h⟩ := Option.bind_eq_some_iff.mp h
    cases body' with
    | error e => cases h
    | ok body' =>
      rcases ih h with hlookup | ⟨items', hmem, hitems⟩
      · rw [HashMap.lookup_insert_ite] at hlookup
        split at hlookup
        · next heq =>
          cases hlookup
          exact .inr ⟨items, by rw [heq]; exact List.mem_cons_self, hbody'⟩
        · exact .inl hlookup
      · exact .inr ⟨items', List.mem_cons_of_mem _ hmem, hitems⟩

theorem Analyzer.kind_of_mem_structs {a : Analyzer} {key : TypeKey} {items : List TypeIntern}
    (h : (key, items) ∈ a.structs) : (a.probeKey key).kind = .tup items := by
  obtain ⟨k, -, h⟩ := List.mem_filterMap.mp h
  split at h
  · next hk =>
    cases h
    exact hk
  · cases h

variable {a : Analyzer}

/-- Where no chain of held types is infinite, the layout of the lowered type is computed. -/
theorem returns_layoutOf {fuel₀ : Nat} (hbodies : addStructType a t fuel₀ = some (.ok bodies))
    {intern : TypeIntern} (hacc : Acc a.probeKey.HeldBy intern) {fuel : Nat} {cfg : TransformTypeConfig}
    {ty : IrTy} (hty : transformInternedTyImpl a.probeKey t fuel intern cfg = some (.ok ty)) :
    Fuel.Returns (layoutOf t bodies · ty) := by
  induction hacc generalizing fuel cfg ty with
  | intro intern _ ih =>
    -- a field that is lowered is held by the type
    have hfields : ∀ {fuel items tys}, a.probeKey.partsOf ResolvedTyKind.fields intern = items →
        structBody a.probeKey t fuel items = some (.ok tys) →
        ∀ ty ∈ tys, Fuel.Returns (layoutOf t bodies · ty) := by
      intro fuel items tys hitems h ty hty
      obtain ⟨x, hx, h⟩ := mem_of_transformAll h hty
      exact ih x (by rw [TypeTable.HeldBy, TypeTable.Part, hitems]; exact hx) h
    cases intern with
    | never =>
      cases fuel with
      | zero => cases hty
      | succ fuel =>
        cases hty
        exact returns_layoutOf_flat trivial
    | other key =>
      -- the shapes a type is lowered to
      rcases transformInternedTyImpl_cases hty with ⟨hflat, -⟩ | ⟨-, rfl⟩ |
        ⟨items, tys, fuel, hk, htys, rfl⟩ | ⟨elem, len, elemTy, fuel, hk, helem, rfl⟩
      · exact returns_layoutOf_flat hflat
      · refine .of_succ ?_
        simp only [layoutOf]
        cases hbody : bodies.lookup key with
        | none => exact ⟨0, fun _ _ => rfl⟩
        | some body =>
          refine returns_structLayout ?_
          rcases lookup_setBodies hbodies hbody with hstring | ⟨items, hmem, hitems⟩
          · obtain ⟨-, rfl⟩ := (AList.mem_lookup_iff.trans Finset.mem_singleton).mp hstring
            exact returns_layoutOf_wide
          · exact hfields (congrArg ResolvedTyKind.fields (Analyzer.kind_of_mem_structs hmem)) hitems
      · exact .of_succ (returns_structLayout (hfields (congrArg ResolvedTyKind.fields hk) htys))
      · have hmem : elem ∈ a.probeKey.partsOf ResolvedTyKind.fields (.other key) := by
          rw [TypeTable.partsOf, hk]
          exact List.mem_cons_self
        obtain ⟨n, hn⟩ := ih elem hmem helem
        refine .of_succ ⟨n, fun m hm => ?_⟩
        obtain ⟨l, hl⟩ := Option.isSome_iff_exists.mp (hn m hm)
        simp only [layoutOf, hl, Option.bind_eq_bind, Option.bind_some, Option.isSome_some]

end Layout

end Structs
