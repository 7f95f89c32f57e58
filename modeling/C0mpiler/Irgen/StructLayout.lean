import C0mpiler.Semantics.StructCycles
import Mathlib

/-!
# Layouts of declared structs

The layout of a lowered type is computed just if no struct holds itself. A struct that does has no
finite size, and the analyser accepts it: its layout needs itself.
-/

namespace Structs

open Semantics Lexical Relation

theorem exists_of_mem_transformAll {f : TypeIntern → Option (Except Fault IrTy)} {l : List TypeIntern}
    {ys : List IrTy} (h : transformAll f l = some (.ok ys)) {x : TypeIntern} (hx : x ∈ l) :
    ∃ y ∈ ys, f x = some (.ok y) := by
  induction l generalizing ys with
  | nil => cases hx
  | cons z xs ih =>
    obtain ⟨y, hy, h⟩ := Option.bind_eq_some_iff.mp h
    cases y with
    | error e => cases h
    | ok y =>
      obtain ⟨zs, hzs, h⟩ := Option.bind_eq_some_iff.mp h
      cases zs with
      | error e => cases h
      | ok zs =>
        cases h
        rcases List.mem_cons.mp hx with rfl | hx
        · exact ⟨y, List.mem_cons_self, hy⟩
        · obtain ⟨y', hy', h⟩ := ih hzs hx
          exact ⟨y', List.mem_cons_of_mem y hy', h⟩

/-- The structs of the list get a body, and no struct loses its own. -/
theorem isSome_lookup_setBodies {ut : TypeTable} {t : Ir.TargetDataLayout} {fuel : Nat}
    {structs : List (TypeKey × List TypeIntern)} {bodies₀ bodies : HashMap TypeKey (List IrTy)}
    (h : setBodies ut t fuel structs bodies₀ = some (.ok bodies)) {key : TypeKey}
    (hkey : (bodies₀.lookup key).isSome ∨ ∃ items, (key, items) ∈ structs) :
    (bodies.lookup key).isSome := by
  induction structs generalizing bodies₀ with
  | nil =>
    cases h
    rcases hkey with hkey | ⟨items, hmem⟩
    · exact hkey
    · cases hmem
  | cons s structs ih =>
    obtain ⟨key', items⟩ := s
    obtain ⟨body, -, h⟩ := Option.bind_eq_some_iff.mp h
    cases body with
    | error e => cases h
    | ok body =>
      refine ih h ?_
      rw [HashMap.lookup_insert_ite]
      by_cases heq : key = key'
      · rw [if_pos heq]
        exact .inl rfl
      · rw [if_neg heq]
        refine hkey.imp_right fun ⟨items', hmem⟩ => ⟨items', ?_⟩
        exact (List.mem_cons.mp hmem).resolve_left fun h => heq (congrArg Prod.fst h)

section PlaceFields

variable {f : IrTy → Option (Option Ir.TypeLayout)} {tys : List IrTy}

theorem structLayout_ne (h : ∀ ty ∈ tys, f ty ≠ some none) : structLayout f tys ≠ some none := by
  have hplace : ∀ c, placeFields f tys c ≠ some none := by
    induction tys with
    | nil => nofun
    | cons ty tys ih =>
      intro c hc
      obtain ⟨field, hfield, hc⟩ := Option.bind_eq_some_iff.mp hc
      cases field with
      | none => exact h ty List.mem_cons_self hfield
      | some field => exact ih (fun z hz => h z (List.mem_cons_of_mem ty hz)) _ hc
  intro hlayout
  obtain ⟨c, hc, hlayout⟩ := Option.bind_eq_some_iff.mp hlayout
  rw [Option.map_eq_none_iff.mp (Option.some.inj hlayout)] at hc
  exact hplace _ hc

/-- Where no field has an error, the layouts of all fields were computed. -/
theorem isSome_of_structLayout (hne : ∀ ty ∈ tys, f ty ≠ some none) (h : (structLayout f tys).isSome) :
    ∀ ty ∈ tys, (f ty).isSome := by
  have hplaced : ∀ c₀ c, placeFields f tys c₀ = some c → ∀ ty ∈ tys, (f ty).isSome := by
    clear h
    induction tys with
    | nil => nofun
    | cons ty tys ih =>
      intro c₀ c hplace
      obtain ⟨field, hfield, hplace⟩ := Option.bind_eq_some_iff.mp hplace
      cases field with
      | none => exact absurd hfield (hne ty List.mem_cons_self)
      | some field =>
        intro z hz
        rcases List.mem_cons.mp hz with rfl | hz
        · exact Option.isSome_of_eq_some hfield
        · exact ih (fun z hz => hne z (List.mem_cons_of_mem ty hz)) _ _ hplace z hz
  obtain ⟨l, h⟩ := Option.isSome_iff_exists.mp h
  obtain ⟨c, hplace, -⟩ := Option.bind_eq_some_iff.mp h
  exact hplaced _ c hplace

end PlaceFields

section Layout

variable {t : Ir.TargetDataLayout} {bodies : HashMap TypeKey (List IrTy)}

theorem layoutOf_flat_ne {fuel : Nat} {ty : IrTy} (h : ty.Flat) :
    layoutOf t bodies fuel ty ≠ some none := by
  cases fuel with
  | zero => nofun
  | succ fuel =>
    cases ty with
    | fatPtr =>
      refine structLayout_ne fun ty hty => ?_
      rcases List.mem_pair.mp hty with rfl | rfl <;> cases fuel <;> nofun
    | int | ptr | void =>
      intro hnone
      cases hnone
    | _ => cases h

variable {a : Analyzer} {fuel₀ : Nat} (hbodies : addStructType a t fuel₀ = some (.ok bodies))
  (hnever : ∀ intern, .never ∉ a.probeKey.components intern)
  (hnamed : ∀ key, isNamedStruct (a.probeKey key) → (bodies.lookup key).isSome)
include hbodies hnever

/-- What a body is lowered from, field by field. -/
theorem mem_body {key : TypeKey} {body : List IrTy} (hbody : bodies.lookup key = some body) {ty : IrTy}
    (hty : ty ∈ body) : ty.Flat ∨ ∃ k fuel, .other k ∈ (a.probeKey key).kind.fields ∧
      transformInternedTyImpl a.probeKey t fuel (.other k) .faithful = some (.ok ty) := by
  rcases lookup_setBodies hbodies hbody with hstring | ⟨items, hmem, hitems⟩
  · obtain ⟨-, rfl⟩ := (AList.mem_lookup_iff.trans Finset.mem_singleton).mp hstring
    rcases List.mem_pair.mp hty with rfl | rfl <;> exact .inl trivial
  · obtain ⟨i, hi, h⟩ := mem_of_transformAll hitems hty
    have hkind := Analyzer.kind_of_mem_structs hmem
    have hfield : i ∈ (a.probeKey key).kind.fields := by
      rw [hkind]
      exact hi
    cases i with
    | never =>
      exact absurd (ResolvedTyKind.mem_components_of_mem_fields _ hfield) (hnever (.other key))
    | other k => exact .inr ⟨k, fuel₀, hfield, h⟩

include hnamed

/-- No layout fails. -/
theorem layoutOf_ne {key : TypeKey} {fuel fuel' : Nat} {cfg : TransformTypeConfig} {ty : IrTy}
    (hty : transformInternedTyImpl a.probeKey t fuel' (.other key) cfg = some (.ok ty)) :
    layoutOf t bodies fuel ty ≠ some none := by
  -- the bodies give a layout, or the fuel runs out first
  induction fuel generalizing key fuel' cfg ty with
  | zero => nofun
  | succ fuel ih =>
    -- a list of fields lowers field by field
    have hfields : ∀ {items tys fuel'}, (a.probeKey key).kind.fields = items →
        structBody a.probeKey t fuel' items = some (.ok tys) →
          ∀ ty ∈ tys, layoutOf t bodies fuel ty ≠ some none := by
      intro items tys fuel' hitems h ty hty
      obtain ⟨i, hi, h⟩ := mem_of_transformAll h hty
      cases i with
      | never =>
        rw [← hitems] at hi
        exact absurd (ResolvedTyKind.mem_components_of_mem_fields _ hi) (hnever (.other key))
      | other k => exact ih h
    rcases transformInternedTyImpl_cases hty with ⟨hflat, -⟩ | ⟨hstruct, rfl⟩ |
      ⟨items, tys, fuel', hk, htys, rfl⟩ | ⟨elem, len, elemTy, fuel', hk, helem, rfl⟩
    -- the four shapes of a lowered type
    · exact layoutOf_flat_ne hflat
    · obtain ⟨body, hbody⟩ := Option.isSome_iff_exists.mp (hnamed key hstruct)
      simp only [layoutOf, hbody]
      refine structLayout_ne fun ty hty => ?_
      rcases mem_body hbodies hnever hbody hty with hflat | ⟨k, fuel', -, h⟩
      · exact layoutOf_flat_ne hflat
      · exact ih h
    · simp only [layoutOf]
      exact structLayout_ne (hfields (congrArg ResolvedTyKind.fields hk) htys)
    · intro h
      cases elem with
      | never =>
        have hmem : .never ∈ a.probeKey.components (.other key) := by
          rw [TypeTable.components, TypeTable.partsOf, hk]
          exact List.mem_cons_self
        exact hnever _ hmem
      | other k =>
        simp only [layoutOf] at h
        obtain ⟨l, hl, h⟩ := Option.bind_eq_some_iff.mp h
        rw [Option.map_eq_none_iff.mp (Option.some.inj h)] at hl
        exact ih helem hl

/-- A type whose layout is computed has no infinite chain of held types. -/
theorem acc_of_layoutOf (hstring : (a.probeKey stringKey).kind = .placeholder) {key : TypeKey}
    {fuel fuel' : Nat} {ty : IrTy}
    (hty : transformInternedTyImpl a.probeKey t fuel' (.other key) .faithful = some (.ok ty))
    (h : (layoutOf t bodies fuel ty).isSome) : Acc a.probeKey.HeldBy (.other key) := by
  induction fuel generalizing key fuel' ty with
  | zero => cases h
  | succ fuel ih =>
    -- a struct holds what its fields hold
    have hall : ∀ {items tys fuel'}, (a.probeKey key).kind.fields = items →
        structBody a.probeKey t fuel' items = some (.ok tys) →
          (structLayout (layoutOf t bodies fuel) tys).isSome → Acc a.probeKey.HeldBy (.other key) := by
      intro items tys fuel' hitems hbody hlayout
      have hlower : ∀ ty ∈ tys, ∃ k fuel, transformInternedTyImpl a.probeKey t fuel (.other k) .faithful =
          some (.ok ty) := by
        intro ty hty
        obtain ⟨i, hi, h⟩ := mem_of_transformAll hbody hty
        cases i with
        | never =>
          rw [← hitems] at hi
          exact absurd (ResolvedTyKind.mem_components_of_mem_fields _ hi) (hnever (.other key))
        | other k => exact ⟨k, fuel', h⟩
      refine .intro _ fun i hi => ?_
      have hi : i ∈ (a.probeKey key).kind.fields := hi
      have hmem : i ∈ a.probeKey.components (.other key) :=
        ResolvedTyKind.mem_components_of_mem_fields _ hi
      rw [hitems] at hi
      obtain ⟨ty, hty, h⟩ := exists_of_mem_transformAll hbody hi
      cases i with
      | never => exact absurd hmem (hnever _)
      | other k =>
        refine ih h (isSome_of_structLayout (fun ty hty => ?_) hlayout ty hty)
        obtain ⟨k, fuel', h⟩ := hlower ty hty
        exact layoutOf_ne hbodies hnever hnamed h
    -- the four shapes
    rcases transformInternedTyImpl_cases hty with ⟨-, hleaf⟩ | ⟨hstruct, rfl⟩ |
      ⟨items, tys, fuel', hk, htys, rfl⟩ | ⟨elem, len, elemTy, fuel', hk, helem, rfl⟩
    · refine .intro _ fun i hi => ?_
      have hi : i ∈ (a.probeKey key).kind.fields := hi
      rw [hleaf rfl] at hi
      cases hi
    · obtain ⟨body, hbody⟩ := Option.isSome_iff_exists.mp (hnamed key hstruct)
      simp only [layoutOf, hbody] at h
      rcases lookup_setBodies hbodies hbody with hlookup | ⟨items, hmem, hitems⟩
      · obtain ⟨rfl, -⟩ := (AList.mem_lookup_iff.trans Finset.mem_singleton).mp hlookup
        refine .intro _ fun i hi => ?_
        have hi : i ∈ (a.probeKey stringKey).kind.fields := hi
        rw [hstring] at hi
        cases hi
      · exact hall (congrArg ResolvedTyKind.fields (Analyzer.kind_of_mem_structs hmem)) hitems h
    · simp only [layoutOf] at h
      exact hall (congrArg ResolvedTyKind.fields hk) htys h
    -- an array holds its element
    · refine .intro _ fun i hi => ?_
      have hi : i ∈ (a.probeKey key).kind.fields := hi
      have hmem : i ∈ a.probeKey.components (.other key) :=
        ResolvedTyKind.mem_components_of_mem_fields _ hi
      rw [hk] at hi
      obtain rfl := List.mem_singleton.mp hi
      cases i with
      | never => exact absurd hmem (hnever _)
      | other k =>
        simp only [layoutOf] at h
        obtain ⟨l, h⟩ := Option.isSome_iff_exists.mp h
        obtain ⟨l, hl, -⟩ := Option.bind_eq_some_iff.mp h
        exact ih helem (Option.isSome_of_eq_some hl)

end Layout

section Declared

variable {D : StructDecls} {a : Analyzer} (h : D.Declares a)
  (hitems : ∀ i item, D.items[i]? = some item →
    D.Defined a item (firstKey + i) ∧ a.types.lookup (item.father, item.ident) = some (firstKey + i))
include hitems

/-- Every struct is among those of the scopes. -/
theorem mem_structs {i : Nat} (hi : i < D.items.length) :
    ∃ items, (firstKey + i, items) ∈ a.structs := by
  obtain ⟨⟨ty, keys, hget, hkind, -⟩, hlookup⟩ := hitems i _ (List.getElem?_eq_getElem hi)
  refine ⟨keys.map .other, List.mem_filterMap.mpr ⟨firstKey + i, ?_, ?_⟩⟩
  · exact List.mem_map.mpr ⟨_, AList.mem_lookup_iff.mp hlookup, rfl⟩
  · rw [Analyzer.probeKey_of_getElem? hget, hkind]

include h in
/-- Every name stands for a struct with a body. -/
theorem isSome_lookup_bodies {t : Ir.TargetDataLayout} {fuel : Nat}
    {bodies : HashMap TypeKey (List IrTy)} (hbodies : addStructType a t fuel = some (.ok bodies))
    {key : TypeKey} (hkey : isNamedStruct (a.probeKey key)) : (bodies.lookup key).isSome := by
  refine isSome_lookup_setBodies hbodies ?_
  cases hget : a.ut[key]? with
  | none =>
    rw [Analyzer.probeKey, List.getD_eq_getElem?_getD, hget] at hkey
    cases hkey
  | some ty =>
    rw [Analyzer.probeKey_of_getElem? hget, isNamedStruct, Bool.and_eq_true] at hkey
    rcases h.named key ty hget hkey.1 with rfl | ⟨i, hi, rfl⟩
    · exact .inl rfl
    · exact .inr (mem_structs hitems hi)

end Declared

/-- Where the bodies of the declared structs are lowered, the layout of every lowered type is computed,
also of types interned later, just if no struct holds itself. -/
theorem layouts_return_iff (D : StructDecls) {a : Analyzer} (hrun : D.analyse = .ok a)
    {t : Ir.TargetDataLayout} {fuel : Nat} {bodies : HashMap TypeKey (List IrTy)}
    (hbodies : addStructType a t fuel = some (.ok bodies)) :
    (∀ a' fuel bodies, a.Interns a' → addStructType a' t fuel = some (.ok bodies) →
      ∀ key < a'.ut.length, ∀ fuel cfg ty,
        transformInternedTyImpl a'.probeKey t fuel (.other key) cfg = some (.ok ty) →
          Fuel.Returns (layoutOf t bodies · ty)) ↔
    ∀ i, ¬D.InfiniteSize i := by
  -- the analysis of the declarations succeeds
  have houtcome := D.analyse_outcome
  rw [houtcome.fault_eq_none hrun] at houtcome
  obtain ⟨a', ha', h, hitems⟩ := houtcome
  obtain rfl : a' = a := Except.ok.inj (ha'.symm.trans hrun)
  have hfollows := follows_holds fun i item hitem => (hitems i item hitem).1
  constructor
  -- a struct of infinite size would have a finite layout
  · intro hreturn i hi
    have hstruct : i < D.items.length := by
      obtain ⟨j, ⟨item, hitem, -⟩, -⟩ := TransGen.head'_iff.mp hi
      exact (List.getElem?_eq_some_iff.mp hitem).1
    obtain ⟨ty, hget, hnamed⟩ := h.struct i hstruct
    have hlower : transformInternedTyImpl a'.probeKey t 1 (structIntern i) .faithful =
        some (.ok (.named (firstKey + i))) := by
      rw [structIntern, transformInternedTyImpl, Analyzer.probeKey_of_getElem? hget]
      simp only [TransformTypeConfig.noUnit, TransformTypeConfig.noAggregateType, Bool.false_and,
        Bool.false_eq_true, if_false, hnamed, if_true]
    obtain ⟨n, hn⟩ := (hreturn a' fuel bodies (.refl a') hbodies _
      (List.getElem?_eq_some_iff.mp hget).1 1 _ _ hlower).exists
    have hstring : (a'.probeKey stringKey).kind = .placeholder := by
      rw [Analyzer.probeKey_of_getElem? (h.preludes stringKey (by decide))]
    have hacc : Acc a'.probeKey.HeldBy (structIntern i) :=
      acc_of_layoutOf hbodies h.never_notMem (fun key hkey => isSome_lookup_bodies h hitems hbodies hkey)
        hstring hlower hn
    refine Fuel.not_transGen_of_acc hacc (transGen_part hfollows (fun i j => ?_) hi)
    rintro ⟨item, hitem, -⟩
    exact (List.getElem?_eq_some_iff.mp hitem).1
  -- a tree of parts that is finite gives a layout by induction
  · intro hfinite a'' fuel bodies hlater hbodies key hkey fuel' cfg ty hty
    refine returns_layoutOf hbodies ?_ hty
    exact acc_of_interns hfollows hlater hfinite h ResolvedTyKind.mem_components_of_mem_fields hkey

/-- A number and a reference to the next link: `struct Link { value: i32, next: &Link }`. -/
def link : StructDecls :=
  ⟨1, [⟨"Link", 1, [0], .struct [("value", .path "i32"), ("next", .ref (.path "Link") .not)]⟩]⟩

/-- A link is finite, so all layouts are computed. -/
theorem layouts_return_link : ∃ a bodies, link.analyse = .ok a ∧
    addStructType a .rv32 3 = some (.ok bodies) ∧ ∀ a' fuel bodies, a.Interns a' →
      addStructType a' .rv32 fuel = some (.ok bodies) → ∀ key < a'.ut.length, ∀ fuel cfg ty,
        transformInternedTyImpl a'.probeKey .rv32 fuel (.other key) cfg = some (.ok ty) →
          Fuel.Returns (layoutOf .rv32 bodies · ty) := by
  have hok : (link.analyse.bind fun a => (addStructType a .rv32 3).getD (.error .error)).isOk := by
    decide +kernel
  cases hrun : link.analyse with
  | error e =>
    rw [hrun] at hok
    cases hok
  | ok a =>
  rw [hrun] at hok
  cases hbodies : addStructType a .rv32 3 with
  | none => simp only [Except.bind, hbodies, Option.getD_none] at hok; cases hok
  | some bodies =>
  cases bodies with
  | error e => simp only [Except.bind, hbodies, Option.getD_some] at hok; cases hok
  | ok bodies =>
  refine ⟨a, bodies, rfl, hbodies, (layouts_return_iff link hrun hbodies).mpr fun i hi => ?_⟩
  obtain ⟨j, ⟨item, hitem, hj⟩, -⟩ := TransGen.head'_iff.mp hi
  cases i with
  | zero =>
    cases hitem
    cases hj
  | succ i => cases hitem

end Structs
