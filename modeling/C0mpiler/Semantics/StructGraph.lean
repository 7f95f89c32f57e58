import C0mpiler.Irgen.TransformType
import Mathlib

/-!
# The table of the struct declarations

What the analysis of struct declarations leaves in the table of types. `Outcome` compares a run of
the analyser with the first fault of what it reads. A field type becomes a key from which just the
structs it mentions are reached (`Spans`).
-/

namespace Structs

open Semantics Lexical Relation

/-! ## Runs that may be refused -/

/-- The run stops at the fault, or it returns something with the property `P`. -/
def Outcome {α : Type} (r : Except Fault α) (fault : Option Fault) (P : α → Prop) : Prop :=
  match fault with
  | some e => r = .error e
  | none => ∃ x, r = .ok x ∧ P x

namespace Outcome

variable {α β : Type} {r : Except Fault α} {fault fault' : Option Fault} {P Q : α → Prop}

/-- A computation that returns. -/
theorem ok {x : α} (h : P x) : Outcome (.ok x) none P := ⟨x, rfl, h⟩

/-- One after the other: the faults come in order. -/
theorem bind {k : α → Except Fault β} {R : β → Prop} (h : Outcome r fault P)
    (hk : ∀ x, r = .ok x → P x → Outcome (k x) fault' R) : Outcome (r >>= k) (fault.or fault') R := by
  cases fault with
  | some e =>
    obtain rfl : r = .error e := h
    rfl
  | none =>
    obtain ⟨x, rfl, hx⟩ := h
    exact hk x rfl hx

/-- A weaker result. -/
theorem imp (h : Outcome r fault P) (himp : ∀ x, r = .ok x → P x → Q x) : Outcome r fault Q := by
  cases fault with
  | some e => exact h
  | none =>
    obtain ⟨x, hx, hP⟩ := h
    exact ⟨x, hx, himp x hx hP⟩

/-- A computation that has returned met no fault. -/
theorem fault_eq_none {x : α} (h : Outcome r fault P) (hr : r = .ok x) : fault = none := by
  cases fault with
  | some e => cases Eq.trans (Eq.symm h) hr
  | none => rfl

/-- A last step that cannot be refused. -/
theorem map {k : α → Except Fault β} {R : β → Prop} (h : Outcome r fault P)
    (hk : ∀ x, r = .ok x → P x → Outcome (k x) none R) : Outcome (r >>= k) fault R := by
  have hbind := h.bind hk
  rwa [Option.or_none] at hbind

end Outcome

/-! ## Interned types -/

/-- The key of what a name stands for. -/
def Target.key : Target → TypeKey
  | .prelude => stringKey
  | .struct i => firstKey + i

/-- The type of a struct. -/
def structIntern (i : Nat) : TypeIntern := .other (firstKey + i)

namespace Analyzer

/-- The analyser has more types than before. -/
def Grows (a a' : Analyzer) : Prop := a.ut <+: a'.ut ∧ a'.types = a.types

variable {a a' a'' : Analyzer}

theorem Grows.refl (a : Analyzer) : a.Grows a := ⟨List.prefix_rfl, rfl⟩

theorem Grows.trans (h : a.Grows a') (h' : a'.Grows a'') : a.Grows a'' :=
  ⟨h.1.trans h'.1, h'.2.trans h.2⟩

/-- A new type changes no old one. -/
theorem grows_internType (a : Analyzer) (ty : ResolvedTy) : a.Grows (a.internType ty).2 :=
  ⟨List.prefix_append a.ut [ty], rfl⟩

/-- The types after a new one: the old ones, and the new one last. -/
theorem getElem?_internType (ty : ResolvedTy) (key : Nat) (ty' : ResolvedTy)
    (hget : (a.internType ty).2.ut[key]? = some ty') :
    a.ut[key]? = some ty' ∨ key = a.ut.length ∧ ty' = ty := by
  have hget : (a.ut ++ [ty])[key]? = some ty' := hget
  rw [List.getElem?_append] at hget
  split at hget
  · exact .inl hget
  · next hge =>
    obtain ⟨hlt, rfl⟩ := List.getElem?_eq_some_iff.mp hget
    have hkey : key = a.ut.length := by
      simp only [List.length_singleton] at hlt
      omega
    refine .inr ⟨hkey, ?_⟩
    simp only [List.getElem_singleton]

/-- The new type is behind the new key. -/
theorem probeType_internType (a : Analyzer) (ty : ResolvedTy) :
    (a.internType ty).2.probeType (.other (a.internType ty).1) = some ty := by
  refine probeType_of_getElem? ?_
  show (a.ut ++ [ty])[a.ut.length]? = some ty
  rw [List.getElem?_append_right le_rfl, Nat.sub_self, List.getElem?_cons_zero]

/-- Types stay. -/
theorem Grows.getElem? (h : a.Grows a') {key : TypeKey} {ty : ResolvedTy}
    (hty : a.ut[key]? = some ty) : a'.ut[key]? = some ty := by
  obtain ⟨hlt, rfl⟩ := List.getElem?_eq_some_iff.mp hty
  exact List.prefix_iff_getElem?.mp h.1 key hlt

/-- Names are looked up in the scopes only. -/
theorem getTypeInScopes_congr (h : a'.types = a.types) (symbol : Symbol) (scopes : List NodeId) :
    a'.getTypeInScopes symbol scopes = a.getTypeInScopes symbol scopes := by
  induction scopes with
  | nil => rfl
  | cons id ids ih => rw [getTypeInScopes, getTypeInScopes, h, ih]

/-- The table does not shrink. -/
theorem Grows.length_le (h : a.Grows a') : a.ut.length ≤ a'.ut.length := h.1.length_le

/-- Whether a type has a size does not change. -/
theorem Grows.checkSized (h : a.Grows a') {key : TypeKey} (hkey : key < a.ut.length) :
    a'.checkSized (.other key) = a.checkSized (.other key) := by
  have hty := List.getElem?_eq_getElem hkey
  simp only [Analyzer.checkSized, probeType_of_getElem? hty, probeType_of_getElem? (h.getElem? hty)]

/-- Checking one type. -/
theorem checkSized_of_checkAllSized {intern : TypeIntern} {u : Unit}
    (h : a.checkAllSized [intern] = .ok u) : a.checkSized intern = .ok () := by
  cases hsized : a.checkSized intern with
  | error e =>
    rw [Analyzer.checkAllSized, hsized] at h
    cases h
  | ok u => rfl

end Analyzer

/-- The types that no definition changes: those of the preludes, and those without a name. -/
def Agrees (ut : TypeTable) (a : Analyzer) : Prop :=
  ∀ (key : Nat) (ty : ResolvedTy), a.ut[key]? = some ty → key < firstKey ∨ ty.names = none → ut key = ty

/-- Tables that agree with a later analyser agree with an earlier one. -/
theorem Agrees.of_grows {ut : TypeTable} {a a' : Analyzer} (h : Agrees ut a') (hgrows : a.Grows a') :
    Agrees ut a := fun key ty hty hor => h key ty (hgrows.getElem? hty) hor

/-- From the keys just the structs `js` are reached, through the parts that count. -/
structure Spans (parts : ResolvedTyKind → List TypeIntern) (ut : TypeTable) (js : List Nat)
    (keys : List TypeKey) : Prop where
  reaches : ∀ j ∈ js, ∃ key ∈ keys, ReflTransGen (ut.Part parts) (structIntern j) (.other key)
  acc : (∀ j ∈ js, Acc (ut.Part parts) (structIntern j)) → ∀ key ∈ keys, Acc (ut.Part parts) (.other key)

namespace Spans

variable {parts : ResolvedTyKind → List TypeIntern} {ut : TypeTable} {js js' : List Nat}
  {keys keys' : List TypeKey} {key : TypeKey}

/-- A type that is made of the keys. -/
theorem of_parts (h : Spans parts ut js keys) (hkey : parts (ut key).kind = keys.map .other) :
    Spans parts ut js [key] where
  reaches j hj := by
    obtain ⟨k, hk, hreach⟩ := h.reaches j hj
    refine ⟨key, List.mem_singleton_self key, hreach.tail ?_⟩
    show _ ∈ parts (ut key).kind
    rw [hkey]
    exact List.mem_map_of_mem hk
  acc hacc k hk := by
    obtain rfl := List.mem_singleton.mp hk
    refine .intro _ fun i hi => ?_
    have hi : i ∈ parts (ut k).kind := hi
    rw [hkey] at hi
    obtain ⟨k', hk', rfl⟩ := List.mem_map.mp hi
    exact h.acc hacc k' hk'

/-- No keys reach no struct. -/
theorem nil : Spans parts ut [] [] := ⟨nofun, fun _ => nofun⟩

/-- A type that is made of nothing. -/
theorem leaf (hkey : parts (ut key).kind = []) : Spans parts ut [] [key] :=
  nil.of_parts hkey

/-- Keys together reach the structs of both. -/
theorem append (h : Spans parts ut js keys) (h' : Spans parts ut js' keys') :
    Spans parts ut (js ++ js') (keys ++ keys') where
  reaches j hj := by
    rcases List.mem_append.mp hj with hj | hj
    · obtain ⟨k, hk, hreach⟩ := h.reaches j hj
      exact ⟨k, List.mem_append_left keys' hk, hreach⟩
    · obtain ⟨k, hk, hreach⟩ := h'.reaches j hj
      exact ⟨k, List.mem_append_right keys hk, hreach⟩
  acc hacc k hk := by
    rcases List.mem_append.mp hk with hk | hk
    · exact h.acc (fun j hj => hacc j (List.mem_append_left js' hj)) k hk
    · exact h'.acc (fun j hj => hacc j (List.mem_append_right js hj)) k hk

/-- The key of a struct reaches that struct alone. -/
theorem struct (i : Nat) : Spans parts ut [i] [firstKey + i] where
  reaches j hj := by
    obtain rfl := List.mem_singleton.mp hj
    exact ⟨_, List.mem_singleton_self _, .refl⟩
  acc hacc k hk := by
    obtain rfl := List.mem_singleton.mp hk
    exact hacc i (List.mem_singleton_self i)

end Spans

/-! ## Resolving a type -/

/-- The analyser after the stage of symbols, and at any point of the stage of definitions. -/
structure StructDecls.Declares (D : StructDecls) (a : Analyzer) : Prop where
  types : ∀ symbol scopes, a.getTypeInScopes symbol scopes = (D.find symbol scopes).map Target.key
  preludes : ∀ key < firstKey, a.ut[key]? = preludes[key]?
  struct : ∀ i < D.items.length, ∃ ty, a.ut[firstKey + i]? = some ty ∧ isNamedStruct ty
  grounded : a.Grounded
  namedStructs : a.NamedStructs
  named : ∀ (key : Nat) (ty : ResolvedTy), a.ut[key]? = some ty → ty.names.isSome →
    key = stringKey ∨ ∃ i < D.items.length, key = firstKey + i
  never : ∀ (key : Nat) (ty : ResolvedTy), a.ut[key]? = some ty → .never ∉ ty.kind.components
  bounded : ∀ (key : Nat) (ty : ResolvedTy), a.ut[key]? = some ty →
    ∀ k : Nat, .other k ∈ ty.kind.components → k < a.ut.length

namespace StructDecls

variable {D : StructDecls} {a a' : Analyzer}

/-- The never type is no part of a type of the table. -/
theorem Declares.never_notMem (h : D.Declares a) (intern : TypeIntern) :
    .never ∉ a.probeKey.components intern := by
  intro hmem
  cases intern with
  | never => cases hmem
  | other key =>
    have hmem : .never ∈ (a.ut.getD key default).kind.components := hmem
    rw [List.getD_eq_getElem?_getD] at hmem
    cases hget : a.ut[key]? with
    | none =>
      rw [hget] at hmem
      cases hmem
    | some ty =>
      rw [hget] at hmem
      exact h.never key ty hget hmem

/-- The preludes are there. -/
theorem Declares.firstKey_le (h : D.Declares a) : firstKey ≤ a.ut.length := by
  refine Nat.le_of_not_lt fun hlt => ?_
  have hget := h.preludes _ hlt
  rw [List.getElem?_eq_none le_rfl, List.getElem?_eq_getElem (l := Structs.preludes) hlt] at hget
  cases hget

/-- One more type without a name, made of those there are. -/
theorem Declares.internType (h : D.Declares a) {ty : ResolvedTy} {keys : List TypeKey}
    (hnames : ty.names = none) (hparts : ty.kind.components = keys.map .other)
    (hkeys : ∀ key ∈ keys, key < a.ut.length) : D.Declares (a.internType ty).2 := by
  have hgrows := a.grows_internType ty
  have hcases : ∀ (key : Nat) ty', (a.internType ty).2.ut[key]? = some ty' →
      a.ut[key]? = some ty' ∨ key = a.ut.length ∧ ty' = ty := Analyzer.getElem?_internType ty
  have hlt : ∀ k : Nat, .other k ∈ ty.kind.components → k < a.ut.length := by
    intro k hk
    rw [hparts] at hk
    obtain ⟨k', hk', heq⟩ := List.mem_map.mp hk
    cases heq
    exact hkeys k hk'
  exact {
    types := fun symbol scopes => (Analyzer.getTypeInScopes_congr hgrows.2 symbol scopes).trans
      (h.types symbol scopes)
    preludes := fun key hkey => by
      rw [← h.preludes key hkey]
      -- field by field: an old key has what it had, the new key has the new type
      exact List.getElem?_append_left (Nat.lt_of_lt_of_le hkey h.firstKey_le)
    struct := fun i hi => by
      obtain ⟨ty', hget, hty'⟩ := h.struct i hi
      exact ⟨ty', hgrows.getElem? hget, hty'⟩
    grounded := fun key ty' hget hnone k hk => by
      rcases hcases key ty' hget with hget | ⟨rfl, rfl⟩
      · exact h.grounded key ty' hget hnone k hk
      · exact hlt k hk
    namedStructs := fun key ty' hget hsome => by
      rcases hcases key ty' hget with hget | ⟨rfl, rfl⟩
      · exact h.namedStructs key ty' hget hsome
      · rw [hnames] at hsome
        cases hsome
    named := fun key ty' hget hsome => by
      rcases hcases key ty' hget with hget | ⟨rfl, rfl⟩
      · exact h.named key ty' hget hsome
      · rw [hnames] at hsome
        cases hsome
    never := fun key ty' hget hmem => by
      rcases hcases key ty' hget with hget | ⟨rfl, rfl⟩
      · exact h.never key ty' hget hmem
      · rw [hparts] at hmem
        obtain ⟨k, -, heq⟩ := List.mem_map.mp hmem
        cases heq
    bounded := fun key ty' hget k hk => by
      refine Nat.lt_of_lt_of_le ?_ hgrows.length_le
      rcases hcases key ty' hget with hget | ⟨rfl, rfl⟩
      · exact h.bounded key ty' hget k hk
      · exact hlt k hk }

/-- The keys that types resolve to, given the structs that these mention and hold. -/
structure Resolution (D : StructDecls) (a : Analyzer) (js hs : List Nat) (keys : List TypeKey)
    (a' : Analyzer) : Prop where
  grows : a.Grows a'
  declares : D.Declares a'
  bounded : ∀ key ∈ keys, key < a'.ut.length
  mentions : ∀ ut, Agrees ut a' → Spans ResolvedTyKind.components ut js keys
  holds : ∀ ut, Agrees ut a' → Spans ResolvedTyKind.fields ut hs keys

variable {js hs hs' : List Nat} {keys : List TypeKey}

/-- A type made of the keys is interned; it holds all of them or none. -/
theorem Resolution.internType (h : D.Resolution a js hs keys a') {ty : ResolvedTy}
    (hnames : ty.names = none) (hparts : ty.kind.components = keys.map .other)
    (hfields : ty.kind.fields = keys.map .other ∧ hs' = hs ∨ ty.kind.fields = [] ∧ hs' = []) :
    D.Resolution a js hs' [(a'.internType ty).1] (a'.internType ty).2 := by
  have hty : ∀ ut, Agrees ut (a'.internType ty).2 → ut (a'.internType ty).1 = ty := by
    intro ut hagrees
    refine hagrees _ ty ?_ (.inr hnames)
    show (a'.ut ++ [ty])[a'.ut.length]? = some ty
    rw [List.getElem?_append_right le_rfl, Nat.sub_self, List.getElem?_cons_zero]
  exact {
    grows := h.grows.trans (a'.grows_internType ty)
    declares := h.declares.internType hnames hparts h.bounded
    bounded := fun key hkey => by
      obtain rfl := List.mem_singleton.mp hkey
      show a'.ut.length < (a'.ut ++ [ty]).length
      rw [List.length_append, List.length_singleton]
      exact Nat.lt_succ_self _
    mentions := fun ut hagrees => by
      refine (h.mentions ut (hagrees.of_grows (a'.grows_internType ty))).of_parts ?_
      rw [hty ut hagrees, hparts]
    holds := fun ut hagrees => by
      rcases hfields with ⟨hfields, rfl⟩ | ⟨hfields, rfl⟩
      · refine (h.holds ut (hagrees.of_grows (a'.grows_internType ty))).of_parts ?_
        rw [hty ut hagrees, hfields]
      · refine .leaf ?_
        rw [hty ut hagrees, hfields] }

/-- No types. -/
theorem Resolution.nil (h : D.Declares a) : D.Resolution a [] [] [] a :=
  ⟨.refl a, h, nofun, fun _ _ => .nil, fun _ _ => .nil⟩

/-- A prelude is what it was at the start. -/
theorem Declares.probe_prelude (h : D.Declares a) {ut : TypeTable} (hagrees : Agrees ut a)
    {key : TypeKey} (hkey : key < firstKey) : ut key = Structs.preludes.get ⟨key, hkey⟩ := by
  refine hagrees key _ ?_ (.inl hkey)
  rw [h.preludes key hkey]
  exact List.getElem?_eq_getElem hkey

/-- A key of the preludes. -/
theorem Declares.resolution_prelude (h : D.Declares a) (key : TypeKey) (hkey : key < firstKey)
    (hleaf : ∀ ty, Structs.preludes[key]? = some ty →
      ty.kind.components = [] ∧ ty.kind.fields = []) : D.Resolution a [] [] [key] a where
  grows := .refl a
  declares := h
  bounded k hk := by
    obtain rfl := List.mem_singleton.mp hk
    exact Nat.lt_of_lt_of_le hkey h.firstKey_le
  mentions ut hagrees := by
    refine .leaf ?_
    rw [h.probe_prelude hagrees hkey]
    exact (hleaf _ (List.getElem?_eq_getElem hkey)).1
  holds ut hagrees := by
    refine .leaf ?_
    rw [h.probe_prelude hagrees hkey]
    exact (hleaf _ (List.getElem?_eq_getElem hkey)).2

/-- A name that is found stands for a struct of the crate. -/
theorem lt_of_find {symbol : Symbol} {scopes : List NodeId} {i : Nat}
    (h : D.find symbol scopes = some (.struct i)) : i < D.items.length := by
  induction scopes with
  | nil => cases h
  | cons id ids ih =>
    rw [find] at h
    cases hd : D.declared symbol id with
    | none =>
      rw [hd] at h
      exact ih h
    | some target =>
      rw [hd] at h
      cases h
      rw [declared] at hd
      split at hd
      · next j hj =>
        cases hd
        obtain ⟨hlt, -⟩ := List.findIdx?_eq_some_iff_getElem.mp hj
        exact hlt
      · split at hd <;> cases hd

/-- The built-in types by their names; only `str` has no size. -/
theorem preludes_builtInKey {symbol : Symbol} {key : TypeKey} (h : builtInKey symbol = some key) :
    ∃ kind, Structs.preludes[key]? = some ⟨none, .builtIn kind⟩ ∧ (kind = .str ↔ symbol = "str") := by
  unfold builtInKey at h
  split at h <;> cases h
  all_goals exact ⟨_, rfl, by decide⟩

/-- A struct has a size. -/
theorem checkSized_struct {key : TypeKey} {ty : ResolvedTy}
    (hget : a.ut[key]? = some ty) (hty : isNamedStruct ty) : a.checkSized (.other key) = .ok () := by
  rw [Analyzer.checkSized, Analyzer.probeType_of_getElem? hget]
  obtain ⟨names, kind⟩ := ty
  cases kind <;> first | rfl | simp [isNamedStruct] at hty

/-- A name. -/
theorem Declares.resolvePathType (h : D.Declares a) (scopes : List NodeId) (symbol : Symbol) :
    Outcome (a.resolvePathType scopes symbol) ((Ty.path symbol).fault (D.find · scopes)) fun ty =>
      ∃ key, ty = .other key ∧ D.Resolution a ((Ty.path symbol).mentions (D.find · scopes))
          ((Ty.path symbol).holds (D.find · scopes)) [key] a ∧
        Outcome (a.checkSized ty) ((Ty.path symbol).unsized (D.find · scopes)) fun _ => True := by
  have htypes := h.types symbol scopes
  rcases hfind : D.find symbol scopes with _ | _ | i
  -- no struct has the name: it is a built-in type or an error
  · rw [hfind, Option.map_none] at htypes
    rw [Analyzer.resolvePathType, htypes]
    simp only [Ty.fault, Ty.mentions, Ty.holds, Ty.unsized, hfind, Option.isSome_none, Bool.false_eq_true,
      false_or, Option.isNone_none, true_and]
    cases hkey : builtInKey symbol with
    | some key =>
      obtain ⟨kind, hprelude, hstr⟩ := preludes_builtInKey hkey
      have hlt : key < firstKey := (List.getElem?_eq_some_iff.mp hprelude).1
      have hget := (h.preludes key hlt).trans hprelude
      refine ⟨_, rfl, key, rfl, h.resolution_prelude _ hlt fun ty hty => ?_, ?_⟩
      · rw [hprelude] at hty
        cases hty
        exact ⟨rfl, rfl⟩
      · rw [Analyzer.checkSized, Analyzer.probeType_of_getElem? hget]
        by_cases hs : symbol = "str"
        · rw [if_pos hs, hstr.mpr hs]
          rfl
        · rw [if_neg hs]
          have hne : kind ≠ .str := fun heq => hs (hstr.mp heq)
          cases kind <;> first | exact ⟨(), rfl, trivial⟩ | exact absurd rfl hne
    | none =>
      simp only [Option.isSome_none, Bool.false_eq_true, if_false]
      split <;> rfl
  -- the name of the prelude's `String`
  · rw [hfind, Option.map_some] at htypes
    rw [Analyzer.resolvePathType, htypes]
    simp only [Ty.fault, Ty.mentions, Ty.holds, Ty.unsized, hfind, Option.isSome_some, true_or, if_true,
      Option.isNone_some, Bool.false_eq_true, false_and, if_false]
    have hlt : stringKey < firstKey := by decide
    have hget := h.preludes stringKey hlt
    refine ⟨_, rfl, stringKey, rfl, h.resolution_prelude _ hlt fun ty hty => ?_, (), ?_, trivial⟩
    · cases hty
      exact ⟨rfl, rfl⟩
    · exact checkSized_struct (hget.trans rfl) rfl
  -- a struct of the crate
  · rw [hfind, Option.map_some] at htypes
    rw [Analyzer.resolvePathType, htypes]
    simp only [Ty.fault, Ty.mentions, Ty.holds, Ty.unsized, hfind, Option.isSome_some, true_or, if_true,
      Option.isNone_some, Bool.false_eq_true, false_and, if_false]
    obtain ⟨ty, hget, hty⟩ := h.struct i (lt_of_find hfind)
    refine ⟨_, rfl, firstKey + i, rfl, ⟨.refl a, h, fun k hk => ?_, fun _ _ => .struct i,
      fun _ _ => .struct i⟩, (),
      checkSized_struct hget hty, trivial⟩
    obtain rfl := List.mem_singleton.mp hk
    exact (List.getElem?_eq_some_iff.mp hget).1

end StructDecls

/-! A type, with the fault it has and the structs it mentions. The induction is on the type as
written. -/

section Resolve

variable {D : StructDecls} (scopes : List NodeId)

mutual
/-- Resolving a type fails where `Ty.fault` says so; else its key reaches the structs mentioned in
it, and has a size where `Ty.unsized` says so. -/
theorem resolveType_outcome (ty : Ty) {a : Analyzer} (h : D.Declares a) :
    Outcome (resolveType scopes ty a) (ty.fault (D.find · scopes)) fun r =>
      ∃ key, r.1 = .other key ∧ D.Resolution a (ty.mentions (D.find · scopes))
          (ty.holds (D.find · scopes)) [key] r.2 ∧
        Outcome (r.2.checkSized r.1) (ty.unsized (D.find · scopes)) fun _ => True := by
  cases ty with
  | unsupported => exact rfl
  -- an array: the length first, then the element, which must have a size
  | array inner len =>
    cases len with
    | none => exact rfl
    | some len =>
      simp only [resolveType, Option.elim_some, Ty.fault, Option.isNone_some, Bool.false_eq_true,
        if_false]
      show Outcome (resolveType scopes inner a >>= _) _ _
      refine (resolveType_outcome inner h).bind fun r hr hres => ?_
      obtain ⟨key, hkey, hres, hsized⟩ := hres
      refine hsized.map fun _ _ _ => .ok ⟨_, rfl, hres.internType rfl (by rw [hkey]; rfl)
        (.inl ⟨by rw [hkey]; rfl, rfl⟩), (), ?_, trivial⟩
      rw [Analyzer.checkSized, Analyzer.probeType_internType]
      rfl
  -- a reference mentions what is behind it and holds nothing
  | ref inner mutbl =>
    simp only [resolveType, Ty.fault]
    refine (resolveType_outcome inner h).map fun r hr hres => ?_
    obtain ⟨key, hkey, hres, -⟩ := hres
    refine .ok ⟨_, rfl, hres.internType rfl (by rw [hkey]; rfl) (.inr ⟨rfl, rfl⟩), (), ?_,
      trivial⟩
    rw [Analyzer.checkSized, Analyzer.probeType_internType]
    rfl
  -- a tuple holds all its parts; the empty one and the one in parentheses are not interned
  | tup tys force =>
    simp only [resolveType, Ty.fault]
    refine (resolveTypes_outcome tys h).bind fun r hr hres => ?_
    obtain ⟨keys, hkeys, hlen, hres, hsized⟩ := hres
    refine hsized.map fun _ hcheck _ => ?_
    have htup : D.Resolution a (mentionsAll (D.find · scopes) tys) (holdsAll (D.find · scopes) tys)
        [(r.2.internType (.tupType r.1)).1] (r.2.internType (.tupType r.1)).2 :=
      hres.internType rfl hkeys (.inl ⟨hkeys, rfl⟩)
    have hsizedTup : (r.2.internType (.tupType r.1)).2.checkSized
        (.other (r.2.internType (.tupType r.1)).1) = .ok () := by
      rw [Analyzer.checkSized, Analyzer.probeType_internType]
      rfl
    rw [hkeys] at hcheck htup hsizedTup ⊢
    rcases keys with _ | ⟨key, _ | ⟨key', keys⟩⟩
    · obtain rfl := List.length_eq_zero_iff.mp hlen.symm
      have hunit := hres.declares.resolution_prelude unitKey (by decide) fun ty hty => by
        cases hty
        exact ⟨rfl, rfl⟩
      refine .ok ⟨unitKey, rfl, { hunit with grows := hres.grows }, (), ?_, trivial⟩
      rw [Analyzer.checkSized,
        Analyzer.probeType_of_getElem? (hres.declares.preludes unitKey (by decide))]
    · cases force with
      | true => exact .ok ⟨_, rfl, htup, (), hsizedTup, trivial⟩
      | false => exact .ok ⟨key, rfl, hres, (), Analyzer.checkSized_of_checkAllSized hcheck, trivial⟩
    · exact .ok ⟨_, rfl, htup, (), hsizedTup, trivial⟩
  | path symbol =>
    simp only [resolveType]
    refine (h.resolvePathType scopes symbol).map fun ty hty hres => ?_
    exact .ok hres
  | infer =>
    simp only [resolveType, Ty.fault]
    refine .ok ⟨_, rfl, (StructDecls.Resolution.nil h).internType rfl rfl (.inr ⟨rfl, rfl⟩), ?_⟩
    simp only [Ty.unsized]
    show Analyzer.checkSized _ _ = _
    rw [Analyzer.checkSized, Analyzer.probeType_internType]
    rfl
  | implicitSelf => exact rfl

/-- The same for several types. -/
theorem resolveTypes_outcome (tys : List Ty) {a : Analyzer} (h : D.Declares a) :
    Outcome (resolveTypes scopes tys a) (faultAll (D.find · scopes) tys) fun r =>
      ∃ keys, r.1 = keys.map .other ∧ keys.length = tys.length ∧
        D.Resolution a (mentionsAll (D.find · scopes) tys) (holdsAll (D.find · scopes) tys) keys r.2 ∧
        Outcome (r.2.checkAllSized r.1) (unsizedAll (D.find · scopes) tys) fun _ => True := by
  cases tys with
  | nil => exact .ok ⟨[], rfl, rfl, .nil h, (), rfl, trivial⟩
  | cons ty tys =>
    simp only [resolveTypes, faultAll]
    refine (resolveType_outcome ty h).bind fun r hr hres => ?_
    obtain ⟨key, hkey, hres, hsized⟩ := hres
    refine (resolveTypes_outcome tys hres.declares).map fun rs hrs hress => ?_
    obtain ⟨keys, hkeys, hlen, hress, hsizeds⟩ := hress
    refine .ok ⟨key :: keys, by rw [hkey, hkeys]; rfl, congrArg Nat.succ hlen, ⟨?_, ?_, ?_, ?_, ?_⟩, ?_⟩
    · exact hres.grows.trans hress.grows
    · exact hress.declares
    · intro k hk
      rcases List.mem_cons.mp hk with rfl | hk
      · exact Nat.lt_of_lt_of_le (hres.bounded k (List.mem_singleton_self k)) hress.grows.length_le
      · exact hress.bounded k hk
    · intro ut hagrees
      exact (hres.mentions ut (hagrees.of_grows hress.grows)).append (hress.mentions ut hagrees)
    · intro ut hagrees
      exact (hres.holds ut (hagrees.of_grows hress.grows)).append (hress.holds ut hagrees)
    · simp only [Analyzer.checkAllSized, unsizedAll]
      rw [hkey] at hsized ⊢
      rw [hress.grows.checkSized (hres.bounded key (List.mem_singleton_self key))]
      exact hsized.bind fun _ _ _ => hsizeds
end

end Resolve

end Structs
