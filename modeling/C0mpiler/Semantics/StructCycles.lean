import C0mpiler.Semantics.StructGraph
import Mathlib

/-!
# Structs that mention themselves

The analyser accepts the struct declarations that have no fault, also those that mention themselves.
The functions that follow the keys of a type return for all types of the table just if no struct
does.
-/

namespace Structs

open Semantics Lexical Relation

/-! ## The stage of symbols -/

section Collect

variable {a : Analyzer}

/-- No item repeats a name. -/
theorem notMem_of_nameFault {names : List (NodeId × Symbol)} {items : List StructItem}
    (h : StructDecls.nameFault names items = none) {item : StructItem} (hitem : item ∈ items) :
    (item.father, item.ident) ∉ names := by
  induction items generalizing names with
  | nil => cases hitem
  | cons item' items ih =>
    rw [StructDecls.nameFault] at h
    split at h
    · cases h
    · next hnot =>
      rcases List.mem_cons.mp hitem with rfl | hitem
      · exact fun hmem => hnot (.inr (.inr hmem))
      · exact fun hmem => ih h hitem (List.mem_cons_of_mem _ hmem)

/-- The placeholder of a struct. -/
def placeholder (crate : NodeId) (item : StructItem) : ResolvedTy :=
  ⟨some ((Analyzer.new crate).getFullName item.father item.ident, some item.subnames), .placeholder⟩

/-- The analyser with one more struct. -/
def Analyzer.declare (a : Analyzer) (item : StructItem) : Analyzer :=
  ⟨a.crate, a.ut ++ [placeholder a.crate item], a.types.insert (item.father, item.ident) a.ut.length⟩

/-- `add_type_placeholder` as one condition. -/
theorem Analyzer.collectStruct_eq (item : StructItem) : a.collectStruct item =
    if item.variants.isTuple ∨ ¬item.subnames.Nodup ∨ (a.types.lookup (item.father, item.ident)).isSome
    then .error .error
    else .ok (a.ut.length, a.declare item) := by
  rw [collectStruct]
  by_cases hfault : item.variants.isTuple ∨ ¬item.subnames.Nodup
  · rw [if_pos hfault, if_pos (hfault.imp_right .inl)]
  · rw [if_neg hfault]
    obtain ⟨htuple, hnodup⟩ := not_or.mp hfault
    simp only [addTypePlaceholder, htuple, hnodup, Bool.false_eq_true, false_or]
    split <;> rfl

/-- All structs get a placeholder, and their names stand for these. -/
theorem collectStructs_outcome (items : List StructItem) (names : List (NodeId × Symbol))
    (hnames : ∀ p, (a.types.lookup p).isSome ↔ p ∈ names) :
    Outcome (Analyzer.collectStructs items a) (StructDecls.nameFault names items) fun r =>
      r.1 = List.range' a.ut.length items.length ∧ r.2.ut = a.ut ++ items.map (placeholder a.crate) ∧
        (∀ scope symbol, r.2.types.lookup (scope, symbol) =
          ((items.findIdx? fun item => item.father = scope ∧ item.ident = symbol).map
            (a.ut.length + ·)).or (a.types.lookup (scope, symbol))) ∧
        ∀ i item, items[i]? = some item →
          r.2.types.lookup (item.father, item.ident) = some (a.ut.length + i) := by
  induction items generalizing a names with
  | nil => exact .ok ⟨rfl, (List.append_nil _).symm, fun _ _ => rfl, nofun⟩
  | cons item items ih =>
    rw [Analyzer.collectStructs, StructDecls.nameFault, Analyzer.collectStruct_eq]
    simp only [hnames]
    split
    · rfl
    -- later items have other names, so the first one is found under its own
    · have hlookup : ∀ p, (a.declare item).types.lookup p =
          if p = (item.father, item.ident) then some a.ut.length else a.types.lookup p :=
        fun p => HashMap.lookup_insert_ite ..
      have hrest := ih (a := a.declare item) ((item.father, item.ident) :: names) fun p => by
        rw [hlookup, List.mem_cons, ← hnames p]
        split
        · next heq => simp only [heq, Option.isSome_some, true_or]
        · next hne => simp only [hne, false_or]
      show Outcome (Analyzer.collectStructs items (a.declare item) >>= _) _ _
      refine hrest.map fun r hr hres => ?_
      obtain ⟨hkeys, huts, htypes, hitems⟩ := hres
      have hlen : (a.declare item).ut.length = a.ut.length + 1 := by
        simp only [Analyzer.declare, List.length_append, List.length_singleton]
      have hfirst : items.findIdx? (fun item' => decide (item'.father = item.father ∧
          item'.ident = item.ident)) = none := by
        refine List.findIdx?_eq_none_iff.mpr fun item' hitem' => ?_
        refine decide_eq_false fun heq => ?_
        refine notMem_of_nameFault (hrest.fault_eq_none hr) hitem' ?_
        rw [heq.1, heq.2]
        exact List.mem_cons_self
      refine .ok ⟨?_, ?_, fun scope symbol => ?_, fun i item' hitem' => ?_⟩
      · rw [hkeys, hlen]
        rfl
      · rw [huts]
        simp only [Analyzer.declare, List.map_cons, List.append_assoc, List.singleton_append]
      · rw [htypes, hlookup, hlen, List.findIdx?_cons]
        by_cases heq : (scope, symbol) = (item.father, item.ident)
        · cases heq
          rw [hfirst]
          simp
        · have hne : ¬(item.father = scope ∧ item.ident = symbol) := fun h => heq (by rw [h.1, h.2])
          rw [if_neg heq]
          simp only [hne, decide_false, Bool.false_eq_true, if_false, Option.map_map]
          congr 2
          funext i
          simp only [Function.comp]
          omega
      · cases i with
        | zero =>
          cases hitem'
          rw [htypes, hfirst, Option.map_none, Option.none_or, hlookup, if_pos rfl, Nat.add_zero]
        | succ i =>
          rw [hitems i item' hitem', hlen, Nat.add_assoc, Nat.add_comm 1 i]

/-- What the preludes are made of. -/
theorem preludes_grounded {key : Nat} {ty : ResolvedTy} (hget : preludes[key]? = some ty) :
    (∀ i ∈ ty.kind.components, ∃ k : Nat, i = .other k ∧ k < key) ∧
      (ty.names.isSome → key = stringKey ∧ isNamedStruct ty) := by
  have hlt : key < 10 := (List.getElem?_eq_some_iff.mp hget).1
  obtain hlt | rfl | rfl : key < 8 ∨ key = 8 ∨ key = 9 := by omega
  · interval_cases key <;> cases hget <;> exact ⟨nofun, nofun⟩
  · cases hget
    refine ⟨fun i hi => ?_, nofun⟩
    obtain rfl := List.mem_singleton.mp hi
    exact ⟨6, rfl, by decide⟩
  · cases hget
    exact ⟨nofun, fun _ => ⟨rfl, rfl⟩⟩

/-- The analyser after the stage of symbols. -/
theorem StructDecls.declares_of_collected {D : StructDecls}
    (hut : a.ut = preludes ++ D.items.map (placeholder D.crate))
    (htypes : ∀ scope symbol, a.types.lookup (scope, symbol) =
      ((D.items.findIdx? fun item => item.father = scope ∧ item.ident = symbol).map
        (firstKey + ·)).or ((Analyzer.new D.crate).types.lookup (scope, symbol))) : D.Declares a := by
  have hcases : ∀ (key : Nat) ty, a.ut[key]? = some ty → preludes[key]? = some ty ∨
      ∃ i < D.items.length, key = firstKey + i ∧ ∃ item, ty = placeholder D.crate item := by
    intro key ty hget
    rw [hut, List.getElem?_append] at hget
    split at hget
    · exact .inl hget
    · next hge =>
      rw [List.getElem?_map] at hget
      obtain ⟨item, hitem, rfl⟩ := Option.map_eq_some_iff.mp hget
      refine .inr ⟨key - preludes.length, (List.getElem?_eq_some_iff.mp hitem).1, ?_, item, rfl⟩
      rw [firstKey, Nat.add_sub_cancel' (Nat.le_of_not_lt hge)]
  have hstruct : ∀ i < D.items.length, ∃ ty, a.ut[firstKey + i]? = some ty ∧ isNamedStruct ty := by
    intro i hi
    refine ⟨placeholder D.crate (D.items.get ⟨i, hi⟩), ?_, rfl⟩
    rw [hut, firstKey, List.getElem?_append_right (Nat.le_add_right _ _), Nat.add_sub_cancel_left,
      List.getElem?_map, List.getElem?_eq_getElem hi]
    rfl
  have hlength : a.ut.length = firstKey + D.items.length := by
    rw [hut, List.length_append, List.length_map]
    -- field by field: a key is a prelude or the placeholder of a struct
    rfl
  exact {
    types := fun symbol scopes => by
      induction scopes with
      | nil => rfl
      | cons id ids ih =>
        rw [Analyzer.getTypeInScopes, StructDecls.find, htypes, ih, StructDecls.declared]
        cases D.items.findIdx? fun item => decide (item.father = id ∧ item.ident = symbol) with
        | some i => rfl
        | none =>
          have hnew : (Analyzer.new D.crate).types.lookup (id, symbol) =
              if id = 0 ∧ symbol = "String" then some stringKey else none := by
            rw [Analyzer.new, ← AList.insert_empty, HashMap.lookup_insert_ite, AList.lookup_empty]
            simp only [Prod.mk.injEq]
          rw [hnew]
          split <;> rfl
    preludes := fun key hkey => by
      rw [hut]
      exact List.getElem?_append_left hkey
    struct := hstruct
    grounded := fun key ty hget hnone k hk => by
      rcases hcases key ty hget with hget | ⟨i, -, -, item, rfl⟩
      · obtain ⟨k', heq, hlt⟩ := (preludes_grounded hget).1 _ hk
        cases heq
        exact hlt
      · cases hk
    namedStructs := fun key ty hget hsome => by
      rcases hcases key ty hget with hget | ⟨i, -, -, item, rfl⟩
      · exact ((preludes_grounded hget).2 hsome).2
      · rfl
    named := fun key ty hget hsome => by
      rcases hcases key ty hget with hget | ⟨i, hi, hkey, -⟩
      · exact .inl ((preludes_grounded hget).2 hsome).1
      · exact .inr ⟨i, hi, hkey⟩
    never := fun key ty hget hmem => by
      rcases hcases key ty hget with hget | ⟨i, -, -, item, rfl⟩
      · obtain ⟨k, heq, -⟩ := (preludes_grounded hget).1 _ hmem
        cases heq
      · cases hmem
    bounded := fun key ty hget k hk => by
      rcases hcases key ty hget with hprelude | ⟨i, -, -, item, rfl⟩
      · obtain ⟨k', heq, hlt⟩ := (preludes_grounded hprelude).1 _ hk
        cases heq
        exact hlt.trans (List.getElem?_eq_some_iff.mp hget).1
      · cases hk }

end Collect

/-! ## The stage of definitions -/

/-- The struct with this key is made of what its fields mention. -/
def StructDecls.Defined (D : StructDecls) (a : Analyzer) (item : StructItem) (key : TypeKey) : Prop :=
  ∃ ty keys, a.ut[key]? = some ty ∧ ty.kind = .tup (keys.map .other) ∧
    (∀ ut, Agrees ut a →
      Spans ResolvedTyKind.components ut (mentionsAll (D.find · item.scopes) item.fieldTys) keys) ∧
    ∀ ut, Agrees ut a →
      Spans ResolvedTyKind.fields ut (holdsAll (D.find · item.scopes) item.fieldTys) keys

section Define

variable {D : StructDecls} {a : Analyzer}

/-- The table after writing the kind of a key. -/
theorem Analyzer.getElem?_setTypeKind (key key' : TypeKey) (kind : ResolvedTyKind) :
    (a.setTypeKind key kind).ut[key']? =
      if key = key' then a.ut[key']?.map fun ty => { ty with kind := kind } else a.ut[key']? := by
  rw [setTypeKind, List.getElem?_modify]
  split <;> simp

/-- The scopes are not touched. -/
theorem setTypeKind_types (a : Analyzer) (key : TypeKey) (kind : ResolvedTyKind) :
    (a.setTypeKind key kind).types = a.types := rfl

/-- A struct gets its fields. -/
theorem StructDecls.Declares.setTypeKind (h : D.Declares a) {i : Nat} (hi : i < D.items.length)
    {keys : List TypeKey} (hkeys : ∀ key ∈ keys, key < a.ut.length) :
    D.Declares (a.setTypeKind (firstKey + i) (.tup (keys.map .other))) := by
  obtain ⟨old, hold, hstruct⟩ := h.struct i hi
  have hcases : ∀ (key : Nat) ty,
      (a.setTypeKind (firstKey + i) (.tup (keys.map .other))).ut[key]? = some ty →
        a.ut[key]? = some ty ∨ key = firstKey + i ∧ ty = { old with kind := .tup (keys.map .other) } := by
    intro key ty hget
    rw [Analyzer.getElem?_setTypeKind] at hget
    split at hget
    · next heq =>
      rw [← heq, hold] at hget
      cases hget
      exact .inr ⟨heq.symm, rfl⟩
    · exact .inl hget
  have hnew : isNamedStruct { old with kind := .tup (keys.map .other) } := by
    rw [isNamedStruct, Bool.and_eq_true] at hstruct ⊢
    exact ⟨hstruct.1, rfl⟩
  have hnames : old.names.isSome := by
    rw [isNamedStruct, Bool.and_eq_true] at hstruct
    exact hstruct.1
  have hlength : (a.setTypeKind (firstKey + i) (.tup (keys.map .other))).ut.length = a.ut.length :=
    List.length_modify ..
  -- only the written key changes, and it stays a named struct
  exact {
    types := fun symbol scopes =>
      (Analyzer.getTypeInScopes_congr (setTypeKind_types a _ _) symbol scopes).trans
        (h.types symbol scopes)
    preludes := fun key hkey => by
      rw [Analyzer.getElem?_setTypeKind, if_neg, h.preludes key hkey]
      rintro rfl
      exact absurd hkey (Nat.not_lt.mpr (Nat.le_add_right firstKey i))
    struct := fun j hj => by
      rw [Analyzer.getElem?_setTypeKind]
      split
      · next heq =>
        rw [← heq, hold]
        exact ⟨_, rfl, hnew⟩
      · exact h.struct j hj
    grounded := fun key ty hget hnone k hk => by
      rcases hcases key ty hget with hget | ⟨rfl, rfl⟩
      · exact h.grounded key ty hget hnone k hk
      · rw [show old.names = none from hnone] at hnames
        cases hnames
    namedStructs := fun key ty hget hsome => by
      rcases hcases key ty hget with hget | ⟨rfl, rfl⟩
      · exact h.namedStructs key ty hget hsome
      · exact hnew
    named := fun key ty hget hsome => by
      rcases hcases key ty hget with hget | ⟨rfl, rfl⟩
      · exact h.named key ty hget hsome
      · exact .inr ⟨i, hi, rfl⟩
    never := fun key ty hget hmem => by
      rcases hcases key ty hget with hget | ⟨rfl, rfl⟩
      · exact h.never key ty hget hmem
      · obtain ⟨k, -, heq⟩ := List.mem_map.mp hmem
        cases heq
    bounded := fun key ty hget k hk => by
      rw [hlength]
      rcases hcases key ty hget with hget | ⟨rfl, rfl⟩
      · exact h.bounded key ty hget k hk
      · obtain ⟨k', hk', heq⟩ := List.mem_map.mp hk
        cases heq
        exact hkeys k hk' }

/-- What the definitions of structs keep: the types that do not change, and the other structs. -/
structure Keeps (a a' : Analyzer) (keys : List TypeKey) : Prop where
  agrees : ∀ ut, Agrees ut a' → Agrees ut a
  others : ∀ key ty, a.ut[key]? = some ty → key ∉ keys → a'.ut[key]? = some ty
  types : a'.types = a.types

/-- A struct takes its fields, and no other struct changes. -/
theorem defineStruct_outcome (h : D.Declares a) (item : StructItem) {i : Nat}
    (hi : i < D.items.length) :
    Outcome (a.defineStruct item (firstKey + i)) (faultAll (D.find · item.scopes) item.fieldTys)
      fun a' => D.Declares a' ∧ D.Defined a' item (firstKey + i) ∧ Keeps a a' [firstKey + i] := by
  rw [Analyzer.defineStruct]
  refine (resolveTypes_outcome item.scopes item.fieldTys h).map fun r hr hres => ?_
  obtain ⟨keys, hkeys, -, hres, -⟩ := hres
  obtain ⟨old, hold, hstruct⟩ := hres.declares.struct i hi
  -- tables that agree after the write agreed before: the written key has a name
  have hagrees : ∀ ut, Agrees ut (r.2.setTypeKind (firstKey + i) (.tup r.1)) → Agrees ut r.2 := by
    intro ut hagrees key ty hget hor
    refine hagrees key ty ?_ hor
    rw [Analyzer.getElem?_setTypeKind, if_neg, hget]
    rintro rfl
    rw [hold] at hget
    cases hget
    rcases hor with hlt | hnone
    · omega
    · rw [isNamedStruct, hnone] at hstruct
      cases hstruct
  refine .ok ⟨?_, ⟨{ old with kind := .tup r.1 }, keys, ?_, ?_, fun ut hut => ?_, fun ut hut => ?_⟩,
    fun ut hut => ?_, fun key ty hget hkey => ?_, hres.grows.2⟩
  · rw [hkeys]
    exact hres.declares.setTypeKind hi hres.bounded
  · rw [Analyzer.getElem?_setTypeKind, if_pos rfl, hold]
    rfl
  · rw [hkeys]
  · exact hres.mentions ut (hagrees ut hut)
  · exact hres.holds ut (hagrees ut hut)
  · exact (hagrees ut hut).of_grows hres.grows
  · rw [Analyzer.getElem?_setTypeKind, if_neg fun heq => hkey (List.mem_singleton.mpr heq.symm)]
    exact hres.grows.getElem? hget

/-- Every struct of the list gets its fields. -/
theorem defineStructs_outcome (l : List (StructItem × TypeKey)) (h : D.Declares a)
    (hl : ∀ p ∈ l, ∃ i < D.items.length, p.2 = firstKey + i) (hnodup : (l.map Prod.snd).Nodup) :
    Outcome (Analyzer.defineStructs l a) (D.fieldFault (l.map Prod.fst)) fun a' =>
      D.Declares a' ∧ (∀ p ∈ l, D.Defined a' p.1 p.2) ∧ Keeps a a' (l.map Prod.snd) := by
  induction l generalizing a with
  | nil => exact .ok ⟨h, nofun, fun _ => id, fun _ _ hget _ => hget, rfl⟩
  | cons p l ih =>
    obtain ⟨item, key⟩ := p
    obtain ⟨i, hi, rfl⟩ : ∃ i < D.items.length, key = firstKey + i := hl _ List.mem_cons_self
    rw [Analyzer.defineStructs]
    refine (defineStruct_outcome h item hi).bind fun a₁ _ hdefine => ?_
    obtain ⟨h₁, hdefined, hkeeps⟩ := hdefine
    obtain ⟨hnot, hnodup⟩ := List.nodup_cons.mp hnodup
    refine (ih h₁ (fun p hp => hl p (List.mem_cons_of_mem _ hp)) hnodup).imp fun a' _ hrest => ?_
    obtain ⟨h', hdefineds, hkeeps'⟩ := hrest
    refine ⟨h', fun p hp => ?_, fun ut hut => hkeeps.agrees ut (hkeeps'.agrees ut hut), ?_,
      hkeeps'.types.trans hkeeps.types⟩
    · rcases List.mem_cons.mp hp with rfl | hp
      · obtain ⟨ty, keys, hget, hkind, hmentions, hholds⟩ := hdefined
        exact ⟨ty, keys, hkeeps'.others _ ty hget hnot, hkind,
          fun ut hut => hmentions ut (hkeeps'.agrees ut hut),
          fun ut hut => hholds ut (hkeeps'.agrees ut hut)⟩
      · exact hdefineds p hp
    · intro key ty hget hkey
      obtain ⟨hne, hkey⟩ := not_or.mp (mt List.mem_cons.mpr hkey)
      exact hkeeps'.others key ty (hkeeps.others key ty hget (mt List.mem_singleton.mp hne)) hkey

end Define

/-- What the analysis makes of the declarations. -/
theorem StructDecls.analyse_outcome (D : StructDecls) : Outcome D.analyse D.fault fun a =>
    D.Declares a ∧ ∀ i item, D.items[i]? = some item →
      D.Defined a item (firstKey + i) ∧ a.types.lookup (item.father, item.ident) = some (firstKey + i) := by
  -- before the first item the scopes hold `String` alone
  have hnames : ∀ p, ((Analyzer.new D.crate).types.lookup p).isSome ↔
      p ∈ [((0 : NodeId), ("String" : Symbol))] := by
    intro p
    rw [Analyzer.new, ← AList.insert_empty, HashMap.lookup_insert_ite, AList.lookup_empty,
      List.mem_singleton]
    split
    · next heq => simp only [heq, Option.isSome_some]
    · next hne => simp only [hne, Option.isSome_none, Bool.false_eq_true]
  rw [analyse, fault]
  refine (collectStructs_outcome D.items _ hnames).bind fun r _ hcollect => ?_
  obtain ⟨hkeys, hut, htypes, hitems⟩ := hcollect
  have hdeclares : D.Declares r.2 := declares_of_collected hut htypes
  have hlen : r.1.length = D.items.length := by
    rw [hkeys, List.length_range']
  have hfst : (D.items.zip r.1).map Prod.fst = D.items := List.map_fst_zip hlen.ge
  have hsnd : (D.items.zip r.1).map Prod.snd = r.1 := List.map_snd_zip hlen.le
  have hmem : ∀ p ∈ D.items.zip r.1, ∃ i < D.items.length, p.2 = firstKey + i := by
    intro p hp
    have hp : p.2 ∈ r.1 := (List.of_mem_zip hp).2
    rw [hkeys, List.mem_range'_1] at hp
    exact ⟨p.2 - firstKey, Nat.sub_lt_left_of_lt_add hp.1 hp.2, (Nat.add_sub_cancel' hp.1).symm⟩
  have hdefine := defineStructs_outcome (D.items.zip r.1) hdeclares hmem (by
    rw [hsnd, hkeys]
    exact List.nodup_range')
  rw [hfst] at hdefine
  refine hdefine.imp fun a _ hdone => ⟨hdone.1, fun i item hitem => ⟨?_, ?_⟩⟩
  swap
  · rw [hdone.2.2.types]
    exact hitems i item hitem
  refine hdone.2.1 (item, firstKey + i) (List.mem_of_getElem? (i := i) ?_)
  rw [List.getElem?_zip_eq_some, hkeys, List.getElem?_range' (List.getElem?_eq_some_iff.mp hitem).1,
    Nat.one_mul]
  exact ⟨hitem, rfl⟩

/-! ## Mentioned structs -/

section Mentions

variable {D : StructDecls} {scopes : List NodeId} {j : Nat}

mutual
/-- Mentioned structs are structs of the crate. -/
theorem lt_of_mem_mentions (ty : Ty) (h : j ∈ ty.mentions (D.find · scopes)) : j < D.items.length := by
  cases ty with
  | array inner len => exact lt_of_mem_mentions inner h
  | ref inner mutbl => exact lt_of_mem_mentions inner h
  | tup tys force => exact lt_of_mem_mentionsAll tys h
  | path symbol =>
    rw [Ty.mentions] at h
    split at h
    · next i hi =>
      obtain rfl := List.mem_singleton.mp h
      exact StructDecls.lt_of_find hi
    · cases h
  | _ => cases h

/-- The same for several types. -/
theorem lt_of_mem_mentionsAll (tys : List Ty) (h : j ∈ mentionsAll (D.find · scopes) tys) :
    j < D.items.length := by
  cases tys with
  | nil => cases h
  | cons ty tys =>
    rcases List.mem_append.mp h with h | h
    · exact lt_of_mem_mentions ty h
    · exact lt_of_mem_mentionsAll tys h
end

mutual
/-- What is held is mentioned. -/
theorem mem_mentions_of_mem_holds (ty : Ty) (h : j ∈ ty.holds (D.find · scopes)) :
    j ∈ ty.mentions (D.find · scopes) := by
  cases ty with
  | array inner len => exact mem_mentions_of_mem_holds inner h
  | tup tys force => exact mem_mentionsAll_of_mem_holdsAll tys h
  | path symbol => exact h
  | _ => cases h

/-- The same for several types. -/
theorem mem_mentionsAll_of_mem_holdsAll (tys : List Ty) (h : j ∈ holdsAll (D.find · scopes) tys) :
    j ∈ mentionsAll (D.find · scopes) tys := by
  cases tys with
  | nil => cases h
  | cons ty tys =>
    rcases List.mem_append.mp h with h | h
    · exact List.mem_append_left _ (mem_mentions_of_mem_holds ty h)
    · exact List.mem_append_right _ (mem_mentionsAll_of_mem_holdsAll tys h)
end

end Mentions

/-! ## Later tables -/

/-- More types are interned, made of those there are. -/
inductive Analyzer.Interns : Analyzer → Analyzer → Prop
  | refl (a : Analyzer) : Interns a a
  | intern {a a' : Analyzer} {ty : ResolvedTy} (h : Interns a a') (hnames : ty.names = none)
      (hparts : ∀ k : Nat, .other k ∈ ty.kind.components → k < a'.ut.length) :
      Interns a (a'.internType ty).2

/-- What stays true of the table. -/
structure StructDecls.Regular (D : StructDecls) (a : Analyzer) : Prop where
  grounded : a.Grounded
  namedStructs : a.NamedStructs
  named : ∀ (key : Nat) (ty : ResolvedTy), a.ut[key]? = some ty → ty.names.isSome →
    key = stringKey ∧ ty.kind = .placeholder ∨ ∃ i < D.items.length, key = firstKey + i
  bounded : ∀ (key : Nat) (ty : ResolvedTy), a.ut[key]? = some ty →
    ∀ k : Nat, .other k ∈ ty.kind.components → k < a.ut.length

section Later

variable {D : StructDecls} {a a' : Analyzer}

/-- After the definitions the table is regular. -/
theorem StructDecls.Declares.regular (h : D.Declares a) : D.Regular a where
  grounded := h.grounded
  namedStructs := h.namedStructs
  named key ty hget hsome := by
    refine (h.named key ty hget hsome).imp_left fun hkey => ⟨hkey, ?_⟩
    rw [hkey, h.preludes stringKey (by decide)] at hget
    cases hget
    rfl
  bounded := h.bounded

/-- A type interned later keeps it so. -/
theorem StructDecls.Regular.internType (h : D.Regular a) {ty : ResolvedTy} (hnames : ty.names = none)
    (hparts : ∀ k : Nat, .other k ∈ ty.kind.components → k < a.ut.length) :
    D.Regular (a.internType ty).2 := by
  have hcases : ∀ (key : Nat) ty', (a.internType ty).2.ut[key]? = some ty' →
      a.ut[key]? = some ty' ∨ key = a.ut.length ∧ ty' = ty := Analyzer.getElem?_internType ty
  exact {
    grounded := fun key ty' hget hnone k hk => by
      rcases hcases key ty' hget with hget | ⟨rfl, rfl⟩
      · exact h.grounded key ty' hget hnone k hk
      · exact hparts k hk
    namedStructs := fun key ty' hget hsome => by
      rcases hcases key ty' hget with hget | ⟨rfl, rfl⟩
      · exact h.namedStructs key ty' hget hsome
      · rw [hnames] at hsome
        cases hsome
    named := fun key ty' hget hsome => by
      rcases hcases key ty' hget with hget | ⟨rfl, rfl⟩
      · exact h.named key ty' hget hsome
      · rw [hnames] at hsome
        cases hsome
    bounded := fun key ty' hget k hk => by
      refine Nat.lt_of_lt_of_le ?_ (a.grows_internType ty).length_le
      rcases hcases key ty' hget with hget | ⟨rfl, rfl⟩
      · exact h.bounded key ty' hget k hk
      · exact hparts k hk }

/-- Types are only added. -/
theorem Analyzer.Interns.grows (h : a.Interns a') : a.Grows a' := by
  induction h with
  | refl => exact .refl a
  | intern _ _ _ ih => exact ih.trans (grows_internType _ _)

/-- However many are interned later. -/
theorem StructDecls.Regular.interns (h : D.Regular a) (hlater : a.Interns a') : D.Regular a' := by
  induction hlater with
  | refl => exact h
  | intern _ hnames hparts ih => exact ih.internType hnames hparts

/-- The type behind a key of the table. -/
theorem Analyzer.probeKey_of_getElem? {key : TypeKey} {ty : ResolvedTy} (h : a.ut[key]? = some ty) :
    a.probeKey key = ty := by
  simp only [probeKey, List.getD_eq_getElem?_getD, h, Option.getD_some]

/-- A table agrees with every earlier one. -/
theorem Analyzer.Grows.agrees (h : a.Grows a') : Agrees a'.probeKey a :=
  fun _ _ hget _ => Analyzer.probeKey_of_getElem? (h.getElem? hget)

end Later

/-! ## The functions that follow the keys -/

/-- They return for all types of the table. -/
structure ConsumersReturn (a : Analyzer) : Prop where
  probe : ∀ key < a.ut.length, ∀ removeSelf alter,
    Fuel.Returns (probeTypeInstanceImpl a.probeKey removeSelf alter · (.other key))
  impls : ∀ key < a.ut.length, ∀ impls, Fuel.Returns (getImpls a.probeKey impls · (.other key))
  search : ∀ key < a.ut.length, ∀ impls symbol,
    Fuel.Returns (searchValueInImpl a.probeKey impls · (.other key) symbol)
  removeSelf : ∀ key < a.ut.length, ∀ target,
    Fuel.Returns (removeSelfTypeImpl target · (.other key) a)
  transform : ∀ key < a.ut.length, ∀ t cfg,
    Fuel.Returns (transformInternedTyImpl a.probeKey t · (.other key) cfg)
  bodies : ∀ t, Fuel.Returns (addStructType a t)
  layout : ∀ key < a.ut.length, ∀ t fuel bodies fuel' cfg ty,
    addStructType a t fuel = some (.ok bodies) →
    transformInternedTyImpl a.probeKey t fuel' (.other key) cfg = some (.ok ty) →
    Fuel.Returns (layoutOf t bodies · ty)

section Consumers

variable {D : StructDecls} {a a' : Analyzer}

/-- They return where no chain of parts is infinite. -/
theorem StructDecls.Regular.consumersReturn (h : D.Regular a)
    (hacc : ∀ key < a.ut.length, Acc a.probeKey.PartOf (.other key)) : ConsumersReturn a where
  probe key hkey _ _ := returns_probeTypeInstanceImpl (hacc key hkey)
  impls key hkey _ := returns_getImpls (hacc key hkey)
  search key hkey _ _ := returns_searchValueInImpl (hacc key hkey)
  removeSelf key hkey target := by
    -- the keys of a nameless type are below its own, so the key bounds the stack
    refine ⟨key + 2, fun m hm => ?_⟩
    have htotal : ∃ new a', removeSelfTypeImpl target m (.other key) a = some (new, a') ∧ a.ut <+: a'.ut :=
      removeSelfTypeImpl_total h.grounded hkey (Nat.lt_of_succ_le hm) List.prefix_rfl
    obtain ⟨new, a', hnew, -⟩ := htotal
    exact Option.isSome_of_eq_some hnew
  transform key hkey t cfg :=
    ⟨key + 2, fun m hm => isSome_transformInternedTyImpl h.grounded h.namedStructs hkey
      (Nat.lt_of_succ_le hm) cfg⟩
  bodies t := by
    -- the bodies are as many as the structs, and their fields are keys of the table
    refine ⟨a.ut.length + 2, fun m hm => isSome_setBodies (fun s hs => isSome_transformAll ?_) _⟩
    intro i hi
    have hkind : (a.probeKey s.1).kind = .tup s.2 := Analyzer.kind_of_mem_structs hs
    obtain ⟨ty, hget⟩ : ∃ ty, a.ut[s.1]? = some ty := by
      refine Option.ne_none_iff_exists'.mp fun hnone => ?_
      rw [Analyzer.probeKey, List.getD_eq_getElem?_getD, hnone] at hkind
      cases hkind
    cases i with
    | never =>
      obtain ⟨m, rfl⟩ : ∃ n, m = n + 1 := ⟨m - 1, by omega⟩
      rfl
    | other k =>
      rw [Analyzer.probeKey_of_getElem? hget] at hkind
      have hk := h.bounded s.1 ty hget k (by rw [hkind]; exact hi)
      exact isSome_transformInternedTyImpl h.grounded h.namedStructs hk (by omega) .faithful
  layout key hkey t fuel bodies fuel' cfg ty hbodies hty :=
    returns_layoutOf hbodies (Subrelation.accessible TypeTable.HeldBy.partOf (hacc key hkey)) hty

end Consumers

/-! ## Chains of parts -/

/-- The parts that count follow the edges between the structs. -/
def StructDecls.Follows (D : StructDecls) (a : Analyzer) (parts : ResolvedTyKind → List TypeIntern)
    (edge : Nat → Nat → Prop) : Prop :=
  ∀ i < D.items.length, ∃ ty keys js, a.ut[firstKey + i]? = some ty ∧
    parts ty.kind = keys.map .other ∧ (∀ j, edge i j ↔ j ∈ js) ∧ (∀ j ∈ js, j < D.items.length) ∧
      ∀ ut, Agrees ut a → Spans parts ut js keys

section Follows

variable {D : StructDecls} {a a' : Analyzer}

/-- The structs that a given item mentions. -/
theorem StructDecls.Mentions.iff {i j : Nat} {item : StructItem} (hitem : D.items[i]? = some item) :
    D.Mentions i j ↔ j ∈ mentionsAll (D.find · item.scopes) item.fieldTys := by
  constructor
  · rintro ⟨item', hitem', hj⟩
    rw [hitem] at hitem'
    cases hitem'
    exact hj
  · exact fun hj => ⟨item, hitem, hj⟩

/-- The structs that it holds. -/
theorem StructDecls.Holds.iff {i j : Nat} {item : StructItem} (hitem : D.items[i]? = some item) :
    D.Holds i j ↔ j ∈ holdsAll (D.find · item.scopes) item.fieldTys := by
  constructor
  · rintro ⟨item', hitem', hj⟩
    rw [hitem] at hitem'
    cases hitem'
    exact hj
  · exact fun hj => ⟨item, hitem, hj⟩

variable (hdefined : ∀ i item, D.items[i]? = some item → D.Defined a item (firstKey + i))
include hdefined

/-- Parts follow the mentions. -/
theorem follows_mentions : D.Follows a ResolvedTyKind.components D.Mentions := by
  intro i hi
  have hitem := List.getElem?_eq_getElem hi
  obtain ⟨ty, keys, hget, hkind, hmentions, -⟩ := hdefined i _ hitem
  exact ⟨ty, keys, _, hget, by rw [hkind]; rfl, fun j => StructDecls.Mentions.iff hitem,
    fun j hj => lt_of_mem_mentionsAll _ hj, hmentions⟩

/-- Fields follow what is held. -/
theorem follows_holds : D.Follows a ResolvedTyKind.fields D.Holds := by
  intro i hi
  have hitem := List.getElem?_eq_getElem hi
  obtain ⟨ty, keys, hget, hkind, -, hholds⟩ := hdefined i _ hitem
  exact ⟨ty, keys, _, hget, by rw [hkind]; rfl, fun j => StructDecls.Holds.iff hitem,
    fun j hj => lt_of_mem_mentionsAll _ (mem_mentionsAll_of_mem_holdsAll _ hj), hholds⟩

end Follows

section Chains

variable {D : StructDecls} {a a' : Analyzer} {parts : ResolvedTyKind → List TypeIntern}
  {edge : Nat → Nat → Prop} (hfollows : D.Follows a parts edge)
include hfollows

/-- The structs behind the edges are reached. -/
theorem transGen_part (hlt : ∀ i j, edge i j → i < D.items.length) {i j : Nat}
    (hij : TransGen edge i j) : TransGen (a.probeKey.Part parts) (structIntern j) (structIntern i) := by
  have hstep : ∀ {i j}, edge i j →
      TransGen (a.probeKey.Part parts) (structIntern j) (structIntern i) := by
    intro i j hij
    obtain ⟨ty, keys, js, hget, hparts, hjs, -, hspans⟩ := hfollows i (hlt i j hij)
    obtain ⟨key, hkey, hreach⟩ :=
      (hspans _ (Analyzer.Grows.refl a).agrees).reaches j ((hjs j).mp hij)
    refine .tail' hreach ?_
    show _ ∈ parts (a.probeKey (firstKey + i)).kind
    rw [Analyzer.probeKey_of_getElem? hget, hparts]
    exact List.mem_map_of_mem hkey
  induction hij with
  | single hij => exact hstep hij
  | tail _ hjk ih => exact (hstep hjk).trans ih

variable (hlater : a.Interns a') (hacyclic : ∀ i, ¬TransGen edge i i)
include hlater hacyclic

/-- Where the edges have no cycle, no chain of parts is infinite. -/
theorem acc_structIntern {i : Nat} (hi : i < D.items.length) :
    Acc (a'.probeKey.Part parts) (structIntern i) := by
  have hwf : WellFounded fun j i : Fin D.items.length => edge i j := by
    refine Fuel.wellFounded_of_acyclic fun i hloop => hacyclic i ?_
    exact (hloop.swap.lift Fin.val fun _ _ hij => hij)
  obtain ⟨i, rfl⟩ : ∃ i' : Fin D.items.length, i' = i := ⟨⟨i, hi⟩, rfl⟩
  induction i using hwf.induction with
  | _ i ih =>
    obtain ⟨ty, keys, js, hget, hparts, hjs, hlt, hspans⟩ := hfollows i i.isLt
    refine .intro _ fun part hpart => ?_
    have hpart : part ∈ parts (a'.probeKey (firstKey + i)).kind := hpart
    rw [Analyzer.probeKey_of_getElem? (hlater.grows.getElem? hget), hparts] at hpart
    obtain ⟨key, hkey, rfl⟩ := List.mem_map.mp hpart
    refine (hspans _ hlater.grows.agrees).acc (fun j hj => ?_) key hkey
    exact ih ⟨j, hlt j hj⟩ ((hjs j).mpr hj) (hlt j hj)

/-- Where the edges have no cycle, no type of a later table has an infinite chain either. -/
theorem acc_of_interns (h : D.Declares a)
    (hsub : ∀ kind : ResolvedTyKind, ∀ i ∈ parts kind, i ∈ kind.components) {key : Nat}
    (hkey : key < a'.ut.length) : Acc (a'.probeKey.Part parts) (.other key) := by
  have hregular : D.Regular a' := h.regular.interns hlater
  induction key using Nat.strongRecOn with
  | ind key ih =>
    have hget := List.getElem?_eq_getElem hkey
    have hprobe := Analyzer.probeKey_of_getElem? hget
    -- a nameless type is made of smaller keys, and a struct was settled above
    cases hnames : a'.ut[key].names with
    | none =>
      refine .intro _ fun part hpart => ?_
      have hpart : part ∈ parts (a'.probeKey key).kind := hpart
      rw [hprobe] at hpart
      cases part with
      | never => exact .intro _ nofun
      | other k =>
        have hlt := hregular.grounded key _ hget hnames k (hsub _ _ hpart)
        exact ih k hlt (hlt.trans hkey)
    | some names =>
      rcases hregular.named key _ hget (Option.isSome_of_eq_some hnames) with ⟨-, hkind⟩ | ⟨i, hi, rfl⟩
      · refine .intro _ fun part hpart => ?_
        have hpart : part ∈ parts (a'.probeKey key).kind := hpart
        have hpart := hsub _ _ hpart
        rw [hprobe, hkind] at hpart
        cases hpart
      · exact acc_structIntern hfollows hlater hacyclic hi

end Chains

/-- A struct that mentions itself is expanded for ever. -/
theorem not_consumersReturn {D : StructDecls} {a : Analyzer} (h : D.Declares a)
    (hdefined : ∀ i item, D.items[i]? = some item → D.Defined a item (firstKey + i)) {i : Nat}
    (hi : TransGen D.Mentions i i) : ¬ConsumersReturn a := by
  intro hreturn
  have hlt : firstKey + i < a.ut.length := by
    obtain ⟨j, ⟨item, hitem, -⟩, -⟩ := TransGen.head'_iff.mp hi
    obtain ⟨ty, hget, -⟩ := h.struct i (List.getElem?_eq_some_iff.mp hitem).1
    exact (List.getElem?_eq_some_iff.mp hget).1
  obtain ⟨fuel, hfuel⟩ := (hreturn.probe _ hlt false none).exists
  refine Fuel.not_transGen_of_acc (acc_of_probeTypeInstance h.never_notMem hfuel) ?_
  refine transGen_part (follows_mentions hdefined) (fun i j => ?_) hi
  rintro ⟨item, hitem, -⟩
  exact (List.getElem?_eq_some_iff.mp hitem).1

/-- The analyser refuses the declarations at their first fault and accepts all others. Then the
functions that follow the keys return for all types, also those interned later, just if no struct
mentions itself, by value or behind a reference. -/
theorem analyse_consumersReturn_iff (D : StructDecls) :
    match D.fault with
    | some e => D.analyse = .error e
    | none => ∃ a, D.analyse = .ok a ∧
        ((∀ a', a.Interns a' → ConsumersReturn a') ↔ ∀ i, ¬TransGen D.Mentions i i) := by
  have houtcome := D.analyse_outcome
  cases hfault : D.fault with
  | some e =>
    rw [hfault] at houtcome
    exact houtcome
  | none =>
    rw [hfault] at houtcome
    obtain ⟨a, ha, h, hitems⟩ := houtcome
    have hdefined := fun i item hitem => (hitems i item hitem).1
    refine ⟨a, ha, fun hreturn i hi => ?_, fun hacyclic a' hlater => ?_⟩
    · exact not_consumersReturn h hdefined hi (hreturn a (.refl a))
    · exact (h.regular.interns hlater).consumersReturn fun key hkey =>
        acc_of_interns (follows_mentions hdefined) hlater hacyclic h (fun _ _ => id) hkey

end Structs
