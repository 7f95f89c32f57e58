import C0mpiler.Semantics.Resolve
import Mathlib

/-!
# The tables of the analyser

A table is read through three views: the shape of a scope (its father and the names of its items),
its values and its bindings. Every operation lets the tables grow, and only `add_bindings` touches
the bindings. A chain of scopes carries the ribs of an environment, and along it `search_value` is a
walk over these ribs.
-/

namespace Resolve

open Lexical

namespace Analyzer

/-! ## Views -/

/-- The parent of a scope and the names of its items. -/
def shape (a : Analyzer) (id : NodeId) : Option (Option NodeId × List Symbol) :=
  (a.scopes id).map fun scope => (scope.parent, scope.items)

/-- The value of a name in a scope. -/
def valueAt (a : Analyzer) (id : NodeId) (s : Symbol) : Option PlaceValue :=
  (a.scopes id).bind fun scope => scope.values s

/-- The binding of a name in a scope. -/
def bindingAt (a : Analyzer) (id : NodeId) (s : Symbol) : Option NodeId :=
  (a.scopes id).bind fun scope => scope.bindings s

variable {a a' : Analyzer} {id : NodeId} {s : Symbol}

section

variable (a : Analyzer) (id : NodeId) (scope : Scope) (id' : NodeId) (s : Symbol)

/-- The three views after writing a scope: its father and items. -/
theorem setScope_shape : (a.setScope id scope).shape id' =
    if id' = id then some (scope.parent, scope.items) else a.shape id' := by
  unfold shape setScope Function.update
  split <;> simp_all

/-- The values. -/
theorem setScope_valueAt : (a.setScope id scope).valueAt id' s =
    if id' = id then scope.values s else a.valueAt id' s := by
  unfold valueAt setScope Function.update
  split <;> simp_all

/-- The bindings. -/
theorem setScope_bindingAt : (a.setScope id scope).bindingAt id' s =
    if id' = id then scope.bindings s else a.bindingAt id' s := by
  unfold bindingAt setScope Function.update
  split <;> simp_all

end

/-! ## Growing -/

/-- Scopes and values stay, and so do the bindings when `quiet`. -/
structure Grows (quiet : Prop) (a a' : Analyzer) : Prop where
  shape : ∀ id sh, a.shape id = some sh → a'.shape id = some sh
  values : ∀ id s, (a.valueAt id s).isSome → (a'.valueAt id s).isSome
  bindings : quiet → ∀ id s, a'.bindingAt id s = a.bindingAt id s

namespace Grows

variable {quiet quiet' : Prop} {a a' a'' : Analyzer}

theorem refl (a : Analyzer) : Grows quiet a a := ⟨fun _ _ h => h, fun _ _ h => h, fun _ _ _ => rfl⟩

theorem trans (h : Grows quiet a a') (h' : Grows quiet a' a'') : Grows quiet a a'' where
  shape id sh hsh := h'.shape id sh (h.shape id sh hsh)
  values id s hs := h'.values id s (h.values id s hs)
  bindings hq id s := (h'.bindings hq id s).trans (h.bindings hq id s)

theorem mono (h : Grows quiet a a') (hq : quiet' → quiet) : Grows quiet' a a' :=
  ⟨h.shape, h.values, fun hq' => h.bindings (hq hq')⟩

/-- What is in the tables already is not touched by a change of the log. -/
theorem of_scopes (h : a'.scopes = a.scopes) : Grows quiet a a' where
  shape id sh hsh := by
    unfold Analyzer.shape at hsh ⊢
    rwa [h]
  values id s hs := by
    unfold valueAt at hs ⊢
    rwa [h]
  bindings _ id s := by
    unfold bindingAt
    rw [h]

/-- A scope stays. -/
theorem shape_isSome (h : Grows quiet a a') {id : NodeId} (hid : (a.shape id).isSome) :
    (a'.shape id).isSome := by
  obtain ⟨sh, hsh⟩ := Option.isSome_iff_exists.mp hid
  rw [h.shape id sh hsh]
  rfl

end Grows

/-- The views of a scope that is there. -/
theorem scope_views {scope : Scope} (h : a.scopes id = some scope) :
    a.shape id = some (scope.parent, scope.items) ∧ (∀ s, a.valueAt id s = scope.values s) ∧
      ∀ s, a.bindingAt id s = scope.bindings s := by
  unfold shape valueAt bindingAt
  rw [h]
  exact ⟨rfl, fun _ => rfl, fun _ => rfl⟩

/-- The views of a scope that is not there. -/
theorem no_scope_views (h : a.scopes id = none) :
    a.shape id = none ∧ (∀ s, a.valueAt id s = none) ∧ ∀ s, a.bindingAt id s = none := by
  unfold shape valueAt bindingAt
  rw [h]
  exact ⟨rfl, fun _ => rfl, fun _ => rfl⟩

/-- `add_scope` adds an empty scope under a new id. -/
theorem addScope_spec {father : NodeId} {items : List Symbol}
    (h : a.addScope id father items = some a') :
    a.shape id = none ∧ a' = a.setScope id ⟨false, father, items, fun _ => none, fun _ => none⟩ ∧
      a'.shape id = some (some father, items) ∧ (∀ id' s, a'.valueAt id' s = a.valueAt id' s) ∧
      ∀ quiet, Grows quiet a a' := by
  unfold addScope at h
  split at h
  · cases h
  · next hnone =>
    cases h
    obtain ⟨hshape, hvalues, hbindings⟩ := no_scope_views hnone
    have hvalueAt : ∀ id' s, (a.setScope id ⟨false, father, items, fun _ => none,
        fun _ => none⟩).valueAt id' s = a.valueAt id' s := by
      intro id' s
      rw [setScope_valueAt]
      split
      · next heq => rw [heq, hvalues]
      · rfl
    refine ⟨hshape, rfl, ?_, hvalueAt, fun quiet => ⟨?_, ?_, ?_⟩⟩
    · rw [setScope_shape, if_pos rfl]
      rfl
    · intro id' sh hsh
      rw [setScope_shape]
      split
      · next heq =>
        rw [heq, hshape] at hsh
        cases hsh
      · exact hsh
    · intro id' s hs
      rwa [hvalueAt]
    · intro _ id' s
      rw [setScope_bindingAt]
      split
      · next heq => rw [heq, hbindings]
      · rfl

/-- A value is put into a scope that is there. -/
theorem setValue_grows {scope : Scope} {quiet : Prop} (hscope : a.scopes id = some scope)
    {value : PlaceValue} :
    Grows quiet a (a.setScope id
      { scope with values := Function.update scope.values s (some value) }) where
  shape id' sh hsh := by
    rw [setScope_shape]
    split
    · next heq =>
      rw [heq, (scope_views hscope).1] at hsh
      exact hsh
    · exact hsh
  values id' s' hs := by
    rw [setScope_valueAt]
    split
    · next heq =>
      rw [heq, (scope_views hscope).2.1] at hs
      show (Function.update scope.values s (some value) s').isSome
      rw [Function.update_apply]
      split
      · rfl
      · exact hs
    · exact hs
  bindings _ id' s' := by
    rw [setScope_bindingAt]
    split
    · next heq => rw [heq, (scope_views hscope).2.2]
    · rfl

/-- Writing one value. -/
theorem setValue_valueAt {scope : Scope} (hscope : a.scopes id = some scope) {value : PlaceValue}
    (id' : NodeId) (s' : Symbol) :
    (a.setScope id { scope with values := Function.update scope.values s (some value) }).valueAt id' s'
      = if id' = id ∧ s' = s then some value else a.valueAt id' s' := by
  rw [setScope_valueAt]
  by_cases hid : id' = id
  · subst hid
    rw [(scope_views hscope).2.1]
    by_cases hs : s' = s
    · subst hs
      simp
    · simp [hs]
  · simp [hid]

/-- `add_scope_value` and the evaluation of a constant both set one value. -/
structure SetsValue (a a' : Analyzer) (id : NodeId) (s : Symbol) (value : PlaceValue) : Prop where
  grows : ∀ quiet, Grows quiet a a'
  shape : ∀ id', a'.shape id' = a.shape id'
  valueAt : ∀ id' s', a'.valueAt id' s' =
    if id' = id ∧ s' = s then some value else a.valueAt id' s'
  assocs : a'.assocs = a.assocs
  uses : a'.uses = a.uses

/-- What writing a value changes. -/
theorem setsValue {scope : Scope} (hscope : a.scopes id = some scope) (value : PlaceValue) :
    SetsValue a (a.setScope id
      { scope with values := Function.update scope.values s (some value) }) id s value where
  grows _ := setValue_grows hscope
  shape id' := by
    rw [setScope_shape]
    split
    · next heq =>
      rw [heq, (scope_views hscope).1]
      rfl
    · rfl
  valueAt := setValue_valueAt hscope
  assocs := rfl
  uses := rfl

/-- A value is written once only. -/
theorem addScopeValue_sets {value : PlaceValue} (h : a.addScopeValue id s value = some a') :
    SetsValue a a' id s value := by
  obtain ⟨scope, hscope, h⟩ := Option.bind_eq_some_iff.mp h
  split at h
  · cases h
  · cases h
    exact setsValue hscope value

/-- An evaluated constant was declared before. -/
theorem setEvaluated_sets (h : a.setEvaluated id s = some a') :
    SetsValue a a' id s (.constant .evaluated) ∧ (a.valueAt id s).isSome := by
  obtain ⟨scope, hscope, h⟩ := Option.bind_eq_some_iff.mp h
  split at h
  · next hvalue =>
    cases h
    refine ⟨setsValue hscope _, ?_⟩
    rw [(scope_views hscope).2.1, hvalue]
    rfl
  · cases h

/-- A binding is put into a scope that is there. -/
theorem insertBinding_spec {bindingId : NodeId} (h : a.insertBinding id s bindingId = some a') :
    Grows False a a' ∧ (∀ id', a'.shape id' = a.shape id') ∧
      (∀ id' s', a'.valueAt id' s' = a.valueAt id' s') ∧ a'.assocs = a.assocs ∧ a'.uses = a.uses ∧
      ∀ id' s', a'.bindingAt id' s' =
        if id' = id ∧ s' = s then some bindingId else a.bindingAt id' s' := by
  obtain ⟨scope, hscope, h⟩ := Option.bind_eq_some_iff.mp h
  cases h
  obtain ⟨hshape, hvalues, hbindings⟩ := scope_views hscope
  have hshape' : ∀ id', (a.setScope id
      { scope with bindings := Function.update scope.bindings s (some bindingId) }).shape id'
        = a.shape id' := by
    intro id'
    rw [setScope_shape]
    split
    · next heq =>
      rw [heq, hshape]
      rfl
    · rfl
  have hvalues' : ∀ id' s', (a.setScope id
      { scope with bindings := Function.update scope.bindings s (some bindingId) }).valueAt id' s'
        = a.valueAt id' s' := by
    intro id' s'
    rw [setScope_valueAt]
    split
    · next heq => rw [heq, hvalues]
    · rfl
  refine ⟨⟨fun id' sh hsh => (hshape' id').trans hsh, fun id' s' hs => ?_, fun h => h.elim⟩, hshape',
    hvalues', rfl, rfl, fun id' s' => ?_⟩
  · rwa [hvalues']
  · rw [setScope_bindingAt]
    by_cases hid : id' = id
    · subst hid
      rw [hbindings]
      by_cases hs : s' = s
      · subst hs
        simp
      · simp [hs]
    · simp [hid]

/-! ## Walking up -/

/-- The scopes from `start` outwards are the scopes of the ribs. -/
def Chain (a : Analyzer) : Option NodeId → List Rib → Prop
  | none, [] => True
  | some id, rib :: ribs =>
    rib.scope = id ∧ ∃ parent, a.shape id = some (parent, rib.items) ∧ Chain a parent ribs
  | _, _ => False

/-- The scopes around stay when the tables grow. -/
theorem Chain.grows {quiet : Prop} {start : Option NodeId} {ribs : List Rib} (h : a.Chain start ribs)
    (hgrows : Grows quiet a a') : a'.Chain start ribs := by
  induction ribs generalizing start with
  | nil =>
    cases start with
    | none => trivial
    | some id => exact h.elim
  | cons rib ribs ih =>
    cases start with
    | none => exact h.elim
    | some id =>
      obtain ⟨hscope, parent, hshape, hchain⟩ := h
      exact ⟨hscope, parent, hgrows.shape _ _ hshape, ih hchain⟩

/-- Every scope of a chain is there. -/
theorem Chain.mem_shape {start : Option NodeId} {ribs : List Rib} (h : a.Chain start ribs) :
    ∀ rib ∈ ribs, ∃ parent, a.shape rib.scope = some (parent, rib.items) := by
  induction ribs generalizing start with
  | nil => exact fun _ h => nomatch h
  | cons rib ribs ih =>
    cases start with
    | none => exact h.elim
    | some id =>
      obtain ⟨rfl, parent, hshape, hchain⟩ := h
      exact List.forall_mem_cons.mpr ⟨⟨parent, hshape⟩, ih hchain⟩

/-- What the tables have of a name at a rib. -/
def foundAt (a : Analyzer) (s : Symbol) (rib : Rib) : Option ValueIndex :=
  match a.valueAt rib.scope s with
  | some _ => some (.global rib.scope)
  | none => (a.bindingAt rib.scope s).map .binding

/-- `search_value` is a walk over the ribs. -/
theorem searchValue_eq {fuel : Nat} {start : Option NodeId} {ribs : List Rib}
    {found : Option ValueIndex} (hchain : a.Chain start ribs)
    (h : a.searchValue s fuel start = some found) : found = ribs.findSome? (a.foundAt s) := by
  -- the walk and the list of scopes go outwards together
  induction ribs generalizing fuel start with
  | nil =>
    cases start with
    | none =>
      cases fuel <;> cases h <;> rfl
    | some id => exact hchain.elim
  | cons rib ribs ih =>
    cases start with
    | none => exact hchain.elim
    | some id =>
      obtain ⟨rfl, parent, hshape, hchain⟩ := hchain
      cases fuel with
      | zero => cases h
      | succ fuel =>
        obtain ⟨scope, hscope, h⟩ := Option.bind_eq_some_iff.mp h
        obtain ⟨hshape', hvalues, hbindings⟩ := scope_views hscope
        rw [hshape'] at hshape
        rw [List.findSome?_cons]
        unfold foundAt
        rw [hvalues, hbindings]
        split at h
        · next hvalue =>
          cases h
          rw [hvalue]
        · next hvalue hbinding =>
          cases h
          rw [hvalue, hbinding]
          rfl
        · next hvalue hbinding =>
          rw [hvalue, hbinding]
          obtain ⟨rfl, -⟩ := Prod.mk.inj (Option.some.inj hshape)
          exact ih hchain h

end Analyzer

end Resolve
