import Mathlib

/-!
# Lexical scoping

The rules of the language for a name, over the ribs around its use: the blocks, loops, functions and
items that enclose it, the innermost first. A rib of the current function offers the bindings
declared so far, the last one first, and then the items of its block. A rib around the current
function or constant offers its items only.

`Env.found` is what a walk finds that looks at the items of every rib first and at its bindings
next, and never stops at a function. The two agree exactly on the names that are `Clear`.
-/

namespace Lexical

/-- A name in the source. -/
abbrev Symbol := String

/-- The ids of the nodes of the syntax tree. -/
abbrev NodeId := Nat

/-- What a name stands for: a binding, or an item of a scope (`ValueIndexKind`). -/
inductive ValueIndex where
  | binding (bindingId : NodeId)
  | global (scopeId : NodeId)
  deriving DecidableEq, Repr

/-- What one scope declares. -/
structure Rib where
  scope : NodeId
  /-- The names of the items, wherever in the block they stand. -/
  items : List Symbol
  /-- The bindings declared so far, the last one first. -/
  bindings : List (Symbol × NodeId)
  deriving DecidableEq, Repr

namespace Rib

/-- The item of a name in a scope. -/
def item (s : Symbol) (rib : Rib) : Option ValueIndex :=
  if s ∈ rib.items then some (.global rib.scope) else none

/-- The binding of a name in a scope. -/
def binding (s : Symbol) (rib : Rib) : Option ValueIndex := (rib.bindings.lookup s).map .binding

/-- A binding shadows the item of the same block. -/
def decl (s : Symbol) (rib : Rib) : Option ValueIndex := (rib.binding s).or (rib.item s)

/-- The item first. -/
def found (s : Symbol) (rib : Rib) : Option ValueIndex := (rib.item s).or (rib.binding s)

end Rib

/-- The ribs of the current function, and those around it. -/
structure Env where
  here : List Rib
  outer : List Rib
  deriving DecidableEq, Repr

namespace Env

/-- All scopes from the inside out. -/
def ribs (env : Env) : List Rib := env.here ++ env.outer

/-- Enter a scope of the same function. -/
def push (env : Env) (rib : Rib) : Env := { env with here := rib :: env.here }

/-- A function or a constant does not see the locals around it. -/
def leave (env : Env) : Env := ⟨[], env.ribs⟩

/-- The declaration that a name stands for. -/
def lexical (env : Env) (s : Symbol) : Option ValueIndex :=
  (env.here.findSome? (Rib.decl s)).or (env.outer.findSome? (Rib.item s))

/-- What the walk of the analyser finds: in each scope the items first, then the bindings. -/
def found (env : Env) (s : Symbol) : Option ValueIndex := env.ribs.findSome? (Rib.found s)

/-- The innermost rib that has the name: in the current function it has the name once, as an item or
as a binding, and around the function it has it as an item. -/
def Clear (env : Env) (s : Symbol) : Prop :=
  match env.here.find? fun rib => (rib.found s).isSome with
  | some rib => rib.item s = none ∨ rib.binding s = none
  | none => ∀ rib ∈ env.outer.find? fun rib => (rib.found s).isSome, (rib.item s).isSome

instance (env : Env) (s : Symbol) : Decidable (env.Clear s) := by
  unfold Clear
  split <;> infer_instance

@[simp] theorem ribs_push (env : Env) (rib : Rib) : (env.push rib).ribs = rib :: env.ribs := rfl

@[simp] theorem ribs_leave (env : Env) : env.leave.ribs = env.ribs := rfl

end Env

/-! ## Items before bindings -/

namespace Rib

variable {s : Symbol} {rib : Rib}

/-- An item is no binding. -/
theorem item_ne_binding {index : ValueIndex} (hitem : rib.item s = some index) :
    rib.binding s ≠ some index := by
  unfold item at hitem
  unfold binding
  split at hitem
  · cases hitem
    intro h
    obtain ⟨id, -, h⟩ := Option.map_eq_some_iff.mp h
    cases h
  · cases hitem

/-- Where a rib has the name, the two orders agree unless it has it twice. -/
theorem found_eq_decl :
    rib.found s = rib.decl s ↔ rib.item s = none ∨ rib.binding s = none := by
  unfold found decl
  cases hitem : rib.item s with
  | none => simp
  | some i =>
    cases hbinding : rib.binding s with
    | none => simp
    | some b =>
      have hne : i ≠ b := fun h => item_ne_binding hitem (h ▸ hbinding)
      simp [hne]

/-- A scope declares a name where it has an item or a binding of it. -/
theorem decl_eq_none : rib.decl s = none ↔ rib.found s = none := by
  unfold found decl
  simp only [Option.or_eq_none_iff]
  exact and_comm

end Rib

/-- Two searches that agree where a name is found, and both fail elsewhere, stop in the same scope.
-/
theorem findSome_eq_some {s : Symbol} {f : Symbol → Rib → Option ValueIndex} {ribs : List Rib}
    {rib : Rib} (hfind : ribs.find? (fun rib => (rib.found s).isSome) = some rib)
    (hnone : ∀ rib : Rib, rib.found s = none → f s rib = none) (hsome : (f s rib).isSome) :
    ribs.findSome? (f s) = f s rib := by
  induction ribs with
  | nil => cases hfind
  | cons r ribs ih =>
    rw [List.find?_cons] at hfind
    rw [List.findSome?_cons]
    split at hfind
    · cases hfind
      obtain ⟨i, hi⟩ := Option.isSome_iff_exists.mp hsome
      rw [hi]
    · next hr =>
      rw [hnone r (by simpa using hr)]
      exact ih hfind

/-- A search finds nothing where no scope has the name. -/
theorem findSome_eq_none {s : Symbol} {f : Symbol → Rib → Option ValueIndex} {ribs : List Rib}
    (hfind : ribs.find? (fun rib => (rib.found s).isSome) = none)
    (hnone : ∀ rib : Rib, rib.found s = none → f s rib = none) : ribs.findSome? (f s) = none := by
  refine List.findSome?_eq_none_iff.mpr fun rib hrib => hnone rib ?_
  simpa using List.find?_eq_none.mp hfind rib hrib

/-- Searches that agree on every scope agree. -/
theorem findSome_congr {f g : Rib → Option ValueIndex} {ribs : List Rib}
    (h : ∀ rib ∈ ribs, f rib = g rib) : ribs.findSome? f = ribs.findSome? g := by
  induction ribs with
  | nil => rfl
  | cons rib ribs ih =>
    rw [List.findSome?_cons, List.findSome?_cons, h rib List.mem_cons_self,
      ih fun r hr => h r (List.mem_cons_of_mem _ hr)]

/-- The walk finds what the rules say exactly for the clear names. -/
theorem Env.found_eq_lexical {env : Env} {s : Symbol} {index : ValueIndex}
    (h : env.found s = some index) : env.lexical s = some index ↔ env.Clear s := by
  have hitem : ∀ rib : Rib, rib.found s = none → rib.item s = none := fun rib hrib =>
    (Option.or_eq_none_iff.mp hrib).1
  have hdecl : ∀ rib : Rib, rib.found s = none → rib.decl s = none := fun rib hrib =>
    Rib.decl_eq_none.mpr hrib
  unfold found ribs at h
  rw [List.findSome?_append] at h
  unfold lexical Clear
  cases hhere : env.here.find? fun rib => (rib.found s).isSome with
  -- the name is found in this function, where items and bindings may be seen alike
  | some rib =>
    have hsome : (rib.found s).isSome := by simpa using List.find?_some hhere
    have hdsome : (rib.decl s).isSome := by
      rw [Option.isSome_iff_ne_none] at hsome ⊢
      exact mt Rib.decl_eq_none.mp hsome
    rw [findSome_eq_some hhere (fun _ h => h) hsome, Option.or_of_isSome hsome] at h
    rw [findSome_eq_some hhere hdecl hdsome, Option.or_of_isSome hdsome, ← h]
    exact eq_comm.trans (Rib.found_eq_decl)
  -- the name is found around the function, if at all: only items are left there
  | none =>
    rw [findSome_eq_none hhere (fun _ h => h), Option.none_or] at h
    rw [findSome_eq_none hhere hdecl, Option.none_or]
    cases houter : env.outer.find? fun rib => (rib.found s).isSome with
    | none =>
      rw [findSome_eq_none houter fun _ h => h] at h
      cases h
    | some rib =>
      have hsome : (rib.found s).isSome := by simpa using List.find?_some houter
      rw [findSome_eq_some houter (fun _ h => h) hsome] at h
      simp only [Option.mem_def, Option.some.injEq, forall_eq']
      constructor
      · intro hlex
        by_contra hnone
        -- then the binding of the enclosing function was found, and only items are left
        have hitem : rib.item s = none := by simpa using hnone
        unfold Rib.found at h
        rw [hitem, Option.none_or] at h
        obtain ⟨id, -, rfl⟩ := Option.map_eq_some_iff.mp h
        obtain ⟨r, -, hr⟩ := List.exists_of_findSome?_eq_some hlex
        unfold Rib.item at hr
        split at hr <;> cases hr
      · intro his
        rw [findSome_eq_some houter hitem his]
        obtain ⟨i, hi⟩ := Option.isSome_iff_exists.mp his
        unfold Rib.found at h
        rw [hi] at h ⊢
        exact h

end Lexical
