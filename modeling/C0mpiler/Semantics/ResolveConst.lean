import C0mpiler.Semantics.ResolveTables
import Mathlib

/-!
# Constants and the invariant of the tables

A value is in the tables under the name of an item of its scope, a constant that waits for its
evaluation keeps the environment of its declaration, and every lookup that has been made found what
the rules say exactly when the name was clear (`Analyzer.Ok`). The evaluation of constants keeps
this, at whatever moment it happens.
-/

namespace Resolve

open Lexical

/-! ## Lookups -/

namespace Use

/-- What was found is the declaration of the language's rules. -/
def Lexical (u : Use) : Prop := u.env.lexical u.symbol = some u.found

/-- A path of a body: the name is clear at its place. A path of a constant: the item that the rules
give has been defined already. -/
def Clear (u : Use) : Prop :=
  if u.constant then
    ∀ id, u.env.lexical u.symbol = some (.global id) →
      ((u.scopes id).bind fun scope => scope.values u.symbol).isSome
  else u.env.Clear u.symbol

end Use

namespace Analyzer

/-- The environment of a constant: the chain of its scope, seen from an item. -/
structure ConstEnv (a : Analyzer) (scope : NodeId) (env : Env) : Prop where
  here : env.here = []
  chain : a.Chain (some scope) env.ribs

/-- The invariant of the tables: values belong to items of their scope, constants remember the
scopes around them, and no use so far went wrong where it could have. -/
structure Ok (a : Analyzer) : Prop where
  items : ∀ id s, (a.valueAt id s).isSome → ∃ parent items, a.shape id = some (parent, items) ∧ s ∈ items
  unEval : ∀ id s scope exprId e env,
    a.valueAt id s = some (.constant (.unEval scope exprId e env)) → a.ConstEnv scope env
  assocs : ∀ id s scope exprId e env,
    a.assocs id s = some (.unEval scope exprId e env) → a.ConstEnv scope env
  uses : ∀ u ∈ a.uses, u.Lexical ↔ u.Clear

variable {a a' : Analyzer} {id scope : NodeId} {s : Symbol} {env : Env}

/-- The scopes around a constant stay when the tables grow. -/
theorem ConstEnv.grows {quiet : Prop} (h : a.ConstEnv scope env) (hgrows : Grows quiet a a') :
    a'.ConstEnv scope env := ⟨h.here, h.chain.grows hgrows⟩

/-- They depend on the scopes only. -/
theorem ConstEnv.of_scopes (h : a.ConstEnv scope env) (hscopes : a'.scopes = a.scopes) :
    a'.ConstEnv scope env := h.grows (Grows.of_scopes hscopes : Grows True a a')

/-- Leaving the function keeps the scopes. -/
theorem Chain.leave (h : a.Chain (some scope) env.ribs) : a.ConstEnv scope env.leave :=
  ⟨rfl, by rwa [Env.ribs_leave]⟩

/-! ## What keeps the invariant -/

/-- A change that touches neither the values nor the constants. -/
theorem Ok.of_views {quiet : Prop} (h : a.Ok) (hgrows : Grows quiet a a')
    (hvalues : ∀ id s, a'.valueAt id s = a.valueAt id s) (hassocs : a'.assocs = a.assocs)
    (huses : a'.uses = a.uses) : a'.Ok where
  items id s hs := by
    rw [hvalues] at hs
    obtain ⟨parent, items, hshape, hmem⟩ := h.items id s hs
    exact ⟨parent, items, hgrows.shape _ _ hshape, hmem⟩
  unEval id s scope exprId e env hv := by
    rw [hvalues] at hv
    exact (h.unEval id s scope exprId e env hv).grows hgrows
  assocs id s scope exprId e env hc := by
    rw [hassocs] at hc
    exact (h.assocs id s scope exprId e env hc).grows hgrows
  uses u hu := by
    rw [huses] at hu
    exact h.uses u hu

/-- Writing a value of an item keeps the invariant. -/
theorem Ok.setsValue {value : PlaceValue} (h : a.Ok) (hset : SetsValue a a' id s value)
    (hitem : ∃ parent items, a.shape id = some (parent, items) ∧ s ∈ items)
    (hvalue : ∀ scope exprId e env, value = .constant (.unEval scope exprId e env) →
      a.ConstEnv scope env) : a'.Ok where
  items id' s' hs := by
    rw [hset.valueAt] at hs
    rw [hset.shape]
    split at hs
    · next heq =>
      obtain ⟨rfl, rfl⟩ := heq
      exact hitem
    · exact h.items id' s' hs
  unEval id' s' scope exprId e env hv := by
    rw [hset.valueAt] at hv
    split at hv
    · exact (hvalue scope exprId e env (Option.some.inj hv)).grows (hset.grows True)
    · exact (h.unEval id' s' scope exprId e env hv).grows (hset.grows True)
  assocs id' s' scope exprId e env hc := by
    rw [hset.assocs] at hc
    exact (h.assocs id' s' scope exprId e env hc).grows (hset.grows True)
  uses u hu := by
    rw [hset.uses] at hu
    exact h.uses u hu

/-- A change of the constants and of the log. -/
theorem Ok.of_scopes (h : a.Ok) (hscopes : a'.scopes = a.scopes)
    (hassocs : ∀ id s scope exprId e env,
      a'.assocs id s = some (.unEval scope exprId e env) → a.ConstEnv scope env)
    (huses : ∀ u ∈ a'.uses, u.Lexical ↔ u.Clear) : a'.Ok where
  items id s hs := by
    unfold valueAt shape at *
    rw [hscopes] at hs ⊢
    exact h.items id s hs
  unEval id s scope exprId e env hv := by
    unfold valueAt at hv
    rw [hscopes] at hv
    exact (h.unEval id s scope exprId e env hv).of_scopes hscopes
  assocs id s scope exprId e env hc := (hassocs id s scope exprId e env hc).of_scopes hscopes
  uses := huses

/-- Writing an associated constant keeps it. -/
theorem Ok.setAssoc {c : ConstantValue} (h : a.Ok)
    (hc : ∀ scope exprId e env, c = .unEval scope exprId e env → a.ConstEnv scope env) :
    (a.setAssoc id s c).Ok := by
  refine h.of_scopes rfl (fun id' s' scope exprId e env hassoc => ?_) h.uses
  dsimp only [Analyzer.setAssoc] at hassoc
  rw [Function.update_apply] at hassoc
  split at hassoc
  · rw [Function.update_apply] at hassoc
    split at hassoc
    · exact hc scope exprId e env (Option.some.inj hassoc)
    · exact h.assocs id s' scope exprId e env hassoc
  · exact h.assocs id' s' scope exprId e env hassoc

/-- Recording a use keeps it, when the use is as lexical as it is clear. -/
theorem Ok.recordUse {constant : Bool} {found : ValueIndex} (h : a.Ok)
    (huse : Use.Lexical ⟨constant, a.scopes, env, s, found⟩ ↔
      Use.Clear ⟨constant, a.scopes, env, s, found⟩) : (a.recordUse constant env s found).Ok := by
  refine h.of_scopes rfl h.assocs fun u hu => ?_
  cases List.mem_append.mp hu with
  | inl hu => exact h.uses u hu
  | inr hu =>
    rw [List.mem_singleton.mp hu]
    exact huse

/-- An index with a constant is an item, not a binding. -/
theorem constantAt_global {index : ValueIndex} {c : ConstantValue}
    (h : a.constantAt s index = some c) :
    ∃ id, index = .global id ∧ a.valueAt id s = some (.constant c) := by
  unfold constantAt at h
  split at h
  · cases h
  · next id =>
    split at h
    · next heq =>
      cases h
      exact ⟨id, rfl, heq⟩
    · cases h

/-- If the item that the rules give is in the tables, a walk that ends at an item ends there. -/
theorem lexical_of_foundAt (h : a.Ok) {start : Option NodeId} {ribs : List Rib}
    (hchain : a.Chain start ribs) (hfound : ribs.findSome? (a.foundAt s) = some (.global id))
    (hdefined : ∀ id', ribs.findSome? (Rib.item s) = some (.global id') → (a.valueAt id' s).isSome) :
    ribs.findSome? (Rib.item s) = some (.global id) := by
  induction ribs generalizing start with
  | nil => cases hfound
  | cons rib ribs ih =>
    cases start with
    | none => exact hchain.elim
    | some start =>
      obtain ⟨rfl, parent, hshape, hchain⟩ := hchain
      rw [List.findSome?_cons] at hfound hdefined ⊢
      cases hvalue : a.valueAt rib.scope s with
      -- the first scope has a value of that name, so it has the item
      | some value =>
        obtain ⟨parent', items, hshape', hmem⟩ := h.items rib.scope s (by rw [hvalue]; rfl)
        rw [hshape'] at hshape
        obtain ⟨-, rfl⟩ := Prod.mk.inj (Option.some.inj hshape)
        have hitem : rib.item s = some (.global rib.scope) := if_pos hmem
        have hglobal : a.foundAt s rib = some (.global rib.scope) := by
          unfold foundAt
          rw [hvalue]
        rw [hglobal] at hfound
        rw [hitem]
        exact hfound
      -- it has none: neither walk stops here
      | none =>
        have hnot : rib.item s = none := by
          by_contra hne
          unfold Rib.item at hne
          split at hne
          · next hmem =>
            have hsome := hdefined rib.scope (by rw [show rib.item s = _ from if_pos hmem])
            rw [hvalue] at hsome
            cases hsome
          · exact hne rfl
        rw [hnot] at hdefined ⊢
        have hbinding : a.foundAt s rib = none := by
          cases hb : a.bindingAt rib.scope s with
          | none =>
            unfold foundAt
            rw [hvalue, hb]
            rfl
          | some bindingId =>
            have hsome : a.foundAt s rib = some (.binding bindingId) := by
              unfold foundAt
              rw [hvalue, hb]
              rfl
            rw [hsome] at hfound
            cases hfound
        rw [hbinding] at hfound
        exact ih hchain hfound hdefined

/-- A lookup of a constant is right exactly when the item it should find is there. -/
theorem constant_use (h : a.Ok) (henv : a.ConstEnv scope env) {fuel : Nat} {index : ValueIndex}
    {c : ConstantValue} (hsearch : a.searchValue s fuel (some scope) = some (some index))
    (hc : a.constantAt s index = some c) :
    Use.Lexical ⟨true, a.scopes, env, s, index⟩ ↔ Use.Clear ⟨true, a.scopes, env, s, index⟩ := by
  obtain ⟨id, rfl, hvalue⟩ := constantAt_global hc
  have hfound := searchValue_eq henv.chain hsearch
  have hlexical : env.lexical s = env.ribs.findSome? (Rib.item s) := by
    unfold Env.lexical Env.ribs
    rw [henv.here]
    rfl
  constructor
  · intro hlex id' hid'
    rw [hlex] at hid'
    cases hid'
    show (a.valueAt id s).isSome
    rw [hvalue]
    rfl
  · intro hclear
    show env.lexical s = some (.global id)
    rw [hlexical]
    refine lexical_of_foundAt h henv.chain hfound.symm fun id' hid' => ?_
    exact hclear id' (hlexical.trans hid')

/-! ## Evaluation -/

section

variable {search : SearchAssoc} {eval : Analyzer → NodeId → Env → Expr → Option Analyzer}
  {fuel : Nat} {exprId : NodeId} {e : Expr}

/-- An evaluation lets the tables grow and keeps the invariant. -/
def EvalSound (eval : Analyzer → NodeId → Env → Expr → Option Analyzer) : Prop :=
  ∀ a scope env e a', eval a scope env e = some a' →
    (∀ quiet, Grows quiet a a') ∧ (a.Ok → a.ConstEnv scope env → a'.Ok)

/-- Evaluating a constant keeps the invariant in the scopes that the constant remembers. -/
theorem evalUnevaling_sound (heval : EvalSound eval)
    (h : evalUnevaling eval a scope exprId env e = some a') :
    (∀ quiet, Grows quiet a a') ∧ (a.Ok → a.ConstEnv scope env → a'.Ok) := by
  obtain ⟨-, -, h⟩ := Option.bind_eq_some_iff.mp h
  obtain ⟨hgrows, hok⟩ := heval _ _ _ _ _ h
  have hstart : ∀ quiet, Grows quiet a { a with evaledConst := exprId :: a.evaledConst } :=
    fun _ => Grows.of_scopes rfl
  refine ⟨fun quiet => (hstart quiet).trans (hgrows quiet), fun ha henv => hok ?_ ?_⟩
  · exact ha.of_scopes rfl ha.assocs ha.uses
  · exact henv.of_scopes rfl

/-- A name in a constant. -/
theorem evalPath_sound (heval : EvalSound eval) (h : evalPath eval fuel a scope env s = some a') :
    (∀ quiet, Grows quiet a a') ∧ (a.Ok → a.ConstEnv scope env → a'.Ok) := by
  obtain ⟨found, hsearch, h⟩ := Option.bind_eq_some_iff.mp h
  obtain ⟨index, hindex, h⟩ := Option.bind_eq_some_iff.mp h
  rw [hindex] at hsearch
  obtain ⟨c, hc, h⟩ := Option.bind_eq_some_iff.mp h
  have hrecord : ∀ quiet, Grows quiet a (a.recordUse true env s index) :=
    fun quiet => Grows.of_scopes rfl
  split at h
  · next scope' exprId e env' id _ =>
    obtain ⟨a₁, heval', h⟩ := Option.bind_eq_some_iff.mp h
    obtain ⟨hgrows, hok⟩ := evalUnevaling_sound heval heval'
    obtain ⟨hset, hdefined⟩ := setEvaluated_sets h
    refine ⟨fun quiet => ((hrecord quiet).trans (hgrows quiet)).trans (hset.grows quiet), ?_⟩
    intro ha henv
    have hrec := ha.recordUse (constant_use ha henv hsearch hc)
    obtain ⟨id', hid', hvalue⟩ := constantAt_global hc
    have henv' := (ha.unEval id' s scope' exprId e env' hvalue).grows (hrecord True)
    have ha₁ := hok hrec henv'
    refine ha₁.setsValue hset (ha₁.items id s hdefined) ?_
    intro _ _ _ _ heq
    cases heq
  · cases h
    exact ⟨hrecord, fun ha henv => ha.recordUse (constant_use ha henv hsearch hc)⟩

/-- An associated constant changes nothing that is looked up. -/
theorem evalAssocPath_sound (heval : EvalSound eval) {ty : Symbol}
    (h : evalAssocPath search eval a scope ty s = some a') :
    (∀ quiet, Grows quiet a a') ∧ (a.Ok → a'.Ok) := by
  obtain ⟨found, hsearch, h⟩ := Option.bind_eq_some_iff.mp h
  split at h
  · cases h
    exact ⟨fun _ => .refl a, fun ha => ha⟩
  · next id name =>
    obtain ⟨c, hc, h⟩ := Option.bind_eq_some_iff.mp h
    split at h
    · next scope' exprId e env' =>
      obtain ⟨a₁, heval', h⟩ := Option.bind_eq_some_iff.mp h
      cases h
      obtain ⟨hgrows, hok⟩ := evalUnevaling_sound heval heval'
      refine ⟨fun quiet => (hgrows quiet).trans (Grows.of_scopes rfl), fun ha => ?_⟩
      refine (hok ha (ha.assocs id name scope' exprId e env' hc)).setAssoc ?_
      intro _ _ _ _ heq
      cases heq
    · cases h
      exact ⟨fun _ => .refl a, fun ha => ha⟩

/-- Several constants. -/
theorem evalAll_sound (heval : EvalSound eval) {es : List Expr}
    (h : es.foldlM (fun a e => eval a scope env e) a = some a') :
    (∀ quiet, Grows quiet a a') ∧ (a.Ok → a.ConstEnv scope env → a'.Ok) := by
  induction es generalizing a with
  | nil =>
    cases h
    exact ⟨fun _ => .refl _, fun ha _ => ha⟩
  | cons e es ih =>
    obtain ⟨a₁, hfirst, hrest⟩ := OptionFold.cons_eq_some.mp h
    obtain ⟨hgrows, hok⟩ := heval _ _ _ _ _ hfirst
    obtain ⟨hgrows', hok'⟩ := ih hrest
    refine ⟨fun quiet => (hgrows quiet).trans (hgrows' quiet), fun ha henv => ?_⟩
    exact hok' (hok ha henv) (henv.grows (hgrows True))

/-- the induction is on the fuel. -/
theorem constEval_sound (search : SearchAssoc) (fuel : Nat) : EvalSound (constEval search fuel) := by
  induction fuel with
  | zero => exact fun _ _ _ _ _ h => nomatch h
  | succ fuel ih =>
    intro a scope env e a' h
    unfold constEval at h
    split at h
    · cases h
      exact ⟨fun _ => .refl _, fun ha _ => ha⟩
    · exact evalPath_sound ih h
    · obtain ⟨hgrows, hok⟩ := evalAssocPath_sound ih h
      exact ⟨hgrows, fun ha _ => hok ha⟩
    · exact evalAll_sound ih h
    · cases h

/-- The lengths of the arrays in a type are constants. -/
theorem resolveType_sound {ty : Ty} (h : resolveType search fuel a scope env ty = some a') :
    (∀ quiet, Grows quiet a a') ∧ (a.Ok → a.Chain (some scope) env.ribs → a'.Ok) := by
  obtain ⟨lens⟩ := ty
  obtain ⟨hgrows, hok⟩ := evalAll_sound (constEval_sound search fuel) h
  exact ⟨hgrows, fun ha hchain => hok ha hchain.leave⟩

/-- Several types. -/
theorem resolveTypes_sound {tys : List Ty} (h : resolveTypes search fuel a scope env tys = some a') :
    (∀ quiet, Grows quiet a a') ∧ (a.Ok → a.Chain (some scope) env.ribs → a'.Ok) := by
  induction tys generalizing a with
  | nil =>
    cases h
    exact ⟨fun _ => .refl _, fun ha _ => ha⟩
  | cons ty tys ih =>
    obtain ⟨a₁, hfirst, hrest⟩ := OptionFold.cons_eq_some.mp h
    obtain ⟨hgrows, hok⟩ := resolveType_sound hfirst
    obtain ⟨hgrows', hok'⟩ := ih hrest
    refine ⟨fun quiet => (hgrows quiet).trans (hgrows' quiet), fun ha hchain => ?_⟩
    exact hok' (hok ha hchain) (hchain.grows (hgrows True))

end

end Analyzer

end Resolve
