import C0mpiler.Semantics.ResolveConst
import Mathlib

/-!
# The stages node by node

A node is visited in the same way at every stage: something is done when it is entered
(`enterNode`), and then its children are visited in the environment inside (`Node.children`). Only
a `let`, which binds its names after its initializer, and a `while`, whose condition is outside of
its scope, are not of this shape. From it follow what the three stages do to the tables: they
grow at every stage, and defining the items of a block defines their names.
-/

namespace Resolve

open Lexical Analyzer

/-! ## The shape of a visit -/

/-- What follows a node. -/
def Ctx.next (ctx : Ctx) : Node → Ctx
  | .stmt s => ctx.after s
  | _ => ctx

/-- Several nodes in order. -/
def visitNodes (visit : Visit) : Analyzer → Ctx → List Node → Option Analyzer
  | a, _, [] => some a
  | a, ctx, n :: ns => do
    let a ← visit a ctx n
    visitNodes visit a (ctx.next n) ns

/-- The name that a node gives to a value of its scope. -/
def Node.valueName : Node → Option Symbol
  | .stmt s => s.valueName
  | .item i => i.valueName
  | _ => none

/-- The rib that a node adds for its children. -/
def Node.rib : Node → Option Rib
  | .expr (.loopExpr id _) => some ⟨id, [], []⟩
  | .block (.mk id stmts) => some ⟨id, stmts.filterMap Stmt.valueName, []⟩
  | .item (.fn id _ params _ _) => some ⟨id, [], ((paramBindings params).getD []).reverse⟩
  | .item (.struct id _ _ _) => some ⟨id, [], []⟩
  | .item (.trait id _) | .item (.impl id _ _) => some ⟨id, [], []⟩
  | _ => none

/-- The environment of the children. -/
def Ctx.inside (ctx : Ctx) : Node → Ctx
  | .expr (.loopExpr id _) => ctx.enter id [] none
  | .block (.mk id stmts) => ctx.enter id (stmts.filterMap Stmt.valueName) none
  | .item (.fn id _ params _ _) => ctx.enterFn id ((paramBindings params).getD [])
  | .item (.struct id _ _ _) => ctx.enter id [] none
  | .item (.trait id _) => ctx.enter id [] (some true)
  | .item (.impl id _ _) => ctx.enter id [] (some false)
  | _ => ctx

/-- The nodes inside a node. -/
def Node.children : Node → List Node
  | .expr (.block b) | .expr (.loopExpr _ b) => [.block b]
  | .expr (.repeatExpr elm _) => [.expr elm]
  | .expr (.cast e _) => [.expr e]
  | .expr (.operands es) => es.map .expr
  | .expr _ => []
  | .block (.mk _ stmts) => stmts.map .stmt
  | .stmt (.item i) => [.item i]
  | .stmt (.expr e) => [.expr e]
  | .stmt (.letStmt _ _ _) => []
  | .item (.fn _ _ _ _ body) => body.toList.map .block
  | .item (.trait _ items) | .item (.impl _ _ items) => items.map fun i => .item i.toItem
  | .item _ => []

/-- The nodes of the common shape. -/
def Node.Plain : Node → Prop
  | .stmt (.letStmt _ _ _) | .expr (.whileExpr _ _ _) => False
  | _ => True

section

variable (search : SearchAssoc) (stage : AnalyzeStage) (fuel : Nat)

/-- What a visit does before it turns to the children. -/
def enterNode (a : Analyzer) (ctx : Ctx) : Node → Option Analyzer
  | .expr (.path symbol) => visitPathExpr stage fuel a ctx symbol
  | .expr (.loopExpr id _) => addScopeAt stage a id ctx.scope []
  | .expr (.repeatExpr _ len) =>
    atStage stage .body (fun a => constEval search fuel a ctx.scope ctx.env.leave len) a
  | .expr (.cast _ ty) =>
    atStage stage .body (fun a => resolveType search fuel a ctx.scope ctx.env ty) a
  | .block (.mk id stmts) => addScopeAt stage a id ctx.scope (stmts.filterMap Stmt.valueName)
  | .item (.const ident ty exprId expr) => visitConstItem search stage fuel a ctx ident ty exprId expr
  | .item (.fn id ident params ret body) =>
    visitFnSig search stage fuel a ctx id ident params ret body.isSome
  | .item (.struct id ident variants fields) =>
    visitStructItem search stage fuel a ctx id ident variants fields
  | .item (.trait id _) => addScopeAt stage a id ctx.scope []
  | .item (.impl id selfTy _) => do
    let a ← addScopeAt stage a id ctx.scope []
    atStage stage .definition (fun a => resolveType search fuel a ctx.scope ctx.env selfTy) a
  | _ => some a

end

variable {search : SearchAssoc} {stage : AnalyzeStage} {fuel : Nat} {visit : Visit} {a a' : Analyzer}
  {ctx : Ctx} {n : Node}

/-- The visitors in terms of `visitNodes`: the operands of an expression. -/
theorem operands_eq (es : List Expr) (a : Analyzer) :
    es.foldlM (fun a e => visit a ctx (.expr e)) a = visitNodes visit a ctx (es.map .expr) := by
  induction es generalizing a with
  | nil => rfl
  | cons e es ih =>
    rw [List.foldlM_cons]
    exact congrArg (Option.bind (visit a ctx (.expr e))) (funext ih)

/-- The items of a block. -/
theorem visitItems_eq (items : List Item) (a : Analyzer) :
    visitItems visit a ctx items = visitNodes visit a ctx (items.map .item) := by
  induction items generalizing a with
  | nil => rfl
  | cons i items ih =>
    unfold visitItems
    rw [List.foldlM_cons]
    exact congrArg (Option.bind (visit a ctx (.item i))) (funext ih)

/-- The items of a trait or an impl. -/
theorem visitAssocs_eq (items : List AssocItem) (a : Analyzer) :
    visitItems visit a ctx (items.map AssocItem.toItem) =
      visitNodes visit a ctx (items.map fun i => .item i.toItem) := by
  rw [visitItems_eq, List.map_map]
  rfl

/-- The statements of a block. -/
theorem visitStmts_eq (stmts : List Stmt) (a : Analyzer) (ctx : Ctx) :
    visitStmts visit a ctx stmts = visitNodes visit a ctx (stmts.map .stmt) := by
  induction stmts generalizing a ctx with
  | nil => rfl
  | cons s stmts ih =>
    exact congrArg (Option.bind (visit a ctx (.stmt s))) (funext fun a => ih a (ctx.after s))

/-- One node alone. -/
theorem visitNodes_singleton : visitNodes visit a ctx [n] = visit a ctx n := by
  unfold visitNodes
  cases visit a ctx n <;> rfl

/-- Enter a node and visit its children. -/
theorem visitNode_eq (hn : n.Plain) : visitNode search stage fuel visit a ctx n =
    (enterNode search stage fuel a ctx n).bind fun a =>
      visitNodes visit a (ctx.inside n) n.children := by
  cases n with
  | expr e =>
    cases e with
    | path symbol =>
      show visitPathExpr stage fuel a ctx symbol = _
      exact (Option.bind_fun_some _).symm
    | assocPath | lit => rfl
    | block b => exact visitNodes_singleton.symm
    | whileExpr => exact hn.elim
    | loopExpr id body =>
      exact congrArg (Option.bind _) (funext fun a => visitNodes_singleton.symm)
    | repeatExpr elm len =>
      exact congrArg (Option.bind _) (funext fun a => visitNodes_singleton.symm)
    | cast e ty => exact congrArg (Option.bind _) (funext fun a => visitNodes_singleton.symm)
    | operands es => exact operands_eq es a
  | block b =>
    obtain ⟨id, stmts⟩ := b
    exact congrArg (Option.bind _) (funext fun a => visitStmts_eq stmts a _)
  | stmt s =>
    cases s with
    | letStmt => exact hn.elim
    | item i => exact visitNodes_singleton.symm
    | expr e => exact visitNodes_singleton.symm
  | item i =>
    cases i with
    | const ident ty exprId expr =>
      show visitConstItem search stage fuel a ctx ident ty exprId expr = _
      exact (Option.bind_fun_some _).symm
    | fn id ident params ret body =>
      refine congrArg (Option.bind _) (funext fun a => ?_)
      cases body with
      | none => rfl
      | some b => exact visitNodes_singleton.symm
    | struct id ident variants fields =>
      show visitStructItem search stage fuel a ctx id ident variants fields = _
      exact (Option.bind_fun_some _).symm
    | enum => rfl
    | trait id items => exact congrArg (Option.bind _) (funext fun a => visitAssocs_eq items a)
    | impl id selfTy items =>
      show (addScopeAt stage a id ctx.scope []).bind (fun a => (atStage stage .definition _ a).bind
        fun a => visitItems visit a _ (items.map AssocItem.toItem)) =
          ((addScopeAt stage a id ctx.scope []).bind _).bind _
      rw [Option.bind_assoc]
      refine congrArg (Option.bind _) (funext fun a => ?_)
      exact congrArg (Option.bind _) (funext fun a => visitAssocs_eq items a)

/-! ## Growing -/

/-- Either it is that stage, or nothing is done. -/
theorem atStage_inv {s : AnalyzeStage} {f : Analyzer → Option Analyzer}
    (h : atStage stage s f a = some a') : stage = s ∧ f a = some a' ∨ stage ≠ s ∧ a' = a := by
  unfold atStage at h
  split at h
  · next heq => exact Or.inl ⟨heq, h⟩
  · next hne => exact Or.inr ⟨hne, (Option.some.inj h).symm⟩

/-- Something done at one stage only, where it grows the tables. -/
theorem atStage_grows {s : AnalyzeStage} {f : Analyzer → Option Analyzer} {quiet : Prop}
    (hf : ∀ a', f a = some a' → Grows quiet a a') (h : atStage stage s f a = some a') :
    Grows quiet a a' := by
  rcases atStage_inv h with ⟨-, h⟩ | ⟨-, rfl⟩
  · exact hf a' h
  · exact .refl _

/-- A new scope. -/
theorem addScopeAt_grows {id father : NodeId} {items : List Symbol} {quiet : Prop}
    (h : addScopeAt stage a id father items = some a') : Grows quiet a a' :=
  atStage_grows (fun _ h => (addScope_spec h).2.2.2.2 quiet) h

/-- A new constant. -/
theorem addConstant_grows {ident : Symbol} {c : ConstantValue} {quiet : Prop}
    (h : addConstant a ctx ident c = some a') : Grows quiet a a' := by
  unfold addConstant at h
  split at h
  · split at h
    · cases h
    · cases h
      exact Grows.of_scopes rfl
  · exact (addScopeValue_sets h).grows quiet

/-- `visit_const_item` grows the tables and binds nothing. -/
theorem visitConstItem_grows {ident : Symbol} {ty : Ty} {exprId : NodeId} {expr : Option Expr}
    {quiet : Prop} (h : visitConstItem search stage fuel a ctx ident ty exprId expr = some a') :
    Grows quiet a a' := by
  unfold visitConstItem at h
  split at h
  · cases h
    exact .refl a
  · obtain ⟨a₁, hty, h⟩ := Option.bind_eq_some_iff.mp h
    refine ((resolveType_sound hty).1 quiet).trans ?_
    split at h
    · exact addConstant_grows h
    · split at h
      · exact addConstant_grows h
      · cases h
  · split at h
    · obtain ⟨c, -, h⟩ := Option.bind_eq_some_iff.mp h
      split at h
      · cases h
      · cases h
        exact .refl a
    · obtain ⟨c, -, h⟩ := Option.bind_eq_some_iff.mp h
      split at h
      · obtain ⟨a₁, heval, h⟩ := Option.bind_eq_some_iff.mp h
        refine ((evalUnevaling_sound (constEval_sound search fuel) heval).1 quiet).trans ?_
        exact (setEvaluated_sets h).1.grows quiet
      · cases h
        exact .refl a

/-- What `add_bindings` does to the bindings of its scope: the new ones come first. -/
theorem addBindings_spec {id : NodeId} {seen : List Symbol} {bindings : List (Symbol × NodeId)}
    (h : addBindings fuel id seen bindings a = some a') :
    Grows False a a' ∧ (∀ id s, a'.valueAt id s = a.valueAt id s) ∧ a'.assocs = a.assocs ∧
      a'.uses = a.uses ∧ (∀ id' s, id' ≠ id → a'.bindingAt id' s = a.bindingAt id' s) ∧
      ∀ l : List (Symbol × NodeId), (∀ s, a.bindingAt id s = l.lookup s) →
        ∀ s, a'.bindingAt id s = (bindings.reverse ++ l).lookup s := by
  induction bindings generalizing seen a with
  | nil =>
    cases h
    exact ⟨.refl _, fun _ _ => rfl, rfl, rfl, fun _ _ _ => rfl, fun _ hl => hl⟩
  | cons b bindings ih =>
    obtain ⟨-, -, h⟩ := Option.bind_eq_some_iff.mp h
    obtain ⟨found, -, h⟩ := Option.bind_eq_some_iff.mp h
    obtain ⟨-, -, h⟩ := Option.bind_eq_some_iff.mp h
    obtain ⟨a₁, hinsert, h⟩ := Option.bind_eq_some_iff.mp h
    obtain ⟨hgrows, -, hvalues, hassocs, huses, hbindings⟩ := insertBinding_spec hinsert
    obtain ⟨hgrows', hvalues', hassocs', huses', hothers, hown⟩ := ih h
    refine ⟨hgrows.trans hgrows', fun id' s => (hvalues' id' s).trans (hvalues id' s),
      hassocs'.trans hassocs, huses'.trans huses, fun id' s hne => ?_, fun l hl s => ?_⟩
    · rw [hothers id' s hne, hbindings, if_neg fun h => hne h.1]
    · rw [hown (b :: l) ?_ s, List.reverse_cons, List.append_assoc]
      · rfl
      · intro s
        rw [hbindings, List.lookup_cons]
        by_cases hs : s = b.1
        · subst hs
          simp
        · rw [if_neg fun h => hs h.2, hl, beq_eq_false_iff_ne.mpr hs]

/-- Only the last stage binds the parameters. -/
theorem visitFnSig_grows {id : NodeId} {ident : Symbol} {params : List (Pat × Ty)} {ret : Ty}
    {hasBody : Bool} (h : visitFnSig search stage fuel a ctx id ident params ret hasBody = some a') :
    Grows (stage ≠ .body) a a' := by
  unfold visitFnSig at h
  split at h
  · exact (addScope_spec h).2.2.2.2 _
  · obtain ⟨-, -, h⟩ := Option.bind_eq_some_iff.mp h
    obtain ⟨a₁, htys, h⟩ := Option.bind_eq_some_iff.mp h
    refine ((resolveTypes_sound htys).1 _).trans ?_
    split at h
    · cases h
      exact .refl _
    · exact (addScopeValue_sets h).grows _
  · obtain ⟨a₁, htys, h⟩ := Option.bind_eq_some_iff.mp h
    obtain ⟨bindings, -, h⟩ := Option.bind_eq_some_iff.mp h
    exact ((resolveTypes_sound htys).1 _).trans ((addBindings_spec h).1.mono fun hne => hne rfl)

/-- `visit_struct_item` grows the tables and binds nothing. -/
theorem visitStructItem_grows {id : NodeId} {ident : Symbol} {variants : VariantData}
    {fields : List Ty} {quiet : Prop}
    (h : visitStructItem search stage fuel a ctx id ident variants fields = some a') :
    Grows quiet a a' := by
  unfold visitStructItem at h
  split at h
  · split at h
    · cases h
    · exact (addScope_spec h).2.2.2.2 quiet
  · split at h
    · exact (resolveTypes_sound h).1 quiet
    · cases h
    · exact (addScopeValue_sets h).grows quiet
  · cases h
    exact .refl a

/-- Looking up a name changes no table. -/
theorem visitPathExpr_grows {symbol : Symbol} {quiet : Prop}
    (h : visitPathExpr stage fuel a ctx symbol = some a') : Grows quiet a a' := by
  unfold visitPathExpr at h
  split at h
  · obtain ⟨found, -, h⟩ := Option.bind_eq_some_iff.mp h
    obtain ⟨index, -, h⟩ := Option.bind_eq_some_iff.mp h
    cases h
    exact Grows.of_scopes rfl
  · cases h
    exact .refl a

/-- Entering a node grows the tables, and binds names at the last stage only. -/
theorem enterNode_grows (h : enterNode search stage fuel a ctx n = some a') :
    Grows (stage ≠ .body) a a' := by
  unfold enterNode at h
  split at h
  · exact visitPathExpr_grows h
  · exact addScopeAt_grows h
  · exact atStage_grows (fun _ h => (constEval_sound search fuel _ _ _ _ _ h).1 _) h
  · exact atStage_grows (fun _ h => (resolveType_sound h).1 _) h
  · exact addScopeAt_grows h
  · exact visitConstItem_grows h
  · exact visitFnSig_grows h
  · exact visitStructItem_grows h
  · exact addScopeAt_grows h
  · obtain ⟨a₁, hadd, h⟩ := Option.bind_eq_some_iff.mp h
    exact (addScopeAt_grows hadd).trans (atStage_grows (fun _ h => (resolveType_sound h).1 _) h)
  · cases h
    exact .refl a

/-- Several nodes. -/
theorem visitNodes_grows {quiet : Prop}
    (hvisit : ∀ a ctx n a', visit a ctx n = some a' → Grows quiet a a') {ns : List Node}
    (h : visitNodes visit a ctx ns = some a') : Grows quiet a a' := by
  induction ns generalizing a ctx with
  | nil =>
    cases h
    exact .refl _
  | cons n ns ih =>
    obtain ⟨a₁, hfirst, hrest⟩ := Option.bind_eq_some_iff.mp h
    exact (hvisit _ _ _ _ hfirst).trans (ih hrest)

/-- The parts of a `let`. -/
theorem visitLocalStmt_inv {pat : Pat} {ty : Option Ty} {init : Expr}
    (h : Resolve.visit search stage (fuel + 1) a ctx (.stmt (.letStmt pat ty init)) = some a') :
    (stage ≠ .body ∧ Resolve.visit search stage fuel a ctx (.expr init) = some a') ∨
    (stage = .body ∧ ∃ a₁ a₂ bindings,
      resolveTypes search fuel a ctx.scope ctx.env ty.toList = some a₁ ∧
      Resolve.visit search stage fuel a₁ ctx (.expr init) = some a₂ ∧ pat.bindings = some bindings ∧
      a₂.addBindings fuel ctx.scope [] bindings = some a') := by
  change visitLocalStmt search stage fuel _ a ctx pat ty init = some a' at h
  unfold visitLocalStmt at h
  split at h
  · next hbody =>
    obtain ⟨a₁, htys, h⟩ := Option.bind_eq_some_iff.mp h
    obtain ⟨a₂, hinit, h⟩ := Option.bind_eq_some_iff.mp h
    obtain ⟨bindings, hbindings, h⟩ := Option.bind_eq_some_iff.mp h
    exact Or.inr ⟨hbody, a₁, a₂, bindings, htys, hinit, hbindings, h⟩
  · next hbody => exact Or.inl ⟨hbody, h⟩

/-- The scope of a block is looked at when it is added only. -/
theorem visitBlock_scope {b : Block} {ctx' : Ctx} (hstage : stage ≠ .symbolCollect)
    (henv : ctx.env = ctx'.env) :
    visitBlockExpr stage visit a ctx b = visitBlockExpr stage visit a ctx' b := by
  obtain ⟨id, stmts⟩ := b
  simp only [visitBlockExpr, addScopeAt, atStage, Ctx.enter, if_neg hstage, henv]

/-- The parts of a `while`: the body is visited in the scope of the loop. -/
theorem visitWhileExpr_inv {id : NodeId} {cond : Expr} {body : Block}
    (h : Resolve.visit search stage (fuel + 1) a ctx (.expr (.whileExpr id cond body)) = some a') :
    ∃ a₁ a₂, addScopeAt stage a id ctx.scope [] = some a₁ ∧
      Resolve.visit search stage fuel a₁ ctx (.expr cond) = some a₂ ∧
      Resolve.visit search stage fuel a₂ (ctx.enter id [] none) (.block body) = some a' := by
  obtain ⟨a₁, hadd, h⟩ := Option.bind_eq_some_iff.mp h
  obtain ⟨a₂, hcond, h⟩ := Option.bind_eq_some_iff.mp h
  refine ⟨a₁, a₂, hadd, hcond, ?_⟩
  split at h
  · next hbody =>
    cases fuel with
    | zero => cases h
    | succ fuel =>
      rw [← h]
      exact visitBlock_scope (by rw [hbody]; decide) rfl
  · exact h

/-- The tables grow at every stage. -/
theorem visit_grows (h : Resolve.visit search stage fuel a ctx n = some a') :
    Grows (stage ≠ .body) a a' := by
  induction fuel generalizing a ctx n a' with
  | zero => cases h
  | succ fuel ih =>
    by_cases hn : n.Plain
    · obtain ⟨a₁, henter, hnodes⟩ := Option.bind_eq_some_iff.mp ((visitNode_eq hn).symm.trans h)
      exact (enterNode_grows henter).trans (visitNodes_grows (fun _ _ _ _ h => ih h) hnodes)
    · unfold Node.Plain at hn
      split at hn
      · next pat ty init =>
        rcases visitLocalStmt_inv h with ⟨-, h⟩ | ⟨hbody, a₁, a₂, bindings, htys, hinit, -, hadd⟩
        · exact ih h
        · refine (((resolveTypes_sound htys).1 _).trans (ih hinit)).trans ?_
          exact (addBindings_spec hadd).1.mono fun hne => hne hbody
      · next id cond body =>
        obtain ⟨a₁, a₂, hadd, hcond, hblock⟩ := visitWhileExpr_inv h
        exact ((addScopeAt_grows hadd).trans (ih hcond)).trans (ih hblock)
      · exact absurd trivial hn

end Resolve
