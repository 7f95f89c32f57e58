import C0mpiler.Semantics.Lexical
import C0mpiler.Data.OptionFold
import Mathlib

/-!
# Name resolution

The three stages of the analyser (`analyzer.rs`), as far as they build and read the tables of values:
scopes are created when symbols are collected, items are defined, and bindings are inserted while
the bodies are visited. Constants are evaluated on demand (`const_eval.rs`), at any of the last two
stages. A run that is rejected, by an error or a panic, is `none`.

Two things are not in the source: the visitors carry the environment that the rules of the language
give (`Ctx.env`), and every lookup of a single-segment path is recorded with it (`Analyzer.uses`). A
scope carries the names of its items for the same reason.
-/

namespace Resolve

open Lexical

/-- The three stages, as in `AnalyzeStage`; a crate goes through them one after the other. -/
inductive AnalyzeStage where
  | symbolCollect | definition | body
  deriving DecidableEq, Repr

/-! ## Programs -/

/-- The patterns; `path` is a name that is parsed as a path and declares a binding all the same. -/
inductive Pat where
  | ident (id : NodeId) (symbol : Symbol)
  | path (id : NodeId) (symbol : Symbol)
  | ref (pat : Pat)
  | other
  deriving DecidableEq, Repr

/-- The three shapes of a struct; a tuple struct is not implemented. -/
inductive VariantData where
  | struct | tuple | unit
  deriving DecidableEq, Repr

mutual

/-- The expressions, as far as names are resolved in them. -/
inductive Expr where
  | path (symbol : Symbol)
  | assocPath (ty symbol : Symbol)
  | lit
  | block (b : Block)
  | whileExpr (id : NodeId) (cond : Expr) (body : Block)
  | loopExpr (id : NodeId) (body : Block)
  | repeatExpr (elm len : Expr)
  | cast (e : Expr) (ty : Ty)
  /-- Every other expression visits its operands. -/
  | operands (es : List Expr)

/-- The lengths of the arrays in a type, in the order in which `resolve_type` evaluates them. -/
inductive Ty where
  | mk (lens : List Expr)

/-- A block; `new_scope` has its id. -/
inductive Block where
  | mk (id : NodeId) (stmts : List Stmt)

/-- The statements. -/
inductive Stmt where
  | letStmt (pat : Pat) (ty : Option Ty) (init : Expr)
  | item (i : Item)
  | expr (e : Expr)

/-- The items. -/
inductive Item where
  | const (ident : Symbol) (ty : Ty) (exprId : NodeId) (expr : Option Expr)
  | fn (id : NodeId) (ident : Symbol) (params : List (Pat × Ty)) (ret : Ty) (body : Option Block)
  | struct (id : NodeId) (ident : Symbol) (variants : VariantData) (fields : List Ty)
  | enum
  | trait (id : NodeId) (items : List AssocItem)
  | impl (id : NodeId) (selfTy : Ty) (items : List AssocItem)

/-- `AssocItemKind`. -/
inductive AssocItem where
  | const (ident : Symbol) (ty : Ty) (exprId : NodeId) (expr : Option Expr)
  | fn (id : NodeId) (ident : Symbol) (params : List (Pat × Ty)) (ret : Ty) (body : Option Block)

end

/-- An associated item is visited as an item. -/
def AssocItem.toItem : AssocItem → Item
  | .const ident ty exprId expr => .const ident ty exprId expr
  | .fn id ident params ret body => .fn id ident params ret body

/-- `visit_pat`: the bindings of a pattern. -/
def Pat.bindings : Pat → Option (List (Symbol × NodeId))
  | .ident id symbol | .path id symbol => some [(symbol, id)]
  | .ref pat => pat.bindings
  | .other => none

/-- The name that an item gives to a value. -/
def Item.valueName : Item → Option Symbol
  | .const ident _ _ _ => some ident
  | .fn _ ident _ _ _ => some ident
  | .struct _ ident .unit _ => some ident
  | _ => none

/-- The name that a statement declares for the whole block. -/
def Stmt.valueName : Stmt → Option Symbol
  | .item i => i.valueName
  | _ => none

/-! ## The analyser -/

/-- The state of a constant: not evaluated yet, with the scope of the declaration, or done. -/
inductive ConstantValue where
  | unEval (scope exprId : NodeId) (e : Expr) (env : Env)
  | evaluated
  | placeholder

/-- What a name of a scope stands for; the type of a function is of no concern here. -/
inductive PlaceValue where
  | constant (c : ConstantValue)
  | fn

/-- A scope of the analyser; the root is its own father. -/
structure Scope where
  isRoot : Bool
  father : NodeId
  items : List Symbol
  values : Symbol → Option PlaceValue
  bindings : Symbol → Option NodeId

/-- `get_parent_scope`. -/
def Scope.parent (scope : Scope) : Option NodeId := if scope.isRoot then none else some scope.father

/-- A lookup: the tables it was made in, the environment and the name, and what was found. -/
structure Use where
  constant : Bool
  scopes : NodeId → Option Scope
  env : Env
  symbol : Symbol
  found : ValueIndex

/-- The state of the analyser; `uses` records every name looked up, with the tables of that moment.
-/
structure Analyzer where
  scopes : NodeId → Option Scope
  /-- The constants of traits and impls, by the scope they are declared in. -/
  assocs : NodeId → Symbol → Option ConstantValue
  evaledConst : List NodeId
  uses : List Use

namespace Analyzer

/-- Write a scope. -/
def setScope (a : Analyzer) (id : NodeId) (scope : Scope) : Analyzer :=
  { a with scopes := Function.update a.scopes id (some scope) }

/-- `add_scope`; an id that is there already is a panic. -/
def addScope (a : Analyzer) (id father : NodeId) (items : List Symbol) : Option Analyzer :=
  match a.scopes id with
  | some _ => none
  | none => some (a.setScope id ⟨false, father, items, fun _ => none, fun _ => none⟩)

/-- `add_scope_value`. -/
def addScopeValue (a : Analyzer) (id : NodeId) (name : Symbol) (value : PlaceValue) :
    Option Analyzer := do
  let scope ← a.scopes id
  match scope.values name with
  | some _ => none
  | none => some (a.setScope id { scope with values := Function.update scope.values name (some value) })

/-- The constant at an index has been evaluated. -/
def setEvaluated (a : Analyzer) (id : NodeId) (name : Symbol) : Option Analyzer := do
  let scope ← a.scopes id
  match scope.values name with
  | some (.constant _) =>
    some (a.setScope id
      { scope with values := Function.update scope.values name (some (.constant .evaluated)) })
  | _ => none

/-- Write an associated constant. -/
def setAssoc (a : Analyzer) (id : NodeId) (name : Symbol) (c : ConstantValue) : Analyzer :=
  { a with assocs := Function.update a.assocs id (Function.update (a.assocs id) name (some c)) }

/-- `search_value`: `none` is a scope that is not there, or a walk that does not end. -/
def searchValue (a : Analyzer) (symbol : Symbol) : Nat → Option NodeId → Option (Option ValueIndex)
  | _, none => some none
  | 0, some _ => none
  | fuel + 1, some id => do
    let scope ← a.scopes id
    match scope.values symbol, scope.bindings symbol with
    | some _, _ => some (some (.global id))
    | none, some bindingId => some (some (.binding bindingId))
    | none, none => searchValue a symbol fuel scope.parent

/-- The constant at an index; a binding or a function is none. -/
def constantAt (a : Analyzer) (symbol : Symbol) : ValueIndex → Option ConstantValue
  | .binding _ => none
  | .global id =>
    match (a.scopes id).bind fun scope => scope.values symbol with
    | some (.constant c) => some c
    | _ => none

/-- `insert_binding`. -/
def insertBinding (a : Analyzer) (id : NodeId) (symbol : Symbol) (bindingId : NodeId) :
    Option Analyzer := do
  let scope ← a.scopes id
  some (a.setScope id
    { scope with bindings := Function.update scope.bindings symbol (some bindingId) })

/-- `add_bindings`: `seen` are the names of the bindings before. -/
def addBindings (fuel : Nat) (id : NodeId) :
    List Symbol → List (Symbol × NodeId) → Analyzer → Option Analyzer
  | _, [], a => some a
  | seen, (symbol, bindingId) :: bindings, a => do
    guard (symbol ∉ seen)
    let found ← a.searchValue symbol fuel (some id)
    guard ((found.bind (a.constantAt symbol)).isNone)
    let a ← a.insertBinding id symbol bindingId
    addBindings fuel id (symbol :: seen) bindings a

/-- Record that a name was looked up. -/
def recordUse (a : Analyzer) (constant : Bool) (env : Env) (symbol : Symbol) (found : ValueIndex) :
    Analyzer :=
  { a with uses := a.uses ++ [⟨constant, a.scopes, env, symbol, found⟩] }

end Analyzer

/-- The search of a two-segment path in the impls: an associated constant with the scope it is
declared in, or a constant that needs no evaluation. -/
abbrev SearchAssoc := Analyzer → NodeId → Symbol → Symbol → Option (Option (NodeId × Symbol))

/-! ## Constants -/

section

variable (search : SearchAssoc)

/-- `eval_unevaling`. -/
def evalUnevaling (eval : Analyzer → NodeId → Env → Expr → Option Analyzer) (a : Analyzer)
    (scope exprId : NodeId) (env : Env) (e : Expr) : Option Analyzer := do
  guard (exprId ∉ a.evaledConst)
  eval { a with evaledConst := exprId :: a.evaledConst } scope env e

/-- `visit_path_expr` of the evaluator, for a path of one segment. -/
def evalPath (eval : Analyzer → NodeId → Env → Expr → Option Analyzer) (fuel : Nat) (a : Analyzer)
    (scope : NodeId) (env : Env) (symbol : Symbol) : Option Analyzer := do
  let found ← a.searchValue symbol fuel (some scope)
  let index ← found
  let c ← a.constantAt symbol index
  match c, index with
  | .unEval scope' exprId e env', .global id => do
    let a ← evalUnevaling eval (a.recordUse true env symbol index) scope' exprId env' e
    a.setEvaluated id symbol
  | _, _ => some (a.recordUse true env symbol index)

/-- `visit_path_expr` of the evaluator, for a path of two segments. -/
def evalAssocPath (eval : Analyzer → NodeId → Env → Expr → Option Analyzer) (a : Analyzer)
    (scope : NodeId) (ty symbol : Symbol) : Option Analyzer := do
  let found ← search a scope ty symbol
  match found with
  | none => some a
  | some (id, name) => do
    let c ← a.assocs id name
    match c with
    | .unEval scope' exprId e env' => do
      let a ← evalUnevaling eval a scope' exprId env' e
      some (a.setAssoc id name .evaluated)
    | _ => some a

/-- `const_eval`, for what it looks up. -/
def constEval : Nat → Analyzer → NodeId → Env → Expr → Option Analyzer
  | 0, _, _, _, _ => none
  | fuel + 1, a, scope, env, e =>
    match e with
    | .lit => some a
    | .path symbol => evalPath (constEval fuel) fuel a scope env symbol
    | .assocPath ty symbol => evalAssocPath search (constEval fuel) a scope ty symbol
    | .operands es => es.foldlM (fun a e => constEval fuel a scope env e) a
    | _ => none

/-- `resolve_type`. -/
def resolveType (fuel : Nat) (a : Analyzer) (scope : NodeId) (env : Env) : Ty → Option Analyzer
  | .mk lens => lens.foldlM (fun a len => constEval search fuel a scope env.leave len) a

/-- Several types, one after the other. -/
def resolveTypes (fuel : Nat) (a : Analyzer) (scope : NodeId) (env : Env) (tys : List Ty) :
    Option Analyzer :=
  tys.foldlM (fun a ty => resolveType search fuel a scope env ty) a

end

/-! ## The visitors -/

/-- `ItemExtra` and `ExprExtra`: the scope around, and `associated_info.is_trait`. -/
structure Ctx where
  scope : NodeId
  env : Env
  assoc : Option Bool

/-- What is inside a scope. -/
def Ctx.enter (ctx : Ctx) (id : NodeId) (items : List Symbol) (assoc : Option Bool) : Ctx :=
  ⟨id, ctx.env.push ⟨id, items, []⟩, assoc⟩

/-- What is inside a function. -/
def Ctx.enterFn (ctx : Ctx) (id : NodeId) (params : List (Symbol × NodeId)) : Ctx :=
  ⟨id, ctx.env.leave.push ⟨id, [], params.reverse⟩, none⟩

/-- What follows a declaration. -/
def Ctx.bind (ctx : Ctx) (bindings : List (Symbol × NodeId)) : Ctx :=
  match ctx.env.here with
  | [] => ctx
  | rib :: here =>
    { ctx with env := ⟨{ rib with bindings := bindings.reverse ++ rib.bindings } :: here,
        ctx.env.outer⟩ }

/-- What a statement sees of the ones before it: the bindings of a `let`. -/
def Ctx.after (ctx : Ctx) : Stmt → Ctx
  | .letStmt pat _ _ => ctx.bind (pat.bindings.getD [])
  | _ => ctx

/-- What the visitors visit. -/
inductive Node where
  | expr (e : Expr)
  | block (b : Block)
  | stmt (s : Stmt)
  | item (i : Item)

/-- The recursive call. -/
abbrev Visit := Analyzer → Ctx → Node → Option Analyzer

section

variable (search : SearchAssoc) (stage : AnalyzeStage) (fuel : Nat) (visit : Visit)

/-- What is done at one stage only. -/
def atStage (s : AnalyzeStage) (f : Analyzer → Option Analyzer) (a : Analyzer) : Option Analyzer :=
  if stage = s then f a else some a

/-- `add_scope`, at the first stage only. -/
def addScopeAt (a : Analyzer) (id father : NodeId) (items : List Symbol) : Option Analyzer :=
  atStage stage .symbolCollect (fun a => a.addScope id father items) a

/-- `add_impl_value` or `add_scope_value`. -/
def addConstant (a : Analyzer) (ctx : Ctx) (ident : Symbol) (c : ConstantValue) : Option Analyzer :=
  match ctx.assoc with
  | some _ =>
    match a.assocs ctx.scope ident with
    | some _ => none
    | none => some (a.setAssoc ctx.scope ident c)
  | none => a.addScopeValue ctx.scope ident (.constant c)

/-- `visit_const_item`: declared at the second stage, evaluated at the third. -/
def visitConstItem (a : Analyzer) (ctx : Ctx) (ident : Symbol) (ty : Ty) (exprId : NodeId)
    (expr : Option Expr) : Option Analyzer :=
  match stage with
  | .symbolCollect => some a
  | .definition => do
    let a ← resolveType search fuel a ctx.scope ctx.env ty
    match expr with
    | some e => addConstant a ctx ident (.unEval ctx.scope exprId e ctx.env.leave)
    | none => if ctx.assoc = some true then addConstant a ctx ident .placeholder else none
  | .body =>
    match ctx.assoc with
    | some _ => do
      let c ← a.assocs ctx.scope ident
      match c with
      -- the value is evaluated and then looked for in the scope of the impl: a panic
      | .unEval _ _ _ _ => none
      | _ => some a
    | none => do
      let c ← a.constantAt ident (.global ctx.scope)
      match c with
      | .unEval scope exprId e env => do
        let a ← evalUnevaling (constEval search fuel) a scope exprId env e
        a.setEvaluated ctx.scope ident
      | _ => some a

/-- The bindings of the parameters. -/
def paramBindings (params : List (Pat × Ty)) : Option (List (Symbol × NodeId)) :=
  (params.mapM fun p : Pat × Ty => p.1.bindings).map List.flatten

/-- The signature of a function. -/
def visitFnSig (a : Analyzer) (ctx : Ctx) (id : NodeId) (ident : Symbol) (params : List (Pat × Ty))
    (ret : Ty) (hasBody : Bool) : Option Analyzer :=
  match stage with
  | .symbolCollect => a.addScope id ctx.scope []
  | .definition => do
    guard (hasBody ∨ ctx.assoc = some true)
    let a ← resolveTypes search fuel a ctx.scope ctx.env (params.map Prod.snd ++ [ret])
    if ctx.assoc.isSome then some a else a.addScopeValue ctx.scope ident .fn
  | .body => do
    let a ← resolveTypes search fuel a ctx.scope ctx.env (params.map Prod.snd)
    let bindings ← paramBindings params
    a.addBindings fuel id [] bindings

/-- `visit_fn_item`. -/
def visitFnItem (a : Analyzer) (ctx : Ctx) (id : NodeId) (ident : Symbol) (params : List (Pat × Ty))
    (ret : Ty) (body : Option Block) : Option Analyzer := do
  let a ← visitFnSig search stage fuel a ctx id ident params ret body.isSome
  match body with
  | some b => visit a (ctx.enterFn id ((paramBindings params).getD [])) (.block b)
  | none => some a

/-- The items of a block, a trait or an impl. -/
def visitItems (a : Analyzer) (ctx : Ctx) (items : List Item) : Option Analyzer :=
  items.foldlM (fun a item => visit a ctx (.item item)) a

/-- `visit_struct_item`: the type is resolved in a scope of its own. -/
def visitStructItem (a : Analyzer) (ctx : Ctx) (id : NodeId) (ident : Symbol)
    (variants : VariantData) (fields : List Ty) : Option Analyzer :=
  match stage with
  | .symbolCollect => if variants = .tuple then none else a.addScope id ctx.scope []
  | .definition =>
    match variants with
    | .struct => resolveTypes search fuel a id (ctx.env.push ⟨id, [], []⟩) fields
    | .tuple => none
    | .unit => a.addScopeValue ctx.scope ident (.constant .evaluated)
  | .body => some a

/-- `visit_trait_item`. -/
def visitTraitItem (a : Analyzer) (ctx : Ctx) (id : NodeId)
    (items : List AssocItem) : Option Analyzer := do
  let a ← addScopeAt stage a id ctx.scope []
  visitItems visit a (ctx.enter id [] (some true)) (items.map AssocItem.toItem)

/-- `visit_impl_item`. -/
def visitImplItem (a : Analyzer) (ctx : Ctx) (id : NodeId) (selfTy : Ty)
    (items : List AssocItem) : Option Analyzer := do
  let a ← addScopeAt stage a id ctx.scope []
  let a ← atStage stage .definition (fun a => resolveType search fuel a ctx.scope ctx.env selfTy) a
  visitItems visit a (ctx.enter id [] (some false)) (items.map AssocItem.toItem)

/-- The cases of `visit_item`. -/
def visitItem (a : Analyzer) (ctx : Ctx) : Item → Option Analyzer
  | .const ident ty exprId expr => visitConstItem search stage fuel a ctx ident ty exprId expr
  | .fn id ident params ret body => visitFnItem search stage fuel visit a ctx id ident params ret body
  | .struct id ident variants fields => visitStructItem search stage fuel a ctx id ident variants fields
  | .enum => some a
  | .trait id items => visitTraitItem stage visit a ctx id items
  | .impl id selfTy items => visitImplItem search stage fuel visit a ctx id selfTy items

/-- `visit_let_stmt`: the bindings are added after the value was visited. -/
def visitLocalStmt (a : Analyzer) (ctx : Ctx) (pat : Pat) (ty : Option Ty) (init : Expr) :
    Option Analyzer :=
  if stage = .body then do
    let a ← resolveTypes search fuel a ctx.scope ctx.env ty.toList
    let a ← visit a ctx (.expr init)
    let bindings ← pat.bindings
    a.addBindings fuel ctx.scope [] bindings
  else visit a ctx (.expr init)

/-- The cases of `visit_stmt`. -/
def visitStmt (a : Analyzer) (ctx : Ctx) : Stmt → Option Analyzer
  | .letStmt pat ty init => visitLocalStmt search stage fuel visit a ctx pat ty init
  | .item i => visit a ctx (.item i)
  | .expr e => visit a ctx (.expr e)

/-- The statements in order, each after the bindings of the ones before. -/
def visitStmts : Analyzer → Ctx → List Stmt → Option Analyzer
  | a, _, [] => some a
  | a, ctx, s :: stmts => do
    let a ← visit a ctx (.stmt s)
    visitStmts a (ctx.after s) stmts

/-- `visit_block_expr`. -/
def visitBlockExpr (a : Analyzer) (ctx : Ctx) : Block → Option Analyzer
  | .mk id stmts => do
    let a ← addScopeAt stage a id ctx.scope (stmts.filterMap Stmt.valueName)
    visitStmts visit a (ctx.enter id (stmts.filterMap Stmt.valueName) none) stmts

/-- `visit_path_expr`, for a path of one segment. -/
def visitPathExpr (a : Analyzer) (ctx : Ctx) (symbol : Symbol) : Option Analyzer :=
  if stage = .body then do
    let found ← a.searchValue symbol fuel (some ctx.scope)
    let index ← found
    some (a.recordUse false ctx.env symbol index)
  else some a

/-- `visit_while_expr`: the scope that it adds is used by none of its parts at the last stage. -/
def visitWhileExpr (a : Analyzer) (ctx : Ctx) (id : NodeId) (cond : Expr) (body : Block) :
    Option Analyzer := do
  let a ← addScopeAt stage a id ctx.scope []
  let a ← visit a ctx (.expr cond)
  -- the scope of a block is looked at when it is added only
  visit a { ctx.enter id [] none with scope := if stage = .body then ctx.scope else id } (.block body)

/-- `visit_loop_expr`. -/
def visitLoopExpr (a : Analyzer) (ctx : Ctx) (id : NodeId) (body : Block) : Option Analyzer := do
  let a ← addScopeAt stage a id ctx.scope []
  visit a (ctx.enter id [] none) (.block body)

/-- `visit_repeat_expr`: the length is a constant. -/
def visitRepeatExpr (a : Analyzer) (ctx : Ctx) (elm len : Expr) : Option Analyzer := do
  let a ← atStage stage .body (fun a => constEval search fuel a ctx.scope ctx.env.leave len) a
  visit a ctx (.expr elm)

/-- `visit_cast_expr`. -/
def visitCastExpr (a : Analyzer) (ctx : Ctx) (e : Expr) (ty : Ty) : Option Analyzer := do
  let a ← atStage stage .body (fun a => resolveType search fuel a ctx.scope ctx.env ty) a
  visit a ctx (.expr e)

/-- The cases of `visit_expr`. -/
def visitExpr (a : Analyzer) (ctx : Ctx) : Expr → Option Analyzer
  | .path symbol => visitPathExpr stage fuel a ctx symbol
  | .assocPath _ _ => some a
  | .lit => some a
  | .block b => visit a ctx (.block b)
  | .whileExpr id cond body => visitWhileExpr stage visit a ctx id cond body
  | .loopExpr id body => visitLoopExpr stage visit a ctx id body
  | .repeatExpr elm len => visitRepeatExpr search stage fuel visit a ctx elm len
  | .cast e ty => visitCastExpr search stage fuel visit a ctx e ty
  | .operands es => es.foldlM (fun a e => visit a ctx (.expr e)) a

/-- One visitor for all kinds of node. -/
def visitNode (a : Analyzer) (ctx : Ctx) : Node → Option Analyzer
  | .expr e => visitExpr search stage fuel visit a ctx e
  | .block b => visitBlockExpr stage visit a ctx b
  | .stmt s => visitStmt search stage fuel visit a ctx s
  | .item i => visitItem search stage fuel visit a ctx i

end

/-- One stage; the fuel bounds the depth of the program. -/
def visit (search : SearchAssoc) (stage : AnalyzeStage) : Nat → Visit
  | 0, _, _, _ => none
  | fuel + 1, a, ctx, n => visitNode search stage fuel (visit search stage fuel) a ctx n

/-- A crate: its scope and its items. -/
structure Crate where
  id : NodeId
  items : List Item

/-- The scope around the crate, with the names of the prelude. -/
def rootRib (preludes : List Symbol) : Rib := ⟨0, preludes, []⟩

/-- The items that have a value. -/
def Crate.names (krate : Crate) : List Symbol := krate.items.filterMap Item.valueName

/-- The crate is visited inside the root scope. -/
def Crate.ctx (krate : Crate) (preludes : List Symbol) : Ctx :=
  ⟨krate.id, ⟨[⟨krate.id, krate.names, []⟩], [rootRib preludes]⟩, none⟩

/-- `new`: the root has the functions of the prelude. -/
def Analyzer.new (preludes : List Symbol) : Analyzer where
  scopes := Function.update (fun _ => none) 0
    (some ⟨true, 0, preludes, fun s => if s ∈ preludes then some .fn else none, fun _ => none⟩)
  assocs _ _ := none
  evaledConst := []
  uses := []

/-- `visit_crate`. -/
def visitCrate (search : SearchAssoc) (fuel : Nat) (preludes : List Symbol) (krate : Crate)
    (stage : AnalyzeStage) (a : Analyzer) : Option Analyzer := do
  let a ← addScopeAt stage a krate.id 0 krate.names
  visitItems (visit search stage fuel) a (krate.ctx preludes) krate.items

/-- `visit`: the stages one after the other. -/
def analyze (search : SearchAssoc) (fuel : Nat) (preludes : List Symbol) (krate : Crate) :
    Option Analyzer := do
  let a ← visitCrate search fuel preludes krate .symbolCollect (.new preludes)
  let a ← visitCrate search fuel preludes krate .definition a
  visitCrate search fuel preludes krate .body a

end Resolve
