import C0mpiler.Semantics.ResolveStages
import Mathlib

/-!
# Collecting and defining

Collecting symbols gives every node with a scope a new one, whose father is the scope around and
whose items are those of the node. Defining keeps the invariant of the tables, constants that are
evaluated early included, and afterwards the tables have the items of every block.
-/

namespace Resolve

open Lexical Analyzer

variable {search : SearchAssoc} {stage : AnalyzeStage} {fuel : Nat} {a a' b c d st st' : Analyzer}
  {ctx : Ctx} {n : Node}

/-! ## Contexts -/

/-- A node without a scope is visited in the context around it. -/
theorem Ctx.inside_none (h : n.rib = none) : ctx.inside n = ctx := by
  unfold Node.rib at h
  unfold Ctx.inside
  split at h <;> first | rfl | cases h

/-- A node with a scope puts it in front. -/
theorem Ctx.inside_some (ctx : Ctx) {rib : Rib} (h : n.rib = some rib) :
    (ctx.inside n).scope = rib.scope ∧ (ctx.inside n).env.ribs = rib :: ctx.env.ribs ∧
      ∃ here, (ctx.inside n).env.here = rib :: here := by
  unfold Node.rib at h
  unfold Ctx.inside
  split at h <;> cases h <;> exact ⟨rfl, rfl, _, rfl⟩

/-- A statement adds bindings and no scope. -/
theorem Ctx.next_scope (ctx : Ctx) (n : Node) :
    (ctx.next n).scope = ctx.scope ∧ (ctx.next n).assoc = ctx.assoc := by
  unfold Ctx.next Ctx.after Ctx.bind
  split <;> try exact ⟨rfl, rfl⟩
  split <;> try exact ⟨rfl, rfl⟩
  split <;> exact ⟨rfl, rfl⟩

/-- A declaration changes neither the scopes nor the items of the ribs. -/
theorem Ctx.next_ribs (ctx : Ctx) (n : Node) :
    (ctx.next n).env.ribs.map (fun rib => (rib.scope, rib.items)) =
      ctx.env.ribs.map fun rib => (rib.scope, rib.items) := by
  unfold Ctx.next Ctx.after Ctx.bind
  split <;> try rfl
  split <;> try rfl
  split
  · rfl
  · next hhere =>
    unfold Env.ribs
    rw [hhere]
    rfl

/-- A chain of scopes is a matter of their ids and items. -/
theorem chain_congr {start : Option NodeId} {ribs ribs' : List Rib} (h : st.Chain start ribs)
    (hribs : ribs'.map (fun rib => (rib.scope, rib.items)) =
      ribs.map fun rib => (rib.scope, rib.items)) : st.Chain start ribs' := by
  induction ribs generalizing start ribs' with
  | nil =>
    rw [List.map_eq_nil_iff.mp hribs]
    exact h
  | cons rib ribs ih =>
    obtain ⟨rib', ribs', rfl, hrib, hrest⟩ := List.map_eq_cons_iff.mp hribs
    obtain ⟨hscope, hitems⟩ := Prod.mk.inj hrib
    cases start with
    | none => exact h.elim
    | some start =>
      obtain ⟨heq, parent, hshape, hchain⟩ := h
      exact ⟨hscope.trans heq, parent, hitems ▸ hshape, ih hchain hrest⟩

/-- The chain inside a node, from the chain around it. -/
theorem chain_inside {rib : Rib} (hchain : st.Chain (some ctx.scope) ctx.env.ribs)
    (hrib : n.rib = some rib) (hshape : st.shape rib.scope = some (some ctx.scope, rib.items)) :
    st.Chain (some (ctx.inside n).scope) (ctx.inside n).env.ribs := by
  obtain ⟨hscope, hribs, -⟩ := ctx.inside_some hrib
  rw [hscope, hribs]
  exact ⟨rfl, some ctx.scope, hshape, hchain⟩

/-! ## Collecting -/

/-- A new scope has no values, so it keeps the invariant. -/
theorem addScope_ok {id father : NodeId} {items : List Symbol}
    (h : a.addScope id father items = some a') (ha : a.Ok) : a'.Ok := by
  obtain ⟨-, heq, -, hvalues, hgrows⟩ := addScope_spec h
  exact ha.of_views (hgrows True) hvalues (heq ▸ rfl) (heq ▸ rfl)

/-- At the first stage the scope is added. -/
theorem addScopeAt_collect {id father : NodeId} {items : List Symbol}
    (h : addScopeAt .symbolCollect a id father items = some a') :
    a.addScope id father items = some a' := h

/-- Collecting adds the scope of the node. -/
theorem enterNode_collect (h : enterNode search .symbolCollect fuel a ctx n = some a') :
    (a.Ok → a'.Ok) ∧ ∀ rib ∈ n.rib,
      a.shape rib.scope = none ∧ a'.shape rib.scope = some (some ctx.scope, rib.items) := by
  have hadd : ∀ (id : NodeId) (items : List Symbol) (bindings : List (Symbol × NodeId))
      (a' : Analyzer), a.addScope id ctx.scope items = some a' → (a.Ok → a'.Ok) ∧
        ∀ rib ∈ some (Rib.mk id items bindings),
          a.shape rib.scope = none ∧ a'.shape rib.scope = some (some ctx.scope, rib.items) := by
    intro id items bindings a' h
    obtain ⟨hnew, -, hshape, -⟩ := addScope_spec h
    refine ⟨addScope_ok h, fun rib hrib => ?_⟩
    cases hrib
    exact ⟨hnew, hshape⟩
  have hsame : ∀ a' : Analyzer, some a = some a' → (a.Ok → a'.Ok) := by
    intro a' h
    cases h
    exact fun ha => ha
  unfold enterNode at h
  split at h
  · exact ⟨hsame _ h, fun _ h => nomatch h⟩
  · exact hadd _ _ _ _ h
  · exact ⟨hsame _ h, fun _ h => nomatch h⟩
  · exact ⟨hsame _ h, fun _ h => nomatch h⟩
  · exact hadd _ _ _ _ h
  · exact ⟨hsame _ h, fun _ h => nomatch h⟩
  · exact hadd _ _ _ _ h
  -- a struct; its fields are in a scope of their own
  · unfold visitStructItem at h
    dsimp only at h
    split at h
    · cases h
    · exact hadd _ _ _ _ h
  · exact hadd _ _ _ _ h
  -- an impl adds its scope and resolves no type yet
  · obtain ⟨a₁, hscope, h⟩ := Option.bind_eq_some_iff.mp h
    cases h
    exact hadd _ _ _ _ hscope
  -- every other node has no scope, as the cases above are its only ones
  · next hpath hloop hrepeat hcast hblock hconst hfn hstruct htrait himpl =>
    refine ⟨hsame _ h, fun rib hrib => ?_⟩
    unfold Node.rib at hrib
    split at hrib
    · exact (hloop _ _ rfl).elim
    · exact (hblock _ _ rfl).elim
    · exact (hfn _ _ _ _ _ rfl).elim
    · exact (hstruct _ _ _ _ rfl).elim
    · exact (htrait _ _ rfl).elim
    · exact (himpl _ _ _ rfl).elim
    · cases hrib

/-- Nodes one after the other. -/
theorem visitNodes_ok {visit : Visit}
    (hvisit : ∀ a ctx n a', visit a ctx n = some a' → a.Ok → a'.Ok) {ns : List Node}
    (h : visitNodes visit a ctx ns = some a') (ha : a.Ok) : a'.Ok := by
  induction ns generalizing a ctx with
  | nil =>
    cases h
    exact ha
  | cons n ns ih =>
    obtain ⟨a₁, hfirst, hrest⟩ := Option.bind_eq_some_iff.mp h
    exact ih hrest (hvisit _ _ _ _ hfirst ha)

/-- Collecting keeps the invariant. -/
theorem collect_ok (h : visit search .symbolCollect fuel a ctx n = some a') (ha : a.Ok) : a'.Ok := by
  induction fuel generalizing a ctx n a' with
  | zero => cases h
  | succ fuel ih =>
    by_cases hn : n.Plain
    · obtain ⟨a₁, henter, hnodes⟩ := Option.bind_eq_some_iff.mp ((visitNode_eq hn).symm.trans h)
      exact visitNodes_ok (fun _ _ _ _ h ha => ih h ha) hnodes ((enterNode_collect henter).1 ha)
    · unfold Node.Plain at hn
      split at hn
      · next pat ty init =>
        rcases visitLocalStmt_inv h with ⟨-, h⟩ | ⟨hbody, -⟩
        · exact ih h ha
        · cases hbody
      · next id cond body =>
        obtain ⟨a₁, a₂, hadd, hcond, hblock⟩ := visitWhileExpr_inv h
        exact ih hblock (ih hcond (addScope_ok (addScopeAt_collect hadd) ha))
      · exact absurd trivial hn

/-! ## Defining -/

/-- A struct is named in the block even inside a trait. -/
def Node.IsStruct : Node → Prop
  | .stmt (.item (.struct _ _ _ _)) | .item (.struct _ _ _ _) => True
  | _ => False

/-- The name of a node is one of the items of its scope, unless it goes into an impl. -/
def Named (st : Analyzer) (ctx : Ctx) (n : Node) : Prop :=
  ctx.assoc = none ∨ n.IsStruct → ∀ s ∈ n.valueName, ∃ parent items,
    st.shape ctx.scope = some (parent, items) ∧ s ∈ items

/-- A name is one of an item also when the tables have grown. -/
theorem Named.grows {quiet : Prop} (h : Named st ctx n) (hgrows : Grows quiet st st') :
    Named st' ctx n := by
  intro hassoc s hs
  obtain ⟨parent, items, hshape, hmem⟩ := h hassoc s hs
  exact ⟨parent, items, hgrows.shape _ _ hshape, hmem⟩

/-- A statement adds no name. -/
theorem Named.next {n' : Node} (h : Named st ctx n) : Named st (ctx.next n') n := by
  obtain ⟨hscope, hassoc⟩ := ctx.next_scope n'
  unfold Named
  rwa [hscope, hassoc]

/-- Declaring a constant keeps the invariant. -/
theorem addConstant_ok {ident : Symbol} {k : ConstantValue} (h : addConstant st ctx ident k = some st')
    (hst : st.Ok)
    (hitem : ctx.assoc = none → ∃ parent items, st.shape ctx.scope = some (parent, items) ∧ ident ∈ items)
    (hk : ∀ scope exprId e env, k = .unEval scope exprId e env → st.ConstEnv scope env) : st'.Ok := by
  unfold addConstant at h
  split at h
  · split at h
    · cases h
    · cases h
      exact hst.setAssoc hk
  · next hassoc =>
    refine hst.setsValue (addScopeValue_sets h) (hitem hassoc) fun scope exprId e env heq => ?_
    exact hk scope exprId e env (PlaceValue.constant.inj heq)

/-- Defining a node keeps the invariant. -/
theorem enterNode_definition (h : enterNode search .definition fuel st ctx n = some st')
    (hst : st.Ok) (hchain : st.Chain (some ctx.scope) ctx.env.ribs)
    (hrib : ∀ rib ∈ n.rib, st.shape rib.scope = some (some ctx.scope, rib.items))
    (hname : Named st ctx n) : st'.Ok := by
  have hsame : some st = some st' → st'.Ok := by
    intro h
    cases h
    exact hst
  unfold enterNode at h
  split at h
  · exact hsame h
  · exact hsame h
  · exact hsame h
  · exact hsame h
  · exact hsame h
  -- a constant: its type is resolved before it is declared, in the same scope
  · next ident ty exprId expr =>
    obtain ⟨st₁, hty, h⟩ := Option.bind_eq_some_iff.mp h
    obtain ⟨hgrows, hok⟩ := resolveType_sound hty
    have hitem : ctx.assoc = none → ∃ parent items,
        st₁.shape ctx.scope = some (parent, items) ∧ ident ∈ items :=
      fun hassoc => hname.grows (hgrows True) (.inl hassoc) ident rfl
    split at h
    · refine addConstant_ok h (hok hst hchain) hitem fun scope exprId e env heq => ?_
      cases heq
      exact (hchain.grows (hgrows True)).leave
    -- a constant of a trait without a value
    · split at h
      · refine addConstant_ok h (hok hst hchain) hitem fun scope exprId e env heq => ?_
        cases heq
      · cases h
  -- a function; one of a trait or an impl is declared elsewhere
  · next id ident params ret body =>
    obtain ⟨-, -, h⟩ := Option.bind_eq_some_iff.mp h
    obtain ⟨st₁, htys, h⟩ := Option.bind_eq_some_iff.mp h
    obtain ⟨hgrows, hok⟩ := resolveTypes_sound htys
    split at h
    · cases h
      exact hok hst hchain
    · next hassoc =>
      have hassoc : ctx.assoc = none := by simpa using hassoc
      refine (hok hst hchain).setsValue (addScopeValue_sets h)
        (hname.grows (hgrows True) (.inl hassoc) ident rfl) fun _ _ _ _ heq => ?_
      cases heq
  -- a struct: fields are resolved inside, a unit struct is a constant
  · next id ident variants fields =>
    unfold visitStructItem at h
    dsimp only at h
    split at h
    · have hshape := hrib ⟨id, [], []⟩ rfl
      exact (resolveTypes_sound h).2 hst ⟨rfl, some ctx.scope, hshape, hchain⟩
    · cases h
    · refine hst.setsValue (addScopeValue_sets h) (hname (.inr trivial) ident rfl)
        fun _ _ _ _ heq => ?_
      cases heq
  · exact hsame h
  -- the type of an impl
  · obtain ⟨st₁, hadd, h⟩ := Option.bind_eq_some_iff.mp h
    cases hadd
    exact (resolveType_sound h).2 hst hchain
  · exact hsame h

/-- The children of a node are named in its scope. -/
theorem children_named (hn : n.Plain) (hname : Named st ctx n)
    (hrib : ∀ rib ∈ n.rib, st.shape rib.scope = some (some ctx.scope, rib.items)) :
    ∀ m ∈ n.children, Named st (ctx.inside n) m := by
  have hexpr : ∀ (ctx : Ctx) (e : Expr), Named st ctx (.expr e) := fun _ _ _ _ h => nomatch h
  have hblock : ∀ (ctx : Ctx) (b : Block), Named st ctx (.block b) := fun _ _ _ _ h => nomatch h
  have hassoc : ∀ (ctx : Ctx) (k : Bool) (i : AssocItem), ctx.assoc = some k →
      Named st ctx (.item i.toItem) := by
    intro ctx k i hk h
    rcases h with h | h
    · rw [hk] at h
      cases h
    · cases i <;> exact h.elim
  intro m hm
  unfold Node.children at hm
  split at hm
  · rw [List.mem_singleton.mp hm]
    exact hblock _ _
  · rw [List.mem_singleton.mp hm]
    exact hblock _ _
  · rw [List.mem_singleton.mp hm]
    exact hexpr _ _
  · rw [List.mem_singleton.mp hm]
    exact hexpr _ _
  · obtain ⟨e, -, rfl⟩ := List.mem_map.mp hm
    exact hexpr _ _
  · cases hm
  -- the statements of a block declare what the block lists
  · next id stmts =>
    obtain ⟨s, hs, rfl⟩ := List.mem_map.mp hm
    intro _ name hsome
    refine ⟨some ctx.scope, stmts.filterMap Stmt.valueName, hrib ⟨id, _, []⟩ rfl, ?_⟩
    exact List.mem_filterMap.mpr ⟨s, hs, hsome⟩
  -- an item inside a statement has the name of the statement
  · next i =>
    rw [List.mem_singleton.mp hm]
    cases i <;> exact hname
  · rw [List.mem_singleton.mp hm]
    exact hexpr _ _
  -- a declaration is not plain
  · exact hn.elim
  · obtain ⟨b, -, rfl⟩ := List.mem_map.mp hm
    exact hblock _ _
  -- what a trait or an impl contains is not named in the scope
  · obtain ⟨i, -, rfl⟩ := List.mem_map.mp hm
    exact hassoc _ true i rfl
  · obtain ⟨i, -, rfl⟩ := List.mem_map.mp hm
    exact hassoc _ false i rfl
  · cases hm

/-- The scopes that collecting a node has added. -/
theorem visit_collect_rib (hn : n.Plain)
    (h : visit search .symbolCollect (fuel + 1) a ctx n = some b) :
    ∃ a₁, visitNodes (visit search .symbolCollect fuel) a₁ (ctx.inside n) n.children = some b ∧
      Grows False a a₁ ∧ Grows False a₁ b ∧ ∀ rib ∈ n.rib, a.shape rib.scope = none ∧
        a₁.shape rib.scope = some (some ctx.scope, rib.items) := by
  obtain ⟨a₁, henter, hnodes⟩ := Option.bind_eq_some_iff.mp ((visitNode_eq hn).symm.trans h)
  refine ⟨a₁, hnodes, (enterNode_grows henter).mono (fun h => h.elim), ?_, (enterNode_collect henter).2⟩
  exact visitNodes_grows (fun _ _ _ _ h => (visit_grows h).mono fun h => h.elim) hnodes

/-- What defining a list of nodes needs and keeps. -/
theorem visitNodes_definition
    (hvisit : ∀ a b st st' ctx n, visit search .symbolCollect fuel a ctx n = some b →
      visit search .definition fuel st ctx n = some st' → Grows False b st → st.Ok →
      st.Chain (some ctx.scope) ctx.env.ribs → Named st ctx n → st'.Ok) {ns : List Node}
    (hcollect : visitNodes (visit search .symbolCollect fuel) a ctx ns = some b)
    (h : visitNodes (visit search .definition fuel) st ctx ns = some st') (hb : Grows False b st)
    (hst : st.Ok) (hchain : st.Chain (some ctx.scope) ctx.env.ribs)
    (hname : ∀ n ∈ ns, Named st ctx n) : st'.Ok := by
  induction ns generalizing a st ctx with
  | nil =>
    cases h
    exact hst
  | cons n ns ih =>
    obtain ⟨a₁, hfirst, hrest⟩ := Option.bind_eq_some_iff.mp hcollect
    obtain ⟨st₁, hfirst', hrest'⟩ := Option.bind_eq_some_iff.mp h
    have hgrows : Grows False st st₁ := (visit_grows hfirst').mono fun h => h.elim
    have hb₁ : Grows False a₁ b :=
      visitNodes_grows (fun _ _ _ _ h => (visit_grows h).mono fun h => h.elim) hrest
    have hst₁ := hvisit _ _ _ _ _ _ hfirst hfirst' (hb₁.trans hb) hst hchain
      (hname n List.mem_cons_self)
    refine ih hrest hrest' (hb.trans hgrows) hst₁ ?_ fun m hm => ?_
    · rw [(ctx.next_scope n).1]
      exact chain_congr (hchain.grows hgrows) (ctx.next_ribs n)
    · exact ((hname m (List.mem_cons_of_mem _ hm)).grows hgrows).next

/-- Defining keeps the invariant. -/
theorem definition_ok (hcollect : visit search .symbolCollect fuel a ctx n = some b)
    (h : visit search .definition fuel st ctx n = some st') (hb : Grows False b st) (hst : st.Ok)
    (hchain : st.Chain (some ctx.scope) ctx.env.ribs) (hname : Named st ctx n) : st'.Ok := by
  induction fuel generalizing a b st st' ctx n with
  | zero => cases h
  | succ fuel ih =>
    -- a plain node: enter it, then its children
    by_cases hn : n.Plain
    · obtain ⟨a₁, hnodes, -, hb₁, hrib⟩ := visit_collect_rib hn hcollect
      obtain ⟨st₁, henter, hnodes'⟩ := Option.bind_eq_some_iff.mp ((visitNode_eq hn).symm.trans h)
      have hgrows : Grows False st st₁ := (enterNode_grows henter).mono fun h => h.elim
      have hrib' : ∀ rib ∈ n.rib, st.shape rib.scope = some (some ctx.scope, rib.items) :=
        fun rib hmem => (hb₁.trans hb).shape _ _ (hrib rib hmem).2
      have hrib₁ : ∀ rib ∈ n.rib, st₁.shape rib.scope = some (some ctx.scope, rib.items) :=
        fun rib hmem => hgrows.shape _ _ (hrib' rib hmem)
      have hst₁ := enterNode_definition henter hst hchain hrib' hname
      have hchain₁ := hchain.grows hgrows
      refine visitNodes_definition (fun _ _ _ _ _ _ h h' hb hst hc hn => ih h h' hb hst hc hn) hnodes
        hnodes' (hb.trans hgrows) hst₁ ?_ (children_named hn (hname.grows hgrows) hrib₁)
      cases hcase : n.rib with
      | none =>
        rw [Ctx.inside_none hcase]
        exact hchain₁
      | some rib => exact chain_inside hchain₁ hcase (hrib₁ rib hcase)
    · have hexpr : ∀ (ctx : Ctx) (e : Expr), Named st ctx (.expr e) := fun _ _ _ _ h => nomatch h
      unfold Node.Plain at hn
      split at hn
      -- the two nodes that are not plain: a `let`, and a `while` with its own scope
      · next pat ty init =>
        rcases visitLocalStmt_inv hcollect with ⟨-, hcollect⟩ | ⟨hbody, -⟩
        · rcases visitLocalStmt_inv h with ⟨-, h⟩ | ⟨hbody, -⟩
          · exact ih hcollect h hb hst hchain (hexpr _ _)
          · cases hbody
        · cases hbody
      · next id cond body =>
        obtain ⟨a₁, a₂, hadd, hcond, hblock⟩ := visitWhileExpr_inv hcollect
        obtain ⟨st₁, st₂, hadd', hcond', hblock'⟩ := visitWhileExpr_inv h
        cases hadd'
        have hshape := (addScope_spec (addScopeAt_collect hadd)).2.2.1
        have hb₂ : Grows False a₂ b := (visit_grows hblock).mono fun h => h.elim
        have hb₁ : Grows False a₁ b := ((visit_grows hcond).mono fun h => h.elim).trans hb₂
        have hgrows : Grows False st st₂ := (visit_grows hcond').mono fun h => h.elim
        have hst₂ := ih hcond hcond' (hb₂.trans hb) hst hchain (hexpr _ _)
        refine ih hblock hblock' (hb.trans hgrows) hst₂ ?_ fun _ _ h => nomatch h
        exact ⟨rfl, some ctx.scope, ((hb₁.trans hb).trans hgrows).shape _ _ hshape,
          hchain.grows hgrows⟩
      · exact absurd trivial hn

/-! ## What has been defined -/

/-- Defining a node defines its name. -/
theorem enterNode_defines {i : Item} (h : enterNode search .definition fuel c ctx (.item i) = some d)
    (hassoc : ctx.assoc = none) : ∀ s ∈ i.valueName, (d.valueAt ctx.scope s).isSome := by
  have hset : ∀ (c d : Analyzer) (s : Symbol) (value : PlaceValue),
      c.addScopeValue ctx.scope s value = some d → (d.valueAt ctx.scope s).isSome := by
    intro c d s value h
    rw [(addScopeValue_sets h).valueAt, if_pos ⟨rfl, rfl⟩]
    rfl
  have hconst : ∀ (c d : Analyzer) (s : Symbol) (k : ConstantValue),
      addConstant c ctx s k = some d → (d.valueAt ctx.scope s).isSome := by
    intro c d s k h
    unfold addConstant at h
    rw [hassoc] at h
    exact hset _ _ _ _ h
  intro s hs
  cases i with
  -- a constant with a value, or one of a trait, which is not looked up here
  | const ident ty exprId expr =>
    cases hs
    obtain ⟨c₁, -, h⟩ := Option.bind_eq_some_iff.mp h
    split at h
    · exact hconst _ _ _ _ h
    · split at h
      · exact hconst _ _ _ _ h
      · cases h
  | fn id ident params ret body =>
    cases hs
    obtain ⟨-, -, h⟩ := Option.bind_eq_some_iff.mp h
    obtain ⟨c₁, -, h⟩ := Option.bind_eq_some_iff.mp h
    rw [hassoc] at h
    exact hset _ _ _ _ h
  | struct id ident variants fields =>
    cases variants with
    | unit =>
      cases hs
      exact hset _ _ _ _ h
    | struct | tuple => cases hs
  | enum | trait | impl => cases hs

/-- An item has a value at the end of the second stage. -/
theorem visit_defines (h : visit search .definition fuel c ctx n = some d) (hassoc : ctx.assoc = none) :
    ∀ s ∈ n.valueName, (d.valueAt ctx.scope s).isSome := by
  induction fuel generalizing c d n with
  | zero => cases h
  | succ fuel ih =>
    intro s hs
    cases n with
    | expr e => cases hs
    | block b => cases hs
    | stmt stmt =>
      cases stmt with
      | letStmt => cases hs
      | expr => cases hs
      | item i => exact ih (n := .item i) h s hs
    | item i =>
      obtain ⟨c₁, henter, hnodes⟩ :=
        Option.bind_eq_some_iff.mp ((visitNode_eq (n := .item i) trivial).symm.trans h)
      have hgrows := visitNodes_grows (fun _ _ _ _ h => visit_grows h) hnodes
      exact hgrows.values _ _ (enterNode_defines henter hassoc s hs)

/-- The same for each of several nodes. -/
theorem visitNodes_defines {ns : List Node}
    (h : visitNodes (visit search .definition fuel) c ctx ns = some d) (hassoc : ctx.assoc = none) :
    ∀ n ∈ ns, ∀ s ∈ n.valueName, (d.valueAt ctx.scope s).isSome := by
  induction ns generalizing c ctx with
  | nil => exact fun _ h => nomatch h
  | cons n ns ih =>
    obtain ⟨c₁, hfirst, hrest⟩ := Option.bind_eq_some_iff.mp h
    have hgrows := visitNodes_grows (fun _ _ _ _ h => visit_grows h) hrest
    obtain ⟨hscope, hassoc'⟩ := ctx.next_scope n
    refine List.forall_mem_cons.mpr ⟨fun s hs => ?_, ?_⟩
    · exact hgrows.values _ _ (visit_defines hfirst hassoc s hs)
    · have hrest' := ih hrest (hassoc'.trans hassoc)
      rwa [hscope] at hrest'

end Resolve
