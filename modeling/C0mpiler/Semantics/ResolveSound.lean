import C0mpiler.Semantics.ResolveDefine
import Mathlib

/-!
# Name resolution against lexical scoping

While a body is visited, the tables along the chain of scopes are the ribs of the environment: every
item is there, and of the bindings those that have been declared so far (`BodyEnv`). So
`search_value` finds what a walk over the ribs finds that takes items first and never stops at a
function, and that is the declaration of the language's rules exactly for the clear names.
-/

namespace Resolve

open Lexical Analyzer

variable {search : SearchAssoc} {fuel : Nat} {a a₁ b c d st st₁ st' : Analyzer} {ctx ctx' : Ctx}
  {n : Node}

/-! ## The environment of a body -/

/-- The tables of the last stage agree with the scopes around a node: the items have values, and the
bindings are the ones declared so far. -/
structure BodyEnv (st : Analyzer) (ctx : Ctx) : Prop where
  chain : st.Chain (some ctx.scope) ctx.env.ribs
  nodup : (ctx.env.ribs.map Rib.scope).Nodup
  full : ∀ rib ∈ ctx.env.ribs, ∀ s ∈ rib.items, (st.valueAt rib.scope s).isSome
  bound : ∀ rib ∈ ctx.env.ribs, ∀ s, st.bindingAt rib.scope s = rib.bindings.lookup s
  here : ∃ rib here, ctx.env.here = rib :: here

namespace BodyEnv

/-- Nothing has been bound in the scopes of the environment. -/
theorem frame (h : BodyEnv st ctx) (hgrows : Grows False st st')
    (hbindings : ∀ rib ∈ ctx.env.ribs, ∀ s, st'.bindingAt rib.scope s = st.bindingAt rib.scope s) :
    BodyEnv st' ctx where
  chain := h.chain.grows hgrows
  nodup := h.nodup
  full rib hrib s hs := hgrows.values _ _ (h.full rib hrib s hs)
  bound rib hrib s := (hbindings rib hrib s).trans (h.bound rib hrib s)
  here := h.here

/-- Into a scope. -/
theorem enter (rib : Rib) (h : BodyEnv st ctx) (hscope : ctx'.scope = rib.scope)
    (hribs : ctx'.env.ribs = rib :: ctx.env.ribs) (hhere : ∃ here, ctx'.env.here = rib :: here)
    (hnew : rib.scope ∉ ctx.env.ribs.map Rib.scope)
    (hshape : st.shape rib.scope = some (some ctx.scope, rib.items))
    (hfull : ∀ s ∈ rib.items, (st.valueAt rib.scope s).isSome)
    (hbound : ∀ s, st.bindingAt rib.scope s = rib.bindings.lookup s) : BodyEnv st ctx' where
  chain := by
    rw [hscope, hribs]
    exact ⟨rfl, some ctx.scope, hshape, h.chain⟩
  nodup := by
    rw [hribs]
    exact List.nodup_cons.mpr ⟨hnew, h.nodup⟩
  full := by
    rw [hribs]
    exact List.forall_mem_cons.mpr ⟨hfull, h.full⟩
  bound := by
    rw [hribs]
    exact List.forall_mem_cons.mpr ⟨hbound, h.bound⟩
  here := ⟨rib, hhere⟩

/-- The scope of the context is the scope of the innermost rib. -/
theorem head (h : BodyEnv st ctx) : ∃ rib here, ctx.env.here = rib :: here ∧ rib.scope = ctx.scope := by
  obtain ⟨rib, here, hhere⟩ := h.here
  have hchain := h.chain
  unfold Env.ribs at hchain
  rw [hhere] at hchain
  exact ⟨rib, here, hhere, hchain.1⟩

/-- The current scope is among the scopes around. -/
theorem scope_mem (h : BodyEnv st ctx) : ctx.scope ∈ ctx.env.ribs.map Rib.scope := by
  obtain ⟨rib, here, hhere, hscope⟩ := h.head
  unfold Env.ribs
  rw [hhere, ← hscope]
  exact List.mem_cons_self

/-- Past a declaration. -/
theorem bind {bindings : List (Symbol × NodeId)} (h : BodyEnv st ctx)
    (hadd : st.addBindings fuel ctx.scope [] bindings = some st') :
    BodyEnv st' (ctx.bind bindings) := by
  obtain ⟨hgrows, -, -, -, hothers, hown⟩ := addBindings_spec hadd
  obtain ⟨rib, here, hhere, hscope⟩ := h.head
  have hribs : ctx.env.ribs = rib :: (here ++ ctx.env.outer) := by
    unfold Env.ribs
    rw [hhere]
    rfl
  have hbind : (ctx.bind bindings).scope = ctx.scope ∧ (ctx.bind bindings).env.ribs =
      { rib with bindings := bindings.reverse ++ rib.bindings } :: (here ++ ctx.env.outer) ∧
      (ctx.bind bindings).env.here =
        { rib with bindings := bindings.reverse ++ rib.bindings } :: here := by
    unfold Ctx.bind
    rw [hhere]
    exact ⟨rfl, rfl, rfl⟩
  have hnodup := h.nodup
  have hfull := h.full
  have hbound := h.bound
  have hchain := h.chain.grows hgrows
  rw [hribs] at hnodup hfull hbound hchain
  obtain ⟨hnew, -⟩ := List.nodup_cons.mp hnodup
  obtain ⟨hfull₁, hfull₂⟩ := List.forall_mem_cons.mp hfull
  obtain ⟨hbound₁, hbound₂⟩ := List.forall_mem_cons.mp hbound
  -- the new bindings are in the innermost scope; the others stay as they are
  refine ⟨?_, ?_, ?_, ?_, _, _, hbind.2.2⟩
  · rw [hbind.1, hbind.2.1]
    exact chain_congr hchain rfl
  · rw [hbind.2.1]
    exact hnodup
  · rw [hbind.2.1]
    refine List.forall_mem_cons.mpr ⟨?_, ?_⟩
    · exact fun s hs => hgrows.values _ _ (hfull₁ s hs)
    · exact fun rib hrib s hs => hgrows.values _ _ (hfull₂ rib hrib s hs)
  · rw [hbind.2.1]
    refine List.forall_mem_cons.mpr ⟨?_, fun r hr s => ?_⟩
    · intro s
      show st'.bindingAt rib.scope s = _
      rw [hscope]
      exact hown rib.bindings (fun s => hscope ▸ hbound₁ s) s
    · rw [hothers r.scope s ?_, hbound₂ r hr s]
      intro heq
      exact hnew (hscope.trans heq.symm ▸ List.mem_map_of_mem hr)

/-- The tables at a rib have what the rib has. -/
theorem foundAt_eq (h : BodyEnv st ctx) (hst : st.Ok) (s : Symbol) :
    ∀ rib ∈ ctx.env.ribs, st.foundAt s rib = rib.found s := by
  intro rib hrib
  obtain ⟨parent, hshape⟩ := h.chain.mem_shape rib hrib
  unfold foundAt Rib.found Rib.item Rib.binding
  rw [h.bound rib hrib]
  by_cases hs : s ∈ rib.items
  · obtain ⟨value, hvalue⟩ := Option.isSome_iff_exists.mp (h.full rib hrib s hs)
    rw [hvalue, if_pos hs]
    rfl
  · have hnone : st.valueAt rib.scope s = none := by
      by_contra hne
      obtain ⟨parent', items, hshape', hmem⟩ :=
        hst.items rib.scope s (Option.isSome_iff_ne_none.mpr hne)
      rw [hshape] at hshape'
      obtain ⟨-, rfl⟩ := Prod.mk.inj (Option.some.inj hshape')
      exact hs hmem
    rw [hnone, if_neg hs, Option.none_or]

/-- A lookup of a body is right exactly when the name is clear. -/
theorem path_use (h : BodyEnv st ctx) (hst : st.Ok) {s : Symbol} {index : ValueIndex}
    (hsearch : st.searchValue s fuel (some ctx.scope) = some (some index)) :
    Use.Lexical ⟨false, st.scopes, ctx.env, s, index⟩ ↔
      Use.Clear ⟨false, st.scopes, ctx.env, s, index⟩ := by
  have hfound : ctx.env.found s = some index := by
    rw [searchValue_eq h.chain hsearch]
    unfold Env.found
    exact (findSome_congr (h.foundAt_eq hst s)).symm
  exact Env.found_eq_lexical hfound

end BodyEnv

/-! ## Entering a node of a body -/

/-- What entering a node keeps: the invariant, and the bindings outside of the node's own scope, in
which the parameters of a function are bound. -/
structure Entered (st st' : Analyzer) (n : Node) : Prop where
  ok : st'.Ok
  others : ∀ id s, (∀ rib ∈ n.rib, id ≠ rib.scope) → st'.bindingAt id s = st.bindingAt id s
  own : ∀ rib ∈ n.rib, (∀ s, st.bindingAt rib.scope s = none) →
    ∀ s, st'.bindingAt rib.scope s = rib.bindings.lookup s

/-- Nothing is bound at all. -/
theorem Entered.of_quiet (hok : st'.Ok) (hgrows : Grows True st st')
    (hrib : ∀ rib ∈ n.rib, rib.bindings = []) : Entered st st' n where
  ok := hok
  others id s _ := hgrows.bindings trivial id s
  own rib hmem hnone s := by
    rw [hgrows.bindings trivial, hnone s, hrib rib hmem]
    rfl

/-- Entering a node at the last stage. -/
theorem enterNode_body (h : enterNode search .body fuel st ctx n = some st') (hst : st.Ok)
    (henv : BodyEnv st ctx) : Entered st st' n := by
  have hsame : some st = some st' → (∀ rib ∈ n.rib, rib.bindings = []) → Entered st st' n := by
    intro h hrib
    cases h
    exact .of_quiet hst (.refl st) hrib
  have hnone : ∀ rib ∈ (none : Option Rib), rib.bindings = [] := fun _ h => nomatch h
  have hnil : ∀ (id : NodeId) (items : List Symbol), ∀ rib ∈ some (Rib.mk id items []),
      rib.bindings = [] := fun _ _ rib hrib => by
    cases hrib
    rfl
  unfold enterNode at h
  split at h
  -- a name: what is found is recorded
  · obtain ⟨found, hsearch, h⟩ := Option.bind_eq_some_iff.mp h
    obtain ⟨index, hindex, h⟩ := Option.bind_eq_some_iff.mp h
    rw [hindex] at hsearch
    cases h
    exact .of_quiet (hst.recordUse (henv.path_use hst hsearch)) (Grows.of_scopes rfl) hnone
  · exact hsame h (hnil _ _)
  -- the length of a repeated array
  · obtain ⟨hgrows, hok⟩ := constEval_sound search fuel _ _ _ _ _ h
    exact .of_quiet (hok hst henv.chain.leave) (hgrows True) hnone
  -- the type of a cast
  · obtain ⟨hgrows, hok⟩ := resolveType_sound h
    exact .of_quiet (hok hst henv.chain) (hgrows True) hnone
  · exact hsame h (hnil _ _)
  -- a constant is evaluated unless it was before, which writes its value and no binding
  · next ident ty exprId expr =>
    have hgrows : Grows True st st' := visitConstItem_grows h
    refine .of_quiet ?_ hgrows hnone
    unfold visitConstItem at h
    dsimp only at h
    split at h
    · obtain ⟨k, -, h⟩ := Option.bind_eq_some_iff.mp h
      split at h
      · cases h
      · cases h
        exact hst
    · obtain ⟨k, hk, h⟩ := Option.bind_eq_some_iff.mp h
      split at h
      · next scope exprId e env =>
        obtain ⟨st₁, heval, h⟩ := Option.bind_eq_some_iff.mp h
        obtain ⟨id, -, hvalue⟩ := constantAt_global hk
        obtain ⟨-, hok⟩ := evalUnevaling_sound (constEval_sound search fuel) heval
        obtain ⟨hset, hdefined⟩ := setEvaluated_sets h
        have hst₁ := hok hst (hst.unEval _ _ _ _ _ _ hvalue)
        refine hst₁.setsValue hset (hst₁.items _ _ hdefined) fun _ _ _ _ heq => ?_
        cases heq
      · cases h
        exact hst
  -- a function: its scope was empty, and the parameters are the bindings in it
  · next id ident params ret body =>
    obtain ⟨st₁, htys, h⟩ := Option.bind_eq_some_iff.mp h
    obtain ⟨bindings, hbindings, h⟩ := Option.bind_eq_some_iff.mp h
    obtain ⟨hgrows, hok⟩ := resolveTypes_sound htys
    obtain ⟨hgrows', hvalues, hassocs, huses, hothers, hown⟩ := addBindings_spec h
    have hquiet := (hgrows True).bindings trivial
    refine ⟨(hok hst henv.chain).of_views hgrows' hvalues hassocs huses, ?_, ?_⟩
    · intro id' s hne
      rw [hothers id' s (hne ⟨id, [], _⟩ rfl), hquiet]
    · intro rib hrib hfree s
      cases hrib
      rw [hown [] (fun s => (hquiet id s).trans (hfree s)) s, List.append_nil, hbindings]
      rfl
  · exact hsame h (hnil _ _)
  · exact hsame h (hnil _ _)
  · exact hsame h (hnil _ _)
  -- every other node has no scope
  · next hpath hloop hrepeat hcast hblock hconst hfn hstruct htrait himpl =>
    refine hsame h fun rib hrib => ?_
    unfold Node.rib at hrib
    split at hrib
    · exact (hloop _ _ rfl).elim
    · exact (hblock _ _ rfl).elim
    · exact (hfn _ _ _ _ _ rfl).elim
    · exact (hstruct _ _ _ _ rfl).elim
    · exact (htrait _ _ rfl).elim
    · exact (himpl _ _ _ rfl).elim
    · cases hrib

/-! ## Visiting a body -/

/-- What the visit of a node of a body needs. Collecting it has gone from `a` to `b`, and defining it
has ended in `d`. -/
structure Ready (a b d st : Analyzer) (ctx : Ctx) : Prop where
  collected : Grows False b st
  defined : Grows False d st
  ok : st.Ok
  env : BodyEnv st ctx
  inside : ∀ id ∈ ctx.env.ribs.map Rib.scope, (a.shape id).isSome
  fresh : ∀ id s, a.shape id = none → (b.shape id).isSome → st.bindingAt id s = none

/-- What it gives: bindings have changed in the new scopes and in the scope around only. -/
structure Done (a b st st' : Analyzer) (ctx ctx' : Ctx) : Prop where
  grows : Grows False st st'
  ok : st'.Ok
  env : BodyEnv st' ctx'
  frame : ∀ id s, (a.shape id = none → b.shape id = none) → id ≠ ctx.scope →
    st'.bindingAt id s = st.bindingAt id s

/-- A scope that is not there at the end was not there before. -/
theorem Grows.shape_none {quiet : Prop} (h : Grows quiet a b) {id : NodeId} (hid : b.shape id = none) :
    a.shape id = none := by
  by_contra hne
  obtain ⟨sh, hsh⟩ := Option.ne_none_iff_exists'.mp hne
  rw [h.shape id sh hsh] at hid
  cases hid

/-- A statement leaves the scopes as they are. -/
theorem Ctx.next_scopes (ctx : Ctx) (n : Node) :
    (ctx.next n).env.ribs.map Rib.scope = ctx.env.ribs.map Rib.scope := by
  have h := congrArg (List.map Prod.fst) (ctx.next_ribs n)
  rwa [List.map_map, List.map_map] at h

/-- A scope that the collection makes is not around the node. -/
theorem Ready.notMem (h : Ready a b d st ctx) {id : NodeId} (hnew : a.shape id = none) :
    id ∉ ctx.env.ribs.map Rib.scope := by
  intro hmem
  have hin := h.inside id hmem
  rw [hnew] at hin
  cases hin

/-- A scope around the node stays one while the collection goes on. -/
theorem Ready.around (h : Ready a b d st ctx) (ha : Grows False a a₁) {rib : Rib}
    (hrib : rib ∈ ctx.env.ribs) : (a₁.shape rib.scope).isSome :=
  ha.shape_isSome (h.inside rib.scope (List.mem_map_of_mem hrib))

/-- A step that binds nothing outside of the scopes that are made on the way. -/
theorem Ready.step (h : Ready a b d st ctx) (ha : Grows False a a₁) (hgrows : Grows False st st₁)
    (hok : st₁.Ok) (hothers : ∀ id s, (a.shape id = none → a₁.shape id = none) →
      st₁.bindingAt id s = st.bindingAt id s) : Ready a₁ b d st₁ ctx where
  collected := h.collected.trans hgrows
  defined := h.defined.trans hgrows
  ok := hok
  env := h.env.frame hgrows fun rib hrib s => hothers rib.scope s fun hnone =>
    absurd (List.mem_map_of_mem hrib) (h.notMem hnone)
  inside id hid := ha.shape_isSome (h.inside id hid)
  fresh id s hnew hsome := by
    rw [hothers id s fun _ => hnew]
    exact h.fresh id s (Grows.shape_none ha hnew) hsome

/-- Into a scope that has been made. -/
theorem Ready.enter (h : Ready a b d st ctx) {rib : Rib}
    (hribs : ctx'.env.ribs = rib :: ctx.env.ribs) (hmade : (a.shape rib.scope).isSome)
    (henv : BodyEnv st ctx') : Ready a b d st ctx' where
  collected := h.collected
  defined := h.defined
  ok := h.ok
  env := henv
  inside := by
    rw [hribs]
    exact List.forall_mem_cons.mpr ⟨hmade, h.inside⟩
  fresh := h.fresh

/-- The first of two visits, the second after it, and both together. -/
theorem Ready.first (h : Ready a b d st ctx) (hb : Grows False a₁ b) {d₁ : Analyzer}
    (hd : Grows False d₁ d) : Ready a a₁ d₁ st ctx where
  collected := hb.trans h.collected
  defined := hd.trans h.defined
  ok := h.ok
  env := h.env
  inside := h.inside
  fresh id s hnew hsome := h.fresh id s hnew (hb.shape_isSome hsome)

/-- The second of two visits begins where the first has ended. -/
theorem Ready.second (h : Ready a b d st ctx) (ha : Grows False a a₁)
    (hfirst : Done a a₁ st st₁ ctx ctx')
    (hscopes : ctx'.env.ribs.map Rib.scope = ctx.env.ribs.map Rib.scope) :
    Ready a₁ b d st₁ ctx' where
  collected := h.collected.trans hfirst.grows
  defined := h.defined.trans hfirst.grows
  ok := hfirst.ok
  env := hfirst.env
  inside id hid := ha.shape_isSome (h.inside id (hscopes ▸ hid))
  fresh id s hnew hsome := by
    have hne : id ≠ ctx.scope := by
      rintro rfl
      have hin := ha.shape_isSome (h.inside _ h.env.scope_mem)
      rw [hnew] at hin
      cases hin
    rw [hfirst.frame id s (fun _ => hnew) hne]
    exact h.fresh id s (Grows.shape_none ha hnew) hsome

theorem Done.trans {ctx'' : Ctx} (ha : Grows False a a₁) (hb : Grows False a₁ b)
    (hfirst : Done a a₁ st st₁ ctx ctx') (hsecond : Done a₁ b st₁ st' ctx' ctx'')
    (hscope : ctx'.scope = ctx.scope) : Done a b st st' ctx ctx'' where
  grows := hfirst.grows.trans hsecond.grows
  ok := hsecond.ok
  env := hsecond.env
  frame id s hold hne := by
    rw [hsecond.frame id s (fun h => hold (Grows.shape_none ha h)) (hscope ▸ hne)]
    exact hfirst.frame id s (fun h => Grows.shape_none hb (hold h)) hne

/-- A visit that the three stages make in the same way. -/
def BodySound (search : SearchAssoc) (fuel : Nat) : Prop :=
  ∀ a b c d st st' ctx n, visit search .symbolCollect fuel a ctx n = some b →
    visit search .definition fuel c ctx n = some d → visit search .body fuel st ctx n = some st' →
    Ready a b d st ctx → Done a b st st' ctx (ctx.next n)

/-- A visit never removes a scope or a value. -/
theorem visit_grows_false {stage : AnalyzeStage} (h : visit search stage fuel a ctx n = some b) :
    Grows False a b := (visit_grows h).mono fun h => h.elim

/-- The same for several nodes. -/
theorem visitNodes_grows_false {stage : AnalyzeStage} {ns : List Node}
    (h : visitNodes (visit search stage fuel) a ctx ns = some b) : Grows False a b :=
  visitNodes_grows (fun _ _ _ _ h => visit_grows_false h) h

/-- Statement after statement; each may bind names for the next. -/
theorem visitNodes_body (hvisit : BodySound search fuel) {ns : List Node}
    (hcollect : visitNodes (visit search .symbolCollect fuel) a ctx ns = some b)
    (hdefine : visitNodes (visit search .definition fuel) c ctx ns = some d)
    (h : visitNodes (visit search .body fuel) st ctx ns = some st') (hready : Ready a b d st ctx) :
    Done a b st st' ctx (ns.foldl Ctx.next ctx) := by
  induction ns generalizing a c st ctx with
  | nil =>
    cases h
    exact ⟨.refl _, hready.ok, hready.env, fun _ _ _ _ => rfl⟩
  | cons n ns ih =>
    obtain ⟨a₁, hcollect₁, hcollect⟩ := Option.bind_eq_some_iff.mp hcollect
    obtain ⟨c₁, hdefine₁, hdefine⟩ := Option.bind_eq_some_iff.mp hdefine
    obtain ⟨st₁, h₁, h⟩ := Option.bind_eq_some_iff.mp h
    have ha := visit_grows_false hcollect₁
    have hb := visitNodes_grows_false hcollect
    have hscope := (ctx.next_scope n).1
    have hfirst := hvisit _ _ _ _ _ _ _ _ hcollect₁ hdefine₁ h₁
      (hready.first hb (visitNodes_grows_false hdefine))
    have hsecond := ih hcollect hdefine h (hready.second ha hfirst (ctx.next_scopes n))
    exact hfirst.trans ha hb hsecond hscope

/-- The children of a node without a scope are not declarations. -/
theorem children_next (hn : n.Plain) (hrib : n.rib = none) (ctx : Ctx) :
    n.children.foldl Ctx.next ctx = ctx := by
  have hfix : ∀ ns : List Node, (∀ m ∈ ns, ctx.next m = ctx) → ns.foldl Ctx.next ctx = ctx := by
    intro ns
    induction ns with
    | nil => exact fun _ => rfl
    | cons m ns ih =>
      intro h
      rw [List.foldl_cons, h m List.mem_cons_self]
      exact ih fun m hm => h m (List.mem_cons_of_mem _ hm)
  refine hfix _ fun m hm => ?_
  unfold Node.children at hm
  split at hm
  all_goals first
    | exact hn.elim
    | (rw [List.mem_singleton.mp hm]; rfl)
    | (obtain ⟨e, -, rfl⟩ := List.mem_map.mp hm; rfl)
    | cases hm
    | cases hrib

/-- Out of a scope: what has been bound in it does not matter any more. -/
theorem Done.leave {a₀ : Analyzer} {rib : Rib} (hready : Ready a b d st ctx)
    (hnew : a.shape rib.scope = none) (hold : (b.shape rib.scope).isSome) (ha : Grows False a a₀)
    (hgrows : Grows False st st₁)
    (hothers : ∀ id s, id ≠ rib.scope → st₁.bindingAt id s = st.bindingAt id s)
    {ctx'' : Ctx} (hscope : ctx'.scope = rib.scope) (hdone : Done a₀ b st₁ st' ctx' ctx'') :
    Done a b st st' ctx ctx := by
  have hframe : ∀ id s, (a.shape id = none → b.shape id = none) →
      st'.bindingAt id s = st.bindingAt id s := by
    intro id s hkeep
    have hne : id ≠ rib.scope := by
      rintro rfl
      rw [hkeep hnew] at hold
      cases hold
    rw [hdone.frame id s (fun h => hkeep (Grows.shape_none ha h)) (hscope ▸ hne), hothers id s hne]
  refine ⟨hgrows.trans hdone.grows, hdone.ok, ?_, fun id s hkeep _ => hframe id s hkeep⟩
  refine hready.env.frame (hgrows.trans hdone.grows) fun r hr s => hframe r.scope s fun hnone => ?_
  have hin := hready.inside r.scope (List.mem_map_of_mem hr)
  rw [hnone] at hin
  cases hin

/-- The items of a block have been defined. -/
theorem children_defined (hcase : n.rib = some rib)
    (hdefine : visitNodes (visit search .definition fuel) c (ctx.inside n) n.children = some d) :
    ∀ s ∈ rib.items, (d.valueAt rib.scope s).isSome := by
  unfold Node.rib at hcase
  split at hcase <;> cases hcase <;> try exact fun _ h => absurd h List.not_mem_nil
  next id stmts =>
    intro s hs
    obtain ⟨stmt, hstmt, hname⟩ := List.mem_filterMap.mp hs
    exact visitNodes_defines hdefine rfl (.stmt stmt) (List.mem_map_of_mem hstmt) s hname

/-- A node without a scope of its own: its children are visited where it stands. -/
theorem plainNode_body (hvisit : BodySound search fuel) (hn : n.Plain) (hcase : n.rib = none)
    (hcollect : visit search .symbolCollect (fuel + 1) a ctx n = some b)
    (hdefine : visit search .definition (fuel + 1) c ctx n = some d)
    (h : visit search .body (fuel + 1) st ctx n = some st') (hready : Ready a b d st ctx) :
    Done a b st st' ctx (ctx.next n) := by
  obtain ⟨a₁, hcollect', ha, -, -⟩ := visit_collect_rib hn hcollect
  obtain ⟨c₁, -, hdefine'⟩ := Option.bind_eq_some_iff.mp ((visitNode_eq hn).symm.trans hdefine)
  obtain ⟨st₁, henter, h'⟩ := Option.bind_eq_some_iff.mp ((visitNode_eq hn).symm.trans h)
  have hgrows : Grows False st st₁ := (enterNode_grows henter).mono fun h => h.elim
  have hentered := enterNode_body henter hready.ok hready.env
  have hquiet : ∀ id s, st₁.bindingAt id s = st.bindingAt id s := fun id s =>
    hentered.others id s fun rib hrib => by
      rw [hcase] at hrib
      cases hrib
  rw [Ctx.inside_none hcase] at hcollect' hdefine' h'
  have hdone := visitNodes_body hvisit hcollect' hdefine' h'
    (hready.step ha hgrows hentered.ok fun id s _ => hquiet id s)
  rw [children_next hn hcase] at hdone
  have hnext : ctx.next n = ctx := by
    cases n with
    | stmt s =>
      cases s with
      | letStmt => exact hn.elim
      | item | expr => rfl
    | expr | block | item => rfl
  rw [hnext]
  refine ⟨hgrows.trans hdone.grows, hdone.ok, hdone.env, fun id s hkeep hne => ?_⟩
  rw [hdone.frame id s (fun h => hkeep (Grows.shape_none ha h)) hne, hquiet]

/-- A node with a scope: its children are visited inside, and what they bind is forgotten. -/
theorem scopeNode_body (hvisit : BodySound search fuel) (hn : n.Plain) {rib : Rib}
    (hcase : n.rib = some rib)
    (hcollect : visit search .symbolCollect (fuel + 1) a ctx n = some b)
    (hdefine : visit search .definition (fuel + 1) c ctx n = some d)
    (h : visit search .body (fuel + 1) st ctx n = some st') (hready : Ready a b d st ctx) :
    Done a b st st' ctx (ctx.next n) := by
  obtain ⟨a₁, hcollect', ha, hb, hrib⟩ := visit_collect_rib hn hcollect
  obtain ⟨c₁, -, hdefine'⟩ := Option.bind_eq_some_iff.mp ((visitNode_eq hn).symm.trans hdefine)
  obtain ⟨st₁, henter, h'⟩ := Option.bind_eq_some_iff.mp ((visitNode_eq hn).symm.trans h)
  have hgrows : Grows False st st₁ := (enterNode_grows henter).mono fun h => h.elim
  have hentered := enterNode_body henter hready.ok hready.env
  obtain ⟨hnew, hshape⟩ := hrib rib hcase
  obtain ⟨hscope, hribs, hhere⟩ := ctx.inside_some hcase
  have hmade : (a₁.shape rib.scope).isSome := by
    rw [hshape]
    rfl
  have hsome : (b.shape rib.scope).isSome := hb.shape_isSome hmade
  have hothers : ∀ id s, id ≠ rib.scope → st₁.bindingAt id s = st.bindingAt id s :=
    fun id s hne => hentered.others id s fun r hr => by
      rw [hcase] at hr
      cases hr
      exact hne
  have hready₁ : Ready a₁ b d st₁ ctx :=
    hready.step ha hgrows hentered.ok fun id s hkeep => hothers id s fun heq => by
      subst heq
      rw [hkeep hnew] at hmade
      cases hmade
  -- the scope has its items from the definitions and its parameters from entering the node
  have henv : BodyEnv st₁ (ctx.inside n) :=
    hready₁.env.enter rib hscope hribs hhere (hready.notMem hnew)
      ((hb.trans hready₁.collected).shape _ _ hshape)
      (fun s hs => hready₁.defined.values _ _ (children_defined hcase hdefine' s hs))
      (hentered.own rib hcase fun s => hready.fresh rib.scope s hnew hsome)
  have hdone := visitNodes_body hvisit hcollect' hdefine' h' (hready₁.enter hribs hmade henv)
  have hnext : ctx.next n = ctx := by
    cases n with
    | stmt s => cases hcase
    | expr | block | item => rfl
  rw [hnext]
  exact hdone.leave hready hnew hsome ha hgrows hothers hscope

/-- A declaration: the initial value is visited before the names of the pattern are bound. -/
theorem letStmt_body (hvisit : BodySound search fuel) {pat : Pat} {ty : Option Ty} {init : Expr}
    (hcollect : visit search .symbolCollect (fuel + 1) a ctx (.stmt (.letStmt pat ty init)) = some b)
    (hdefine : visit search .definition (fuel + 1) c ctx (.stmt (.letStmt pat ty init)) = some d)
    (h : visit search .body (fuel + 1) st ctx (.stmt (.letStmt pat ty init)) = some st')
    (hready : Ready a b d st ctx) :
    Done a b st st' ctx (ctx.next (.stmt (.letStmt pat ty init))) := by
  rcases visitLocalStmt_inv hcollect with ⟨-, hcollect⟩ | ⟨hbody, -⟩
  case inr => cases hbody
  rcases visitLocalStmt_inv hdefine with ⟨-, hdefine⟩ | ⟨hbody, -⟩
  case inr => cases hbody
  rcases visitLocalStmt_inv h with ⟨hbody, -⟩ | ⟨-, st₁, st₂, bindings, htys, hinit, hpat, hadd⟩
  case inl => exact (hbody rfl).elim
  obtain ⟨hgrows₁, hok₁⟩ := resolveTypes_sound htys
  have hquiet := (hgrows₁ True).bindings trivial
  have hdone := hvisit _ _ _ _ _ _ _ _ hcollect hdefine hinit
    (hready.step (.refl a) (hgrows₁ False) (hok₁ hready.ok hready.env.chain) fun id s _ => hquiet id s)
  obtain ⟨hgrows, hvalues, hassocs, huses, hothers, -⟩ := addBindings_spec hadd
  refine ⟨((hgrows₁ False).trans hdone.grows).trans hgrows,
    hdone.ok.of_views hgrows hvalues hassocs huses, ?_, fun id s hkeep hne => ?_⟩
  · show BodyEnv st' (ctx.bind (pat.bindings.getD []))
    rw [hpat]
    exact BodyEnv.bind hdone.env hadd
  · rw [hothers id s hne, hdone.frame id s hkeep hne, hquiet]

/-- A loop with a condition: the condition is outside of the scope of the loop. -/
theorem whileExpr_body (hvisit : BodySound search fuel) {id : NodeId} {cond : Expr} {body : Block}
    (hcollect : visit search .symbolCollect (fuel + 1) a ctx (.expr (.whileExpr id cond body)) = some b)
    (hdefine : visit search .definition (fuel + 1) c ctx (.expr (.whileExpr id cond body)) = some d)
    (h : visit search .body (fuel + 1) st ctx (.expr (.whileExpr id cond body)) = some st')
    (hready : Ready a b d st ctx) : Done a b st st' ctx ctx := by
  obtain ⟨a₁, a₂, hadd, hcond, hblock⟩ := visitWhileExpr_inv hcollect
  obtain ⟨c₁, c₂, hadd', hcond', hblock'⟩ := visitWhileExpr_inv hdefine
  obtain ⟨st₁, st₂, hadd'', hcond'', hblock''⟩ := visitWhileExpr_inv h
  cases hadd'
  cases hadd''
  obtain ⟨hnew, -, hshape, -, ha⟩ := addScope_spec (addScopeAt_collect hadd)
  have hmade : (a₁.shape id).isSome := by
    rw [hshape]
    rfl
  -- what the three visits keep between the condition and the body
  have ha₂ := visit_grows_false hcond
  have hb₂ := visit_grows_false hblock
  have hsome : (b.shape id).isSome := hb₂.shape_isSome (ha₂.shape_isSome hmade)
  have hnotin := hready.notMem hnew
  have hready₁ : Ready a₁ b d st ctx :=
    hready.step (ha False) (.refl st) hready.ok fun _ _ _ => rfl
  have hdone₁ := hvisit _ _ _ _ _ _ _ _ hcond hcond' hcond''
    (hready₁.first hb₂ (visit_grows_false hblock'))
  have hready₂ : Ready a₂ b d st₂ ctx := hready₁.second ha₂ hdone₁ rfl
  -- the scope is older than the condition, which binds nothing in it
  have hfree : ∀ s, st₂.bindingAt id s = none := by
    intro s
    have hne : id ≠ ctx.scope := fun heq => hnotin (heq ▸ hready.env.scope_mem)
    rw [hdone₁.frame id s (fun hnone => absurd (hshape.symm.trans hnone) (by simp)) hne]
    exact hready.fresh id s hnew hsome
  have henv : BodyEnv st₂ (ctx.enter id [] none) :=
    hready₂.env.enter ⟨id, [], []⟩ rfl rfl ⟨_, rfl⟩ hnotin
      (((ha₂.trans hb₂).trans hready₂.collected).shape _ _ hshape)
      (fun s hs => absurd hs List.not_mem_nil) hfree
  have hdone₂ := hvisit _ _ _ _ _ _ _ _ hblock hblock' hblock''
    (hready₂.enter rfl (ha₂.shape_isSome hmade) henv)
  refine ⟨hdone₁.grows.trans hdone₂.grows, hdone₂.ok, ?_, fun id' s hold hne => ?_⟩
  -- the scopes around are older than the body, which therefore binds nothing in them
  · refine hdone₁.env.frame hdone₂.grows fun r hr s => hdone₂.frame r.scope s ?_ ?_
    · intro hnone
      have hin := hready₁.around ha₂ hr
      rw [hnone] at hin
      cases hin
    · exact fun heq => hnotin ((show r.scope = id from heq) ▸ List.mem_map_of_mem hr)
  · rw [hdone₂.frame id' s ?_ ?_, hdone₁.frame id' s ?_ hne]
    · exact fun h => Grows.shape_none hb₂ (hold (Grows.shape_none (ha False) h))
    · exact fun h => hold (Grows.shape_none (ha False) (Grows.shape_none ha₂ h))
    · rintro rfl
      rw [hold hnew] at hsome
      cases hsome

/-- Visiting a body: the induction is on the fuel, and the cases are the nodes. -/
theorem body_sound (search : SearchAssoc) (fuel : Nat) : BodySound search fuel := by
  induction fuel with
  | zero =>
    intro a b c d st st' ctx n h
    cases h
  | succ fuel ih =>
    intro a b c d st st' ctx n hcollect hdefine h hready
    by_cases hn : n.Plain
    · cases hcase : n.rib with
      | none => exact plainNode_body ih hn hcase hcollect hdefine h hready
      | some rib => exact scopeNode_body ih hn hcase hcollect hdefine h hready
    · -- only a declaration and a loop with a condition are visited in a way of their own
      unfold Node.Plain at hn
      split at hn
      · exact letStmt_body ih hcollect hdefine h hready
      · exact whileExpr_body ih hcollect hdefine h hready
      · exact absurd trivial hn

/-! ## Crates -/

/-- The root scope has the names of the prelude and no binding. -/
theorem new_views (preludes : List Symbol) :
    (Analyzer.new preludes).shape 0 = some (none, preludes) ∧
      (∀ s ∈ preludes, ((Analyzer.new preludes).valueAt 0 s).isSome) ∧
      ∀ id s, (Analyzer.new preludes).bindingAt id s = none := by
  refine ⟨rfl, fun s hs => ?_, fun id s => ?_⟩
  · show Option.isSome (if s ∈ preludes then some PlaceValue.fn else none)
    rw [if_pos hs]
    rfl
  · unfold bindingAt Analyzer.new
    dsimp only
    rw [Function.update_apply]
    split <;> rfl

/-- Nothing is declared yet. -/
theorem new_ok (preludes : List Symbol) : (Analyzer.new preludes).Ok := by
  have hvalue : ∀ id s value, (Analyzer.new preludes).valueAt id s = some value →
      id = 0 ∧ s ∈ preludes ∧ value = .fn := by
    intro id s value h
    unfold valueAt Analyzer.new at h
    dsimp only at h
    rw [Function.update_apply] at h
    split at h
    · next hid =>
      change (if s ∈ preludes then some PlaceValue.fn else none) = some value at h
      split at h
      · next hs => exact ⟨hid, hs, (Option.some.inj h).symm⟩
      · cases h
    · cases h
  refine ⟨fun id s hs => ?_, fun id s _ _ _ _ h => ?_, fun _ _ _ _ _ _ h => (nomatch h),
    fun _ h => nomatch h⟩
  · obtain ⟨value, hv⟩ := Option.isSome_iff_exists.mp hs
    obtain ⟨rfl, hmem, -⟩ := hvalue id s value hv
    exact ⟨none, preludes, rfl, hmem⟩
  · obtain ⟨-, -, heq⟩ := hvalue id s _ h
    cases heq

/-- A stage of a crate visits its items. -/
theorem visitCrate_inv {preludes : List Symbol} {krate : Crate} {stage : AnalyzeStage}
    (h : visitCrate search fuel preludes krate stage a = some b) :
    ∃ a₁, addScopeAt stage a krate.id 0 krate.names = some a₁ ∧
      visitNodes (visit search stage fuel) a₁ (krate.ctx preludes) (krate.items.map .item) = some b := by
  unfold visitCrate at h
  obtain ⟨a₁, hadd, h⟩ := Option.bind_eq_some_iff.mp h
  rw [visitItems_eq] at h
  exact ⟨a₁, hadd, h⟩

/-- The stages of a crate, one after the other. -/
theorem analyze_ok {preludes : List Symbol} {krate : Crate}
    (h : analyze search fuel preludes krate = some a) : a.Ok := by
  obtain ⟨b, hcollect, h⟩ := Option.bind_eq_some_iff.mp h
  obtain ⟨d, hdefine, h⟩ := Option.bind_eq_some_iff.mp h
  obtain ⟨a₁, hadd, hcollect⟩ := visitCrate_inv hcollect
  obtain ⟨b', hsame, hdefine⟩ := visitCrate_inv hdefine
  cases hsame
  obtain ⟨d', hsame, h⟩ := visitCrate_inv h
  cases hsame
  obtain ⟨hroot, hpreludes, hempty⟩ := new_views preludes
  obtain ⟨hnew, -, hshape, -, hgrows₁⟩ := addScope_spec (addScopeAt_collect hadd)
  have hgrows₂ : ∀ stage : AnalyzeStage, ∀ x y : Analyzer, visitNodes (visit search stage fuel) x
      (krate.ctx preludes) (krate.items.map .item) = some y → Grows (stage ≠ .body) x y :=
    fun _ _ _ h => visitNodes_grows (fun _ _ _ _ h => visit_grows h) h
  have hb : Grows True a₁ b := (hgrows₂ _ _ _ hcollect).mono fun _ => by decide
  have hd : Grows True b d := (hgrows₂ _ _ _ hdefine).mono fun _ => by decide
  have hall : Grows True (.new preludes) d := ((hgrows₁ True).trans hb).trans hd
  have hne : krate.id ≠ 0 := by
    intro heq
    rw [heq, hroot] at hnew
    cases hnew
  -- collecting and defining
  have hok₁ : b.Ok := visitNodes_ok (fun _ _ _ _ h ha => collect_ok h ha) hcollect
    (addScope_ok (addScopeAt_collect hadd) (new_ok preludes))
  have hchain : b.Chain (some (krate.ctx preludes).scope) (krate.ctx preludes).env.ribs :=
    ⟨rfl, some 0, hb.shape _ _ hshape, rfl, none,
      ((hgrows₁ True).trans hb).shape _ _ hroot, trivial⟩
  have hnamed : ∀ n ∈ krate.items.map Node.item, Named b (krate.ctx preludes) n := by
    intro n hn _ s hs
    obtain ⟨i, hi, rfl⟩ := List.mem_map.mp hn
    exact ⟨some 0, krate.names, hb.shape _ _ hshape, List.mem_filterMap.mpr ⟨i, hi, hs⟩⟩
  have hok₂ : d.Ok := visitNodes_definition
    (fun _ _ _ _ _ _ hc h hb hst hchain hn => definition_ok hc h hb hst hchain hn) hcollect hdefine
    (.refl b) hok₁ hchain hnamed
  -- the bodies
  have henv : BodyEnv d (krate.ctx preludes) :=
    { chain := hchain.grows hd
      nodup := by simpa [Crate.ctx, Env.ribs, rootRib] using hne
      full := by
        refine List.forall_mem_cons.mpr ⟨fun s hs => ?_, List.forall_mem_cons.mpr ⟨fun s hs => ?_,
          fun _ h => nomatch h⟩⟩
        · obtain ⟨i, hi, hname⟩ := List.mem_filterMap.mp hs
          exact visitNodes_defines hdefine rfl (.item i) (List.mem_map_of_mem hi) s hname
        · exact hall.values _ _ (hpreludes s hs)
      bound := by
        have hnone : ∀ id s, d.bindingAt id s = none := fun id s =>
          (hall.bindings trivial id s).trans (hempty id s)
        exact List.forall_mem_cons.mpr ⟨fun s => hnone _ s, List.forall_mem_cons.mpr
          ⟨fun s => hnone _ s, fun _ h => nomatch h⟩⟩
      here := ⟨_, _, rfl⟩ }
  have hready : Ready a₁ b d d (krate.ctx preludes) :=
    { collected := hd.mono fun _ => trivial
      defined := .refl d
      ok := hok₂
      env := henv
      inside := by
        refine List.forall_mem_cons.mpr ⟨?_, List.forall_mem_cons.mpr ⟨?_, fun _ h => nomatch h⟩⟩
        · rw [show a₁.shape krate.id = _ from hshape]
          rfl
        · exact (hgrows₁ True).shape_isSome (show ((Analyzer.new preludes).shape 0).isSome from rfl)
      fresh := fun id s _ _ => (hall.bindings trivial id s).trans (hempty id s) }
  exact (visitNodes_body (body_sound search fuel) hcollect hdefine h hready).ok

/-- In an accepted crate every single-segment path stands for the declaration that the rules of the
language give, if and only if every one of them is clear. -/
theorem analyze_lexical_iff (search : SearchAssoc) (fuel : Nat) (preludes : List Symbol)
    (krate : Crate) (a : Analyzer) (h : analyze search fuel preludes krate = some a) :
    (∀ u ∈ a.uses, u.Lexical) ↔ ∀ u ∈ a.uses, u.Clear :=
  forall₂_congr (analyze_ok h).uses

/-- `fn main() { let x = 1; x; exit(0); }` -/
def localCrate : Crate where
  id := 1
  items := [.fn 2 "main" [] (.mk []) (some (.mk 3
    [.letStmt (.ident 4 "x") none .lit, .expr (.path "x"),
      .expr (.operands [.path "exit", .lit])]))]

theorem analyze_lexical_iff_local : ∃ a, analyze (fun _ _ _ _ => none) 9 ["exit"] localCrate = some a ∧
    ((∀ u ∈ a.uses, u.Lexical) ↔ ∀ u ∈ a.uses, u.Clear) := by
  obtain ⟨a, ha⟩ := Option.isSome_iff_exists.mp
    (show (analyze (fun _ _ _ _ => none) 9 ["exit"] localCrate).isSome from rfl)
  exact ⟨a, ha, analyze_lexical_iff _ _ _ _ a ha⟩

/-- `fn main() { fn f() {} let f = 1; f; exit(0); }` -/
def shadowCrate : Crate where
  id := 1
  items := [.fn 2 "main" [] (.mk []) (some (.mk 3
    [.item (.fn 4 "f" [] (.mk []) (some (.mk 5 []))), .letStmt (.ident 6 "f") none .lit,
      .expr (.path "f"), .expr (.operands [.path "exit", .lit])]))]

/-- The local `f` is not found: the function of the same block is. -/
theorem analyze_not_lexical : ¬ ∀ (search : SearchAssoc) (fuel : Nat) (preludes : List Symbol)
    (krate : Crate) (a : Analyzer), analyze search fuel preludes krate = some a →
    ∀ u ∈ a.uses, u.Lexical := by
  intro h
  obtain ⟨a, ha⟩ := Option.isSome_iff_exists.mp
    (show (analyze (fun _ _ _ _ => none) 9 ["exit"] shadowCrate).isSome from rfl)
  have hmem : (some (ValueIndex.binding 6), ValueIndex.global 3) ∈
      a.uses.map fun u => (u.env.lexical u.symbol, u.found) := by
    have hrun : (analyze (fun _ _ _ _ => none) 9 ["exit"] shadowCrate).map (fun a =>
        decide ((some (ValueIndex.binding 6), ValueIndex.global 3) ∈
          a.uses.map fun u => (u.env.lexical u.symbol, u.found))) = some true := rfl
    rw [ha] at hrun
    exact of_decide_eq_true (Option.some.inj hrun)
  obtain ⟨u, hu, heq⟩ := List.mem_map.mp hmem
  obtain ⟨hlexical, hfound⟩ := Prod.mk.inj heq
  have hu := h _ _ _ _ a ha u hu
  unfold Use.Lexical at hu
  rw [hlexical, hfound] at hu
  cases hu

end Resolve
