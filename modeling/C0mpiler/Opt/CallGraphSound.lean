import C0mpiler.Flow.PostOrder
import C0mpiler.Flow.TopSort
import C0mpiler.Opt.CallGraph
import Mathlib

/-!
# Strong components of the call graph

`build_scc` returns for every call graph, whatever the order of its sets, and two functions share a
component just if each reaches the other through calls. `topological_sort` lists every component once,
callers first, so the pass, which goes from its end, meets callees first; and no call that is part of
a cycle of calls is inlined.
-/

namespace Ir

open Flow

section Dfs

variable {τ : Type} [DecidableEq τ] (succs : HashMap τ (HashSet τ))

/-- The edges that `dfs` follows. -/
def DfsEdge (u v : τ) : Prop := v ∈ succsList succs u

/-- What the loop does between the push of a node, whose successors from `idx` on are still to
come, and its pop: it finishes the nodes `sub`. -/
structure Visit (visited visited' : HashSet τ) (node : τ) (idx : Nat) (sub : List τ) : Prop where
  postOrder : PostOrder (DfsEdge succs) {x | x ∈ visited} sub
  reach : ∀ x ∈ sub, Reach (DfsEdge succs) node x
  closed : ∀ v ∈ (succsList succs node).drop idx, v ∈ visited ∨ v ∈ sub
  mem : ∀ x, x ∈ visited' ↔ x ∈ visited ∨ x ∈ sub

variable {succs}

omit [DecidableEq τ] in
/-- What is found visited after a push. -/
theorem insert_visited (u : τ) (visited : HashSet τ) :
    insert u {x | x ∈ visited} = {x | x ∈ u :: visited} := Set.ext fun _ => List.mem_cons.symm

namespace Visit

variable {visited visited₁ visited₂ : HashSet τ} {node succ : τ} {idx : Nat} {sub sub₁ sub₂ : List τ}

theorem visited_eq (h : Visit succs visited visited₁ node idx sub) :
    {x | x ∈ visited} ∪ {x | x ∈ sub} = {x | x ∈ visited₁} := Set.ext fun x => (h.mem x).symm

theorem drop_succ (hget : (succsList succs node)[idx]? = some succ) :
    (succsList succs node).drop idx = succ :: (succsList succs node).drop (idx + 1) := by
  obtain ⟨hlt, rfl⟩ := List.getElem?_eq_some_iff.mp hget
  exact List.drop_eq_getElem_cons hlt

theorem done (hget : (succsList succs node)[idx]? = none) : Visit succs visited visited node idx [] where
  postOrder := .nil _
  reach := nofun
  closed := by
    rw [List.drop_eq_nil_iff.mpr (List.getElem?_eq_none_iff.mp hget)]
    nofun
  mem := by simp

/-- A successor that was visited before. -/
theorem skip (hget : (succsList succs node)[idx]? = some succ) (hs : succ ∈ visited)
    (h : Visit succs visited visited₁ node (idx + 1) sub) :
    Visit succs visited visited₁ node idx sub := by
  refine ⟨h.postOrder, h.reach, fun v hv => ?_, h.mem⟩
  rw [drop_succ hget] at hv
  rcases List.mem_cons.mp hv with rfl | hv
  · exact .inl hs
  · exact h.closed v hv

/-- A successor that is pushed, and what comes after it is popped. -/
theorem push (hget : (succsList succs node)[idx]? = some succ) (hs : succ ∉ visited)
    (h₁ : Visit succs (succ :: visited) visited₁ succ 0 sub₁)
    (h₂ : Visit succs visited₁ visited₂ node (idx + 1) sub₂) :
    Visit succs visited visited₂ node idx (sub₁ ++ succ :: sub₂) := by
  -- the callee is reached from the node that is on the stack
  have hsucc : Reach (DfsEdge succs) node succ := (Reach.refl node).step (List.mem_of_getElem? hget)
  refine ⟨.node hs ?_ h₁.reach (fun v hv => ?_) ?_, fun x hx => ?_, fun v hv => ?_, fun x => ?_⟩
  · rw [insert_visited]
    exact h₁.postOrder
  · rw [insert_visited]
    exact h₁.closed v hv
  · rw [insert_visited, h₁.visited_eq]
    exact h₂.postOrder
  -- reached from `succ`, `succ` itself, or reached by the rest
  · rcases List.mem_append.mp hx with hx | hx
    · exact hsucc.trans (h₁.reach x hx)
    · rcases List.mem_cons.mp hx with rfl | hx
      · exact hsucc
      · exact h₂.reach x hx
  -- the successors up to `idx` and the ones that follow
  · rw [drop_succ hget] at hv
    rcases List.mem_cons.mp hv with rfl | hv
    · exact .inr (List.mem_append_right _ List.mem_cons_self)
    · rcases h₂.closed v hv with h | h
      · rcases (h₁.mem v).mp h with h | h
        · rcases List.mem_cons.mp h with rfl | h
          · exact .inr (List.mem_append_right _ List.mem_cons_self)
          · exact .inl h
        · exact .inr (List.mem_append_left _ h)
      · exact .inr (List.mem_append_right _ (List.mem_cons_of_mem _ h))
  · rw [h₂.mem, h₁.mem]
    simp only [List.mem_cons, List.mem_append]
    tauto

end Visit

variable {nodes : Finset τ} (hnodes : ∀ u ∈ nodes, ∀ v, DfsEdge succs u v → v ∈ nodes)
include hnodes

/-- A node on top of the stack is popped after a visit. The induction is on the nodes not visited,
and within it on the successors still to come. -/
theorem exists_visit {n : Nat} {visited : HashSet τ} (hn : (nodes.filter (· ∉ visited)).card = n)
    {node : τ} (hnode : node ∈ nodes) (hvisited : node ∈ visited) {l : List τ} {idx : Nat}
    (hl : (succsList succs node).drop idx = l) (stack : List (τ × Nat)) (o : List τ) :
    ∃ k visited' sub, Visit succs visited visited' node idx sub ∧
      ∀ fuel, dfsLoop succs (k + fuel) ⟨visited, (node, idx) :: stack, o⟩ =
        dfsLoop succs fuel ⟨visited', stack, o ++ sub ++ [node]⟩ := by
  -- on the nodes not visited yet, and then on the successors that are left
  induction n using Nat.strongRecOn generalizing visited node idx l stack o with
  | _ n ih =>
    induction l generalizing idx with
    -- no successor is left: the node goes to the order
    | nil =>
      have hget : (succsList succs node)[idx]? = none :=
        List.getElem?_eq_none (List.drop_eq_nil_iff.mp hl)
      refine ⟨1, visited, [], .done hget, fun fuel => ?_⟩
      rw [Nat.add_comm, dfsLoop]
      simp only [hget, List.append_nil]
    | cons succ l ihl =>
      have hget : (succsList succs node)[idx]? = some succ := by
        rw [← List.head?_drop, hl, List.head?_cons]
      have hdrop : (succsList succs node).drop (idx + 1) = l := by
        rw [← List.tail_drop, hl, List.tail_cons]
      -- visited already: the next one
      by_cases hs : succ ∈ visited
      · obtain ⟨k, visited', sub, hv, hrun⟩ := ihl hdrop
        refine ⟨k + 1, visited', sub, hv.skip hget hs, fun fuel => ?_⟩
        rw [Nat.add_right_comm, dfsLoop]
        simp only [hget, if_pos hs]
        exact hrun fuel
      · have hsn : succ ∈ nodes := hnodes node hnode succ (List.mem_of_getElem? hget)
        -- visiting `succ` leaves fewer nodes
        have hless : ∀ visited₁ : HashSet τ, succ ∈ visited₁ → (∀ x ∈ visited, x ∈ visited₁) →
            (nodes.filter (· ∉ visited₁)).card < n := by
          intro visited₁ hmem hle
          rw [← hn]
          refine Finset.card_lt_card ((Finset.ssubset_iff_of_subset fun x hx => ?_).mpr ⟨succ, ?_, ?_⟩)
          · obtain ⟨hxn, hx⟩ := Finset.mem_filter.mp hx
            exact Finset.mem_filter.mpr ⟨hxn, fun h => hx (hle x h)⟩
          · exact Finset.mem_filter.mpr ⟨hsn, hs⟩
          · exact fun h => (Finset.mem_filter.mp h).2 hmem
        -- the walk below `succ`, then the rest of the successors of the node
        obtain ⟨k₁, visited₁, sub₁, hv₁, hrun₁⟩ := ih _
          (hless (succ :: visited) List.mem_cons_self fun x hx => List.mem_cons_of_mem _ hx) rfl hsn
          List.mem_cons_self List.drop_zero ((node, idx + 1) :: stack) o
        have hold : ∀ x ∈ visited, x ∈ visited₁ := fun x hx =>
          (hv₁.mem x).mpr (.inl (List.mem_cons_of_mem _ hx))
        obtain ⟨k₂, visited₂, sub₂, hv₂, hrun₂⟩ := ih _
          (hless visited₁ ((hv₁.mem succ).mpr (.inl List.mem_cons_self)) hold) rfl hnode
          (hold node hvisited) hdrop stack (o ++ sub₁ ++ [succ])
        refine ⟨k₁ + k₂ + 1, visited₂, sub₁ ++ succ :: sub₂, .push hget hs hv₁ hv₂, fun fuel => ?_⟩
        have hfuel : k₁ + k₂ + 1 + fuel = k₁ + (k₂ + fuel) + 1 := by omega
        rw [hfuel, dfsLoop]
        simp only [hget, if_neg hs]
        rw [hrun₁, hrun₂]
        simp only [List.append_assoc, List.cons_append, List.nil_append]

omit hnodes in
/-- More fuel does not change the result. -/
theorem dfsLoop_mono {fuel fuel' : Nat} (hle : fuel ≤ fuel') {st r : DfsLoop τ}
    (h : dfsLoop succs fuel st = some r) : dfsLoop succs fuel' st = some r := by
  induction fuel generalizing fuel' st with
  | zero => cases h
  | succ fuel ih =>
    obtain ⟨fuel', rfl⟩ : ∃ n, fuel' = n + 1 := ⟨fuel' - 1, by omega⟩
    have hle : fuel ≤ fuel' := Nat.le_of_succ_le_succ hle
    rw [dfsLoop] at h ⊢
    split at h
    · exact h
    · split at h
      · split at h
        · next hmem =>
          rw [if_pos hmem]
          exact ih hle h
        · next hmem =>
          rw [if_neg hmem]
          exact ih hle h
      · exact ih hle h

/-- With enough fuel, the loop over the starts makes a forest. -/
theorem exists_dfs {starts : List τ} (hstarts : ∀ s ∈ starts, s ∈ nodes) (visited : HashSet τ) :
    ∃ n trees, (∀ fuel, n ≤ fuel → dfs succs fuel starts visited = some trees) ∧
      Forest (DfsEdge succs) {x | x ∈ visited} starts trees := by
  induction starts generalizing visited with
  | nil => exact ⟨0, [], fun _ _ => rfl, .nil _⟩
  | cons s starts ih =>
    have hrest : ∀ x ∈ starts, x ∈ nodes := fun x hx => hstarts x (List.mem_cons_of_mem _ hx)
    by_cases hs : s ∈ visited
    · obtain ⟨n, trees, hrun, hforest⟩ := ih hrest visited
      refine ⟨n, trees, fun fuel hfuel => ?_, .skip hs hforest⟩
      rw [dfs, if_pos hs]
      exact hrun fuel hfuel
    · obtain ⟨k, visited', sub, hv, hvisit⟩ := exists_visit hnodes rfl (hstarts s List.mem_cons_self)
        (List.mem_cons_self (l := visited)) List.drop_zero [] []
      obtain ⟨n, trees, hrun, hforest⟩ := ih hrest visited'
      refine ⟨max n (k + 1), (sub ++ [s]) :: trees, fun fuel hfuel => ?_, .tree hs ?_ hv.reach ?_ ?_⟩
      · have hloop : dfsLoop succs fuel ⟨s :: visited, [(s, 0)], []⟩ = some ⟨visited', [], sub ++ [s]⟩ :=
          dfsLoop_mono (le_of_max_le_right hfuel) (hvisit 1)
        simp only [dfs, if_neg hs, hloop, hrun fuel (le_of_max_le_left hfuel), Option.bind_eq_bind,
          Option.bind_some]
      · rw [insert_visited]
        exact hv.postOrder
      · rw [insert_visited]
        exact hv.closed
      · rw [insert_visited, hv.visited_eq]
        exact hforest

end Dfs

/-! ## The graph of the components -/

namespace SCCGraph

/-- The edges between the components are those of `P`, in both directions. -/
structure Edges (g : SCCGraph) (P : Nat → Nat → Prop) : Prop where
  succs : ∀ i < g.sccs.length, ∃ set, g.succs.lookup i = some set ∧ set.Nodup ∧ ∀ j, j ∈ set ↔ P i j
  preds : ∀ i < g.sccs.length, ∃ set, g.preds.lookup i = some set ∧ set.Nodup ∧ ∀ j, j ∈ set ↔ P j i
  bound : ∀ i j, P i j → i < g.sccs.length ∧ j < g.sccs.length
  keys : ∀ i ∈ g.preds, i < g.sccs.length

variable {g : SCCGraph} {P Q : Nat → Nat → Prop}

theorem Edges.congr (h : g.Edges P) (hPQ : ∀ i j, P i j ↔ Q i j) : g.Edges Q := by
  obtain rfl : P = Q := funext₂ fun i j => propext (hPQ i j)
  exact h

/-- One more element of a set of the map. -/
theorem lookup_insert_insert {map : HashMap Nat (HashSet Nat)} {n a b : Nat} {set : HashSet Nat}
    {P : Nat → Nat → Prop}
    (h : ∀ i < n, ∃ set, map.lookup i = some set ∧ set.Nodup ∧ ∀ j, j ∈ set ↔ P i j)
    (hset : map.lookup a = some set) {i : Nat} (hi : i < n) :
    ∃ set', (map.insert a (List.insert b set)).lookup i = some set' ∧ set'.Nodup ∧
      ∀ j, j ∈ set' ↔ P i j ∨ i = a ∧ j = b := by
  obtain ⟨old, hold, hnodup, hmem⟩ := h i hi
  rw [HashMap.lookup_insert_ite]
  by_cases hia : i = a
  · subst hia
    obtain rfl : old = set := Option.some.inj (hold.symm.trans hset)
    refine ⟨_, if_pos rfl, hnodup.insert, fun j => ?_⟩
    rw [List.mem_insert_iff, hmem, or_comm]
    simp
  · refine ⟨old, by rw [if_neg hia, hold], hnodup, fun j => ?_⟩
    rw [hmem]
    simp [hia]

/-- One call adds its edge, unless it stays in its component. -/
theorem exists_addSccEdge (h : g.Edges P) {sccIdMap : HashMap FunctionId Nat} {called : FunctionId}
    {a b : Nat} (hcalled : sccIdMap.lookup called = some b) (ha : a < g.sccs.length)
    (hb : b < g.sccs.length) :
    ∃ g', CallGraph.addSccEdge sccIdMap a g called = some g' ∧ g'.sccs = g.sccs ∧
      g'.sccIdMap = g.sccIdMap ∧ g'.Edges fun i j => P i j ∨ a ≠ b ∧ i = a ∧ j = b := by
  by_cases hab : a = b
  · refine ⟨g, ?_, rfl, rfl, h.congr fun i j => by simp [hab]⟩
    simp only [CallGraph.addSccEdge, hcalled, Option.bind_eq_bind, Option.bind_some, hab, ne_eq,
      not_true_eq_false, if_false]
  · obtain ⟨succs, hsuccs, -⟩ := h.succs a ha
    obtain ⟨preds, hpreds, -⟩ := h.preds b hb
    refine ⟨{ g with
      succs := g.succs.insert a (List.insert b succs)
      preds := g.preds.insert b (List.insert a preds) }, ?_, rfl, rfl,
      ⟨fun i hi => ?_, fun i hi => ?_, fun i j hP => ?_, fun i hi => ?_⟩⟩
    · simp only [CallGraph.addSccEdge, hcalled, Option.bind_eq_bind, Option.bind_some, ne_eq, hab,
        not_false_eq_true, if_true, hsuccs, hpreds]
    · obtain ⟨set, hset, hnodup, hmem⟩ := lookup_insert_insert (b := b) h.succs hsuccs hi
      exact ⟨set, hset, hnodup, fun j => by rw [hmem]; simp [hab]⟩
    · obtain ⟨set, hset, hnodup, hmem⟩ := lookup_insert_insert (b := a) h.preds hpreds hi
      exact ⟨set, hset, hnodup, fun j => by rw [hmem]; simp [hab, and_comm]⟩
    · rcases hP with hP | ⟨-, rfl, rfl⟩
      · exact h.bound i j hP
      · exact ⟨ha, hb⟩
    · rcases AList.mem_insert _ |>.mp hi with rfl | hi
      · exact hb
      · exact h.keys i hi

variable {sccIdMap : HashMap FunctionId Nat}

/-- The calls of one function. -/
theorem exists_addSccEdges {l : List FunctionId} {a : Nat} (h : g.Edges P) (ha : a < g.sccs.length)
    (hl : ∀ f ∈ l, ∃ b < g.sccs.length, sccIdMap.lookup f = some b) :
    ∃ g', l.foldlM (CallGraph.addSccEdge sccIdMap a) g = some g' ∧ g'.sccs = g.sccs ∧
      g'.sccIdMap = g.sccIdMap ∧
        g'.Edges fun i j => P i j ∨ i ≠ j ∧ i = a ∧ ∃ f ∈ l, sccIdMap.lookup f = some j := by
  induction l generalizing g P with
  | nil => exact ⟨g, rfl, rfl, rfl, h.congr fun i j => by simp⟩
  | cons f l ih =>
    obtain ⟨b, hb, hf⟩ := hl f List.mem_cons_self
    obtain ⟨g₁, h₁, hsccs₁, hmap₁, hedges₁⟩ := exists_addSccEdge h hf ha hb
    obtain ⟨g₂, h₂, hsccs₂, hmap₂, hedges₂⟩ := ih hedges₁ (hsccs₁ ▸ ha) fun f' hf' =>
      hsccs₁ ▸ hl f' (List.mem_cons_of_mem _ hf')
    refine ⟨g₂, OptionFold.cons_eq_some.mpr ⟨g₁, h₁, h₂⟩, hsccs₂.trans hsccs₁, hmap₂.trans hmap₁,
      hedges₂.congr fun i j => ?_⟩
    have hj : (∃ f' ∈ f :: l, sccIdMap.lookup f' = some j) ↔
        b = j ∨ ∃ f' ∈ l, sccIdMap.lookup f' = some j := by
      simp only [List.mem_cons, exists_eq_or_imp, hf, Option.some.injEq]
    rw [hj]
    constructor
    · rintro ((hP | ⟨hne, rfl, rfl⟩) | ⟨hne, rfl, hf'⟩)
      · exact .inl hP
      · exact .inr ⟨hne, rfl, .inl rfl⟩
      · exact .inr ⟨hne, rfl, .inr hf'⟩
    · rintro (hP | ⟨hne, rfl, rfl | hf'⟩)
      · exact .inl (.inl hP)
      · exact .inl (.inr ⟨hne, rfl, rfl⟩)
      · exact .inr ⟨hne, rfl, hf'⟩

/-- The calls of all functions. -/
theorem exists_sccEdges {l : List (Sigma fun _ : FunctionId => HashSet FunctionId)} (h : g.Edges P)
    (hl : ∀ e ∈ l, ∀ f, f = e.1 ∨ f ∈ e.2 → ∃ a < g.sccs.length, sccIdMap.lookup f = some a) :
    ∃ g', (l.foldlM (fun g e => do
        let sccId ← sccIdMap.lookup e.1
        e.2.foldlM (CallGraph.addSccEdge sccIdMap sccId) g) g) = some g' ∧ g'.sccs = g.sccs ∧
      g'.sccIdMap = g.sccIdMap ∧ g'.Edges fun i j => P i j ∨ i ≠ j ∧
        ∃ e ∈ l, sccIdMap.lookup e.1 = some i ∧ ∃ f ∈ e.2, sccIdMap.lookup f = some j := by
  induction l generalizing g P with
  | nil => exact ⟨g, rfl, rfl, rfl, h.congr fun i j => by simp⟩
  | cons e l ih =>
    obtain ⟨a, ha, hlookup⟩ := hl e List.mem_cons_self e.1 (.inl rfl)
    obtain ⟨g₁, h₁, hsccs₁, hmap₁, hedges₁⟩ := exists_addSccEdges h ha fun f hf =>
      hl e List.mem_cons_self f (.inr hf)
    obtain ⟨g₂, h₂, hsccs₂, hmap₂, hedges₂⟩ := ih hedges₁ fun e' he' f hf =>
      hsccs₁ ▸ hl e' (List.mem_cons_of_mem _ he') f hf
    refine ⟨g₂, OptionFold.cons_eq_some.mpr ⟨g₁, ?_, h₂⟩, hsccs₂.trans hsccs₁, hmap₂.trans hmap₁,
      hedges₂.congr fun i j => ?_⟩
    · rw [hlookup]
      exact h₁
    · simp only [List.mem_cons, exists_eq_or_imp, hlookup, Option.some.injEq]
      constructor
      · rintro ((hP | ⟨hne, rfl, hf⟩) | ⟨hne, he⟩)
        · exact .inl hP
        · exact .inr ⟨hne, .inl ⟨rfl, hf⟩⟩
        · exact .inr ⟨hne, .inr he⟩
      · rintro (hP | ⟨hne, ⟨rfl, hf⟩ | he⟩)
        · exact .inl (.inl hP)
        · exact .inl (.inr ⟨hne, rfl, hf⟩)
        · exact .inr ⟨hne, he⟩

end SCCGraph

/-! ## Components -/

namespace ModuleCore

variable (m : ModuleCore)

/-- A call in a block of `f` goes to `f'`. -/
def Calls (f f' : FunctionId) : Prop :=
  ∃ insts, m.blockInsts f = some insts ∧ ∃ i ∈ insts, ∃ d, m.inst ⟨f, i⟩ = some d ∧
    ∃ args, d.kind = .call f' args

end ModuleCore

/-- The graph holds the calls of the module, its sets in whatever order. -/
structure CallGraph.Represents (graph : CallGraph) (m : ModuleCore) : Prop where
  keys : ∀ f, f ∈ graph.succs.keys ↔ (m.func f).isSome
  succs : ∀ f f', f' ∈ succsList graph.succs f ↔ m.Calls f f'
  preds : ∀ f f', f ∈ succsList graph.preds f' ↔ m.Calls f f'

/-- A function of the component `i` calls one of the component `j`, which is another one. -/
def SCCGraph.Between (g : SCCGraph) (m : ModuleCore) (i j : Nat) : Prop :=
  i ≠ j ∧ ∃ f f', g.sccIdMap.lookup f = some i ∧ g.sccIdMap.lookup f' = some j ∧ m.Calls f f'

/-- The components are those of the calls of the module. -/
structure SCCGraph.Strong (g : SCCGraph) (m : ModuleCore) : Prop where
  total : ∀ f, (m.func f).isSome → ∃ i, g.sccIdMap.lookup f = some i
  same : ∀ f f' i i', g.sccIdMap.lookup f = some i → g.sccIdMap.lookup f' = some i' →
    (i = i' ↔ Reach m.Calls f f' ∧ Reach m.Calls f' f)
  called : ∀ f f', m.Calls f f' → ∃ i i', g.sccIdMap.lookup f = some i ∧ g.sccIdMap.lookup f' = some i'
  members : ∀ i f, g.sccIdMap.lookup f = some i ↔ ∃ scc, g.sccs[i]? = some scc ∧ f ∈ scc
  nodup : g.sccs.flatten.Nodup
  edges : g.Edges (g.Between m)

namespace CallGraph

variable {graph : CallGraph} {m : ModuleCore} {hash : HashOrder Nat}

/-- The components, each in the order of its set, with their indices. -/
def sccIds (sccs : List (List FunctionId)) : List (FunctionId × Nat) :=
  sccs.zipIdx.flatMap fun scc => scc.1.map fun id => (id, scc.2)

theorem mem_sccIds {sccs : List (List FunctionId)} {f : FunctionId} {i : Nat} :
    (f, i) ∈ sccIds sccs ↔ ∃ scc, sccs[i]? = some scc ∧ f ∈ scc := by
  simp only [sccIds, List.mem_flatMap, List.mem_map, Prod.mk.injEq, Prod.exists,
    List.mem_zipIdx_iff_getElem?]
  constructor
  · rintro ⟨scc, i, hscc, f, hf, rfl, rfl⟩
    exact ⟨scc, hscc, hf⟩
  · rintro ⟨scc, hscc, hf⟩
    exact ⟨scc, i, hscc, f, hf, rfl, rfl⟩

theorem map_fst_sccIds (sccs : List (List FunctionId)) :
    (sccIds sccs).map Prod.fst = sccs.flatten := by
  have hfst : ∀ scc : List FunctionId × Nat, (scc.1.map fun id => (id, scc.2)).map Prod.fst = scc.1 := by
    intro scc
    rw [List.map_map]
    exact List.map_id _
  rw [sccIds, List.map_flatMap]
  simp only [hfst]
  rw [List.flatMap_def, List.zipIdx_map_fst]

/-- The nodes of the graph. -/
def nodes (graph : CallGraph) : Finset FunctionId :=
  (graph.succs.keys ++ graph.succs.entries.flatMap Sigma.snd).toFinset

theorem mem_keys_of_succ {f f' : FunctionId} (h : f' ∈ succsList graph.succs f) :
    f ∈ graph.succs.keys := by
  by_contra hnot
  rw [succsList, AList.lookup_eq_none.mpr hnot] at h
  cases h

theorem mem_nodes_of_succ {f f' : FunctionId} (h : f' ∈ succsList graph.succs f) :
    f ∈ graph.nodes ∧ f' ∈ graph.nodes := by
  refine ⟨List.mem_toFinset.mpr (List.mem_append_left _ (mem_keys_of_succ h)), ?_⟩
  refine List.mem_toFinset.mpr (List.mem_append_right _ (List.mem_flatMap.mpr ?_))
  obtain ⟨set, hset⟩ := Option.isSome_iff_exists.mp (AList.lookup_isSome.mpr (mem_keys_of_succ h))
  rw [succsList, hset] at h
  exact ⟨⟨f, set⟩, AList.mem_lookup_iff.mp hset, h⟩

/-- Two rounds of depth-first visits find the strong components. -/
theorem exists_dfs_strong (hgraph : graph.Represents m) :
    ∃ n dfsOrder sccs, (∀ fuel, n ≤ fuel → dfs graph.succs fuel graph.succs.keys [] = some dfsOrder ∧
        dfs graph.preds fuel dfsOrder.flatten.reverse [] = some sccs) ∧
      sccs.flatten.Nodup ∧ (∀ f, (m.func f).isSome → f ∈ sccs.flatten) ∧
      (∀ f f', m.Calls f f' → f ∈ sccs.flatten ∧ f' ∈ sccs.flatten) ∧
      ∀ scc ∈ sccs, ∀ f ∈ scc, ∀ f', f' ∈ scc ↔ Reach m.Calls f f' ∧ Reach m.Calls f' f := by
  -- the edges of the first round are the calls
  have hsuccs : DfsEdge graph.succs = m.Calls := funext₂ fun f f' => propext (hgraph.succs f f')
  have hpreds : DfsEdge graph.preds = flip m.Calls :=
    funext₂ fun f f' => propext (hgraph.preds f' f)
  have hnodes : ∀ f f', m.Calls f f' → f ∈ graph.nodes ∧ f' ∈ graph.nodes := fun f f' h =>
    mem_nodes_of_succ ((hgraph.succs f f').mpr h)
  have hkeys : ∀ f ∈ graph.succs.keys, f ∈ graph.nodes := fun f hf =>
    List.mem_toFinset.mpr (List.mem_append_left _ hf)
  have hclosed : ∀ f ∈ graph.nodes, ∀ f', DfsEdge graph.succs f f' → f' ∈ graph.nodes :=
    fun f _ f' h => (hnodes f f' (hsuccs ▸ h)).2
  -- the first round
  obtain ⟨n₁, dfsOrder, hrun₁, hforest₁⟩ := exists_dfs hclosed hkeys []
  have hempty : {f : FunctionId | f ∈ ([] : List FunctionId)} = ∅ :=
    Set.eq_empty_of_forall_notMem fun _ => List.not_mem_nil
  rw [hsuccs, hempty] at hforest₁
  -- the first round lists the functions in postorder
  have hpost := hforest₁.postOrder
  have hfunc : ∀ f, f ∈ graph.succs.keys → f ∈ dfsOrder.flatten := fun f hf =>
    (hforest₁.mem_of_start hf).resolve_left (Set.notMem_empty f)
  have hall : ∀ f f', m.Calls f f' → f ∈ dfsOrder.flatten := fun f f' h =>
    hfunc f (mem_keys_of_succ ((hgraph.succs f f').mpr h))
  -- the second round, against the calls
  have hclosed' : ∀ f ∈ graph.nodes ∪ dfsOrder.flatten.toFinset, ∀ f', DfsEdge graph.preds f f' →
      f' ∈ graph.nodes ∪ dfsOrder.flatten.toFinset := by
    intro f _ f' h
    rw [hpreds] at h
    exact Finset.mem_union_left _ (hnodes f' f h).1
  have hstarts : ∀ f ∈ dfsOrder.flatten.reverse, f ∈ graph.nodes ∪ dfsOrder.flatten.toFinset :=
    fun f hf => Finset.mem_union_right _ (List.mem_toFinset.mpr (List.mem_reverse.mp hf))
  obtain ⟨n₂, sccs, hrun₂, hforest₂⟩ := exists_dfs hclosed' hstarts []
  rw [hpreds, hempty] at hforest₂
  have hmem : ∀ f ∈ dfsOrder.flatten, f ∈ sccs.flatten := fun f hf =>
    (hforest₂.mem_of_start (List.mem_reverse.mpr hf)).resolve_left (Set.notMem_empty f)
  refine ⟨max n₁ n₂, dfsOrder, sccs, fun fuel hfuel => ⟨hrun₁ fuel (le_of_max_le_left hfuel),
    hrun₂ fuel (le_of_max_le_right hfuel)⟩, hforest₂.postOrder.nodup, fun f hf => ?_, fun f f' h => ?_, ?_⟩
  · exact hmem f (hfunc f ((hgraph.keys f).mpr hf))
  · have hf := hall f f' h
    exact ⟨hmem f hf, hmem f' ((hpost.closed hf h).resolve_left (Set.notMem_empty f'))⟩
  -- a tree of the second round is a class of mutual reachability
  · refine hforest₂.strong hpost hall (q := []) ?_ nofun nofun
    rw [List.reverse_reverse, List.append_nil]

/-- The sets of the components, as they are iterated. -/
def sccSets (hash : HashOrder Nat) (trees : List (List FunctionId)) : List (HashSet FunctionId) :=
  trees.zipIdx.map fun scc => hash.iter scc.2 scc.1

theorem getElem?_sccSets {trees : List (List FunctionId)} {i : Nat} {scc : HashSet FunctionId} :
    (sccSets hash trees)[i]? = some scc ↔ ∃ tree, trees[i]? = some tree ∧ hash.iter i tree = scc := by
  simp only [sccSets, List.getElem?_map, List.getElem?_zipIdx, Option.map_map, Option.map_eq_some_iff,
    Function.comp, Nat.zero_add]

theorem flatten_sccSets (trees : List (List FunctionId)) :
    (sccSets hash trees).flatten.Perm trees.flatten := by
  have hforall : List.Forall₂ List.Perm (sccSets hash trees) (trees.zipIdx.map Prod.fst) := by
    rw [sccSets, List.forall₂_map_left_iff, List.forall₂_map_right_iff]
    exact List.forall₂_same.mpr fun scc _ => hash.perm scc.2 scc.1
  rw [List.zipIdx_map_fst] at hforall
  exact List.Perm.flatten_congr hforall

/-- The maps of the components before the loop over the calls. -/
def emptySets (n : Nat) : HashMap Nat (HashSet Nat) :=
  HashMap.collect ((List.range n).map fun i => (i, []))

theorem lookup_emptySets {n i : Nat} {set : HashSet Nat} :
    (emptySets n).lookup i = some set ↔ i < n ∧ set = [] := by
  rw [emptySets, HashMap.lookup_collect]
  · simp only [List.mem_map, List.mem_range, Prod.mk.injEq]
    constructor
    · rintro ⟨j, hj, rfl, rfl⟩
      exact ⟨hj, rfl⟩
    · rintro ⟨hi, rfl⟩
      exact ⟨i, hi, rfl, rfl⟩
  · rw [List.map_map]
    exact List.nodup_range.map fun _ _ h => h

/-- `build_scc` returns: two functions are in the same component just if each reaches the other. -/
theorem exists_buildScc (hgraph : graph.Represents m) (hash : HashOrder Nat) :
    ∃ g, (∃ n, ∀ fuel, n ≤ fuel → graph.buildScc hash fuel = some g) ∧ g.Strong m := by
  obtain ⟨n, dfsOrder, trees, hrun, hnodup, hfunc, hcalls, hstrong⟩ := exists_dfs_strong hgraph
  -- sorting a component keeps what is in it
  have hperm : (sccSets hash trees).flatten.Perm trees.flatten := flatten_sccSets trees
  have hnodup' : (sccSets hash trees).flatten.Nodup := hperm.nodup_iff.mpr hnodup
  -- each function has the number of the component that holds it
  have hlookup : ∀ f i, (HashMap.collect (sccIds (sccSets hash trees))).lookup f = some i ↔
      ∃ scc, (sccSets hash trees)[i]? = some scc ∧ f ∈ scc := by
    intro f i
    rw [HashMap.lookup_collect (by rwa [map_fst_sccIds]), mem_sccIds]
  have htotal : ∀ f ∈ trees.flatten, ∃ i < (sccSets hash trees).length,
      (HashMap.collect (sccIds (sccSets hash trees))).lookup f = some i := by
    intro f hf
    obtain ⟨scc, hscc, hf⟩ := List.mem_flatten.mp (hperm.mem_iff.mpr hf)
    obtain ⟨i, hi, hget⟩ := List.getElem_of_mem hscc
    exact ⟨i, hi, (hlookup f i).mpr ⟨scc, List.getElem?_eq_some_iff.mpr ⟨hi, hget⟩, hf⟩⟩
  have hmem : ∀ e ∈ graph.succs.entries, ∀ f', f' ∈ e.2 ↔ m.Calls e.1 f' := by
    intro e he f'
    rw [← hgraph.succs, succsList, AList.mem_lookup_iff.mpr he, Option.getD_some]
  -- every component starts without an edge
  have hstart : ∀ i < (sccSets hash trees).length, ∃ set,
      (emptySets (sccSets hash trees).length).lookup i = some set ∧ set.Nodup ∧ ∀ j, j ∈ set ↔ False :=
    fun i hi => ⟨[], lookup_emptySets.mpr ⟨hi, rfl⟩, List.nodup_nil, by simp⟩
  have hkeys : ∀ i ∈ emptySets (sccSets hash trees).length, i < (sccSets hash trees).length := by
    intro i hi
    obtain ⟨set, hset⟩ := Option.isSome_iff_exists.mp (AList.lookup_isSome.mpr hi)
    exact (lookup_emptySets.mp hset).1
  -- the edges are added one by one
  obtain ⟨g, hfold, hsccs, hmap, hedges⟩ := SCCGraph.exists_sccEdges (l := graph.succs.entries)
    (SCCGraph.Edges.mk (g := ⟨sccSets hash trees, HashMap.collect (sccIds (sccSets hash trees)), _, _⟩)
      hstart hstart nofun hkeys) fun e he f hf => by
        rcases hf with rfl | hf
        · exact htotal _ (hfunc _ ((hgraph.keys _).mp (List.mem_keys_of_mem he)))
        · exact htotal _ (hcalls _ _ ((hmem e he f).mp hf)).2
  refine ⟨g, ⟨n, fun fuel hfuel => ?_⟩, fun f hf => ?_, fun f f' i i' hi hi' => ?_, fun f f' h => ?_,
    fun i f => ?_, ?_, ?_⟩
  · simp only [buildScc, (hrun fuel hfuel).1, (hrun fuel hfuel).2, Option.bind_eq_bind, Option.bind_some]
    exact hfold
  · obtain ⟨i, -, hi⟩ := htotal f (hfunc f hf)
    exact ⟨i, hmap ▸ hi⟩
  -- two functions of one component reach each other
  · rw [hmap, hlookup] at hi hi'
    obtain ⟨scc, hscc, hf⟩ := hi
    obtain ⟨scc', hscc', hf'⟩ := hi'
    obtain ⟨tree, htree, rfl⟩ := getElem?_sccSets.mp hscc
    have hsame := hstrong tree (List.mem_of_getElem? htree) f ((hash.perm i tree).mem_iff.mp hf) f'
    rw [← hsame, ← (hash.perm i tree).mem_iff]
    constructor
    · rintro rfl
      obtain rfl := Option.some.inj (hscc.symm.trans hscc')
      exact hf'
    · intro hf'i
      have h₁ := (hlookup f' i).mpr ⟨_, hscc, hf'i⟩
      have h₂ := (hlookup f' i').mpr ⟨_, hscc', hf'⟩
      exact Option.some.inj (h₁.symm.trans h₂)
  -- both ends of a call are in a component
  · obtain ⟨i, -, hi⟩ := htotal f (hcalls f f' h).1
    obtain ⟨i', -, hi'⟩ := htotal f' (hcalls f f' h).2
    exact ⟨i, i', hmap ▸ hi, hmap ▸ hi'⟩
  · rw [hmap, hlookup, hsccs]
  · rw [hsccs]
    exact hnodup'
  -- an edge between components comes from a call
  · refine hedges.congr fun i j => ?_
    rw [SCCGraph.Between, hmap, false_or]
    refine and_congr_right fun _ => ⟨?_, ?_⟩
    · rintro ⟨e, he, hi, f', hf', hj⟩
      exact ⟨e.1, f', hi, hj, (hmem e he f').mp hf'⟩
    · rintro ⟨f, f', hi, hj, hcall⟩
      have hkey := mem_keys_of_succ ((hgraph.succs f f').mpr hcall)
      obtain ⟨set, hset⟩ := List.mem_keys.mp hkey
      exact ⟨⟨f, set⟩, hset, hi, f', (hmem ⟨f, set⟩ hset f').mpr hcall, hj⟩

end CallGraph

/-! ## The order of the components -/

namespace SCCGraph

variable {g : SCCGraph} {P : Nat → Nat → Prop} {hash : HashOrder Nat}

theorem lowerDegree_eq {st : SortState} {x degree : Nat} (hdegree : st.degrees.lookup x = some degree)
    (hpos : 0 < degree) :
    lowerDegree st x = some ⟨st.degrees.insert x (degree - 1),
      (if degree = 1 then [x] else []) ++ st.workList, st.order⟩ := by
  simp only [lowerDegree, hdegree, Option.bind_eq_bind, Option.bind_some, guard, hpos, if_true]
  by_cases hone : degree = 1
  · simp [hone]
  · have hne : degree - 1 ≠ 0 := by omega
    simp [hone, hne]

/-- The loop over the successors of one component lowers their degrees. -/
theorem exists_lowerDegrees {st : SortState} {l : List Nat} {n : Nat} {degree : Nat → Nat}
    (hdegree : ∀ x < n, st.degrees.lookup x = some (degree x)) (hl : ∀ x ∈ l, x < n ∧ 0 < degree x)
    (hnodup : l.Nodup) :
    ∃ st' new, l.foldlM lowerDegree st = some st' ∧ st'.order = st.order ∧
      st'.workList = new ++ st.workList ∧ new.Nodup ∧ (∀ x, x ∈ new ↔ x ∈ l ∧ degree x = 1) ∧
        ∀ x < n, st'.degrees.lookup x = some (degree x - if x ∈ l then 1 else 0) := by
  -- on the list of successors; a degree falls by one for each of them
  induction l generalizing st degree with
  | nil => exact ⟨st, [], rfl, rfl, rfl, List.nodup_nil, by simp, by simpa using hdegree⟩
  | cons x l ih =>
    obtain ⟨hx, hpos⟩ := hl x List.mem_cons_self
    obtain ⟨hxl, hnodup⟩ := List.nodup_cons.mp hnodup
    have hstep := lowerDegree_eq (hdegree x hx) hpos
    have hne : ∀ y ∈ l, y ≠ x := fun y hy h => hxl (by rwa [h] at hy)
    let st₁ : SortState :=
      ⟨st.degrees.insert x (degree x - 1), (if degree x = 1 then [x] else []) ++ st.workList, st.order⟩
    let degree₁ := fun y => if y = x then degree x - 1 else degree y
    have hdegree₁ : ∀ y < n, st₁.degrees.lookup y = some (degree₁ y) := by
      intro y hy
      rw [HashMap.lookup_insert_ite, apply_ite some]
      split
      · rfl
      · exact hdegree y hy
    have hsame : ∀ y ∈ l, degree₁ y = degree y := fun y hy => if_neg (hne y hy)
    have hl₁ : ∀ y ∈ l, y < n ∧ 0 < degree₁ y := by
      intro y hy
      rw [hsame y hy]
      exact hl y (List.mem_cons_of_mem _ hy)
    obtain ⟨st', new, hrun, horder, hwork, hnew, hmem, hlookup⟩ := ih hdegree₁ hl₁ hnodup
    -- the new nodes of the work list are those that reach zero
    have hmem' : ∀ y, y ∈ new ↔ y ∈ l ∧ degree y = 1 := by
      intro y
      rw [hmem]
      refine and_congr_right fun hy => ?_
      rw [hsame y hy]
    refine ⟨st', new ++ if degree x = 1 then [x] else [],
      OptionFold.cons_eq_some.mpr ⟨_, hstep, hrun⟩, horder, ?_, ?_, fun y => ?_, fun y hy => ?_⟩
    · rw [hwork, List.append_assoc]
    · refine List.nodup_append'.mpr ⟨hnew, ?_, fun y hy hy' => ?_⟩
      · split <;> simp
      · split at hy'
        · exact hxl (List.mem_singleton.mp hy' ▸ ((hmem' y).mp hy).1)
        · cases hy'
    -- the node is pushed where its degree was one
    · rw [List.mem_append, hmem', List.mem_cons]
      split
      · next hone =>
        rw [List.mem_singleton]
        constructor
        · rintro (⟨hy, hone⟩ | rfl)
          · exact ⟨.inr hy, hone⟩
          · exact ⟨.inl rfl, hone⟩
        · rintro ⟨rfl | hy, hone⟩
          · exact .inr rfl
          · exact .inl ⟨hy, hone⟩
      · next hone =>
        constructor
        · rintro (⟨hy, hone⟩ | hy)
          · exact ⟨.inr hy, hone⟩
          · cases hy
        · rintro ⟨rfl | hy, hy1⟩
          · exact absurd hy1 hone
          · exact .inl ⟨hy, hy1⟩
    -- the degree of `y` falls by one when it is in the list
    · rw [hlookup y hy]
      by_cases hyx : y = x
      · subst hyx
        have hone : degree₁ y = degree y - 1 := if_pos rfl
        simp [hone, hxl]
      · have hold : degree₁ y = degree y := if_neg hyx
        simp [hold, hyx]

open Classical in
/-- The loop returns when the work list is empty. -/
theorem exists_topologicalLoop (h : g.Edges P) {degree : Nat → Nat} {st : SortState} {k : Nat}
    (hready : Ready P (Finset.range g.sccs.length) degree st.order st.workList)
    (hdegree : ∀ x < g.sccs.length, st.degrees.lookup x = some (degree x))
    (hk : g.sccs.length = st.order.length + k) :
    ∃ degree' order, (∀ fuel, k < fuel → g.topologicalLoop hash fuel st = some order) ∧
      Ready P (Finset.range g.sccs.length) degree' order [] := by
  -- on the number of nodes that are not sorted yet
  induction k using Nat.strongRecOn generalizing degree st with
  | _ k ih =>
    obtain ⟨degrees, workList, order⟩ := st
    replace hk : g.sccs.length = order.length + k := hk
    cases workList with
    -- the work list is empty: all nodes that can be sorted are
    | nil =>
      refine ⟨degree, order, fun fuel hfuel => ?_, hready⟩
      obtain ⟨fuel, rfl⟩ : ∃ n, fuel = n + 1 := ⟨fuel - 1, by omega⟩
      rfl
    | cons u workList =>
      -- sorted and pending nodes are different, so there are no more than components
      have hlen : (order ++ u :: workList).length ≤ g.sccs.length := by
        have hcard := Finset.card_le_card (s := (order ++ u :: workList).toFinset)
          (t := Finset.range g.sccs.length) fun x hx => hready.mem x (List.mem_toFinset.mp hx)
        rwa [List.toFinset_card_of_nodup hready.nodup, Finset.card_range] at hcard
      rw [List.length_append, List.length_cons] at hlen
      have hu : u < g.sccs.length :=
        Finset.mem_range.mp (hready.mem u (List.mem_append_right _ List.mem_cons_self))
      obtain ⟨succs, hsuccs, hnodup, hmem⟩ := h.succs u hu
      have hperm := hash.perm u succs
      have hmem' : ∀ x, x ∈ hash.iter u succs ↔ P u x := fun x => hperm.mem_iff.trans (hmem x)
      -- no successor of `u` is sorted yet, so its degree is still positive
      have hpos : ∀ x ∈ hash.iter u succs, x < g.sccs.length ∧ 0 < degree x := by
        intro x hx
        have hx := (hmem' x).mp hx
        have hlt := (h.bound u x hx).2
        exact ⟨hlt, hready.degree_pos (Finset.mem_range.mpr hlt) hx⟩
      have hdegree' : ∀ x < g.sccs.length,
          (SortState.mk degrees workList (order ++ [u])).degrees.lookup x = some (degree x) := hdegree
      obtain ⟨st', new, hrun, horder, hwork, hnew, hnewmem, hlookup⟩ :=
        exists_lowerDegrees hdegree' hpos (hperm.nodup_iff.mpr hnodup)
      -- `Ready` is kept by one round of the loop
      have hready' : Ready P (Finset.range g.sccs.length)
          (fun x => degree x - if P u x then 1 else 0) st'.order st'.workList := by
        rw [horder, hwork]
        refine hready.step (fun x _ => rfl) hnew fun x => ?_
        rw [hnewmem, hmem', Finset.mem_range]
        exact ⟨fun ⟨hP, hone⟩ => ⟨(h.bound u x hP).2, hP, hone⟩, fun ⟨_, hP, hone⟩ => ⟨hP, hone⟩⟩
      have hlookup' : ∀ x < g.sccs.length, st'.degrees.lookup x =
          some (degree x - if P u x then 1 else 0) := by
        intro x hx
        rw [hlookup x hx]
        simp only [hmem']
      obtain ⟨degree', order', hloop, hdone⟩ := ih (k - 1) (by omega) hready' hlookup' (by
        rw [horder, List.length_append, List.length_singleton]
        omega)
      refine ⟨degree', order', fun fuel hfuel => ?_, hdone⟩
      obtain ⟨fuel, rfl⟩ : ∃ n, fuel = n + 1 := ⟨fuel - 1, by omega⟩
      rw [topologicalLoop]
      simp only [hsuccs, hrun, Option.bind_eq_bind, Option.bind_some]
      exact hloop fuel (by omega)

open Classical in
/-- Before the loop, the work list holds the components that are not called from another one. -/
theorem ready_start (h : g.Edges P) (hash : HashOrder Nat) :
    ∃ degree, (∀ x < g.sccs.length, (g.sortStart hash).degrees.lookup x = some (degree x)) ∧
      Ready P (Finset.range g.sccs.length) degree (g.sortStart hash).order (g.sortStart hash).workList := by
  -- the degree of a component is the number of its predecessors
  have hlookup : ∀ x d, g.degrees.lookup x = some d ↔ ∃ set, g.preds.lookup x = some set ∧ set.length = d := by
    intro x d
    rw [degrees, HashMap.lookup_collect]
    · simp only [List.mem_map, Prod.mk.injEq, Sigma.exists]
      constructor
      · rintro ⟨x, set, hmem, rfl, rfl⟩
        exact ⟨set, AList.mem_lookup_iff.mpr hmem, rfl⟩
      · rintro ⟨set, hset, rfl⟩
        exact ⟨x, set, AList.mem_lookup_iff.mp hset, rfl, rfl⟩
    · rw [List.map_map]
      exact g.preds.nodupKeys
  let degree := fun x => ((Finset.range g.sccs.length).filter (P · x)).card
  have hdegree : ∀ x < g.sccs.length, g.degrees.lookup x = some (degree x) := by
    intro x hx
    obtain ⟨set, hset, hnodup, hmem⟩ := h.preds x hx
    refine (hlookup x _).mpr ⟨set, hset, ?_⟩
    rw [← List.toFinset_card_of_nodup hnodup]
    refine congrArg Finset.card (Finset.ext fun p => ?_)
    rw [List.mem_toFinset, hmem, Finset.mem_filter, Finset.mem_range]
    exact ⟨fun hP => ⟨(h.bound p x hP).1, hP⟩, fun hP => hP.2⟩
  refine ⟨degree, hdegree, .init (fun x _ => rfl) ?_ fun x => ?_⟩
  -- the work list starts with the components without predecessors
  · refine List.nodup_reverse.mpr (List.Nodup.filter _ ?_)
    exact (hash.perm 0 g.degrees.keys).nodup_iff.mpr g.degrees.nodupKeys
  · have hkey : x ∈ hash.iter 0 g.degrees.keys ↔ (g.degrees.lookup x).isSome :=
      (hash.perm 0 g.degrees.keys).mem_iff.trans AList.lookup_isSome.symm
    rw [sortStart, List.mem_reverse, List.mem_filter, hkey, decide_eq_true_iff, Finset.mem_range]
    constructor
    · rintro ⟨-, hzero⟩
      obtain ⟨set, hset, -⟩ := (hlookup x 0).mp hzero
      have hx := h.keys x (AList.lookup_isSome.mp (Option.isSome_of_eq_some hset))
      exact ⟨hx, Option.some.inj ((hdegree x hx).symm.trans hzero)⟩
    · rintro ⟨hx, hzero⟩
      have hget := hdegree x hx
      rw [hzero] at hget
      exact ⟨Option.isSome_of_eq_some hget, hget⟩

/-- Along the edges between the components, each function reaches each. -/
theorem Strong.reach {m : ModuleCore} (h : g.Strong m) {i j : Nat}
    (hij : Relation.TransGen (g.Between m) i j) {f f' : FunctionId}
    (hf : g.sccIdMap.lookup f = some i) (hf' : g.sccIdMap.lookup f' = some j) :
    Reach m.Calls f f' := by
  have hedge : ∀ {i j}, g.Between m i j → ∀ {f f'}, g.sccIdMap.lookup f = some i →
      g.sccIdMap.lookup f' = some j → Reach m.Calls f f' := by
    rintro i j ⟨-, a, b, ha, hb, hcall⟩ f f' hf hf'
    have hfa := ((h.same f a i i hf ha).mp rfl).1
    have hbf := ((h.same b f' j j hb hf').mp rfl).1
    exact (hfa.step hcall).trans hbf
  induction hij generalizing f' with
  | single he => exact hedge he hf hf'
  | tail _ he ih =>
    obtain ⟨a, -, ha, -⟩ := he.2
    exact (ih ha).trans (hedge he ha hf')

/-- `topological_sort` returns every component once, and callers before callees. -/
theorem exists_topologicalSort {m : ModuleCore} (h : g.Strong m) (hash : HashOrder Nat) :
    ∃ order, (∃ n, ∀ fuel, n ≤ fuel → g.topologicalSort hash fuel = some order) ∧
      order.Perm (List.range g.sccs.length) ∧ ∀ f f' i i', m.Calls f f' →
        g.sccIdMap.lookup f = some i → g.sccIdMap.lookup f' = some i' → i ≠ i' →
          order.idxOf i < order.idxOf i' := by
  classical
  obtain ⟨degree, hdegree, hready⟩ := ready_start h.edges hash
  obtain ⟨degree', order, hrun, hdone⟩ := exists_topologicalLoop h.edges hready hdegree
    (Nat.zero_add g.sccs.length).symm
  have hall : ∀ x, x ∈ order ↔ x ∈ Finset.range g.sccs.length := by
    refine hdone.perm fun i hi => ?_
    have hi' : Relation.TransGen (g.Between m) i i := hi.lift id fun a b he => he.2.1
    -- a cycle goes through two components whose functions reach each other
    obtain ⟨j, ⟨hne, f, f', hf, hf', hcall⟩, hback⟩ := Relation.TransGen.head'_iff.mp hi'
    have hreach : Reach m.Calls f' f := by
      rcases Relation.reflTransGen_iff_eq_or_transGen.mp hback with rfl | hback
      · exact absurd rfl hne
      · exact h.reach hback hf' hf
    exact hne ((h.same f f' i j hf hf').mpr ⟨(Reach.refl f).step hcall, hreach⟩)
  have hnodup : order.Nodup := (List.nodup_append'.mp hdone.nodup).1
  refine ⟨order, ⟨g.sccs.length + 1, hrun⟩, ?_, fun f f' i i' hcall hi hi' hne => ?_⟩
  · refine (List.perm_ext_iff_of_nodup hnodup List.nodup_range).mpr fun x => ?_
    rw [hall, Finset.mem_range, List.mem_range]
  · have hmem : ∀ {f i}, g.sccIdMap.lookup f = some i → i ∈ order := by
      intro f i hi
      obtain ⟨scc, hscc, -⟩ := (h.members i f).mp hi
      exact (hall i).mpr (Finset.mem_range.mpr (List.getElem?_eq_some_iff.mp hscc).1)
    refine lt_of_not_ge fun hle => ?_
    have hlt : order.idxOf i' < order.idxOf i :=
      lt_of_le_of_ne hle fun heq => hne ((List.idxOf_inj (hmem hi')).mp heq).symm
    have hsorted := List.pairwise_iff_getElem.mp hdone.sorted _ _ (List.idxOf_lt_length_iff.mpr (hmem hi'))
      (List.idxOf_lt_length_iff.mpr (hmem hi)) hlt
    rw [List.getElem_idxOf, List.getElem_idxOf] at hsorted
    exact hsorted ⟨hne, f, f', hi, hi', hcall⟩

end SCCGraph

/-! ## The calls of the module -/

section Entries

variable {τ : Type} [DecidableEq τ] {map : HashMap τ (HashSet τ)}

theorem mem_succsList_entryDefault {k x y : τ} :
    y ∈ succsList (HashMap.entryDefault map k) x ↔ y ∈ succsList map x := by
  rw [succsList, succsList, HashMap.entryDefault]
  split
  · rfl
  · next hnone =>
    rw [HashMap.lookup_insert_ite]
    split
    · next h => rw [h, hnone]; rfl
    · rfl

theorem mem_succsList_entryInsert {k v x y : τ} :
    y ∈ succsList (HashMap.entryInsert map k v) x ↔ y ∈ succsList map x ∨ x = k ∧ y = v := by
  rw [succsList, succsList, HashMap.entryInsert, HashMap.lookup_insert_ite]
  split
  · next h =>
    rw [Option.getD_some, List.mem_insert_iff, h, or_comm]
    simp
  · next h => simp [h]

theorem mem_succsList_foldl {l : List τ} {v x y : τ} :
    y ∈ succsList (l.foldl (fun map k => HashMap.entryInsert map k v) map) x ↔
      y ∈ succsList map x ∨ x ∈ l ∧ y = v := by
  induction l generalizing map with
  | nil => simp
  | cons k l ih =>
    rw [List.foldl_cons, ih, mem_succsList_entryInsert, List.mem_cons, or_assoc, or_and_right]

end Entries

namespace ModuleCore

variable {m : ModuleCore}

/-- The blocks of the functions and their instructions exist. -/
structure Bodies (m : ModuleCore) : Prop where
  blocks : ∀ f fd, m.func f = some fd → ∀ b ∈ fd.blockOrder, ∃ bd, fd.blocks.get? b = some bd ∧
    ∀ i ∈ bd.insts, (fd.insts.get? i).isSome

theorem Bodies.exists_blockInsts (h : m.Bodies) {f : FunctionId} (hf : (m.func f).isSome) :
    ∃ insts, m.blockInsts f = some insts ∧ ∀ i ∈ insts, ∃ d, m.inst ⟨f, i⟩ = some d := by
  obtain ⟨fd, hfd⟩ := Option.isSome_iff_exists.mp hf
  have hblocks := h.blocks f fd hfd
  obtain ⟨blocks, hrun⟩ := OptionFold.exists_mapM fun b hb =>
    (hblocks b hb).imp fun bd hbd => (hbd.1 : (fun b => fd.blocks.get? b) b = some bd)
  refine ⟨blocks.flatMap fun bd => bd.insts, ?_, fun i hi => ?_⟩
  · simp only [blockInsts, hfd, hrun, Option.bind_eq_bind, Option.bind_some]
  · obtain ⟨bd, hbd, hi⟩ := List.mem_flatMap.mp hi
    obtain ⟨b, hb, hget⟩ := (OptionFold.mem_mapM hrun).mp hbd
    obtain ⟨bd', hbd', hinsts⟩ := hblocks b hb
    obtain rfl : bd = bd' := Option.some.inj (hget.symm.trans hbd')
    rw [inst, hfd]
    exact Option.isSome_iff_exists.mp (hinsts i hi)

/-- The calls of one function. -/
theorem exists_insertCalled {f : FunctionId} {i : InstId} {d : InstData} (acc : HashSet FunctionId)
    (hd : m.inst ⟨f, i⟩ = some d) : ∃ called, m.insertCalled f acc i = some called ∧
      ∀ f', f' ∈ called ↔ f' ∈ acc ∨ ∃ args, d.kind = .call f' args := by
  cases hk : d.kind with
  | call callee args =>
    refine ⟨List.insert callee acc, ?_, fun f' => ?_⟩
    · rw [insertCalled, hd, Option.bind_eq_bind, Option.bind_some, hk]
      rfl
    · simp only [List.mem_insert_iff, InstKind.call.injEq, exists_and_left, exists_eq', and_true]
      rw [or_comm, eq_comm]
  | _ =>
    refine ⟨acc, ?_, fun f' => ?_⟩
    · rw [insertCalled, hd, Option.bind_eq_bind, Option.bind_some, hk]
      rfl
    · simp

theorem Bodies.exists_getCalledFunctions (h : m.Bodies) {f : FunctionId} (hf : (m.func f).isSome) :
    ∃ called, m.getCalledFunctions f = some called ∧ ∀ f', f' ∈ called ↔ m.Calls f f' := by
  obtain ⟨insts, hinsts, hexists⟩ := h.exists_blockInsts hf
  have hloop : ∀ (l : List InstId) (acc : HashSet FunctionId), (∀ i ∈ l, ∃ d, m.inst ⟨f, i⟩ = some d) →
      ∃ called, l.foldlM (m.insertCalled f) acc = some called ∧
        ∀ f', f' ∈ called ↔ f' ∈ acc ∨ ∃ i ∈ l, ∃ d, m.inst ⟨f, i⟩ = some d ∧
          ∃ args, d.kind = .call f' args := by
    intro l
    induction l with
    | nil => exact fun acc _ => ⟨acc, rfl, by simp⟩
    | cons i l ih =>
      intro acc hl
      obtain ⟨d, hd⟩ := hl i List.mem_cons_self
      obtain ⟨acc', hacc, hmem'⟩ := exists_insertCalled acc hd
      obtain ⟨called, hrun, hmem⟩ := ih acc' fun i' hi' => hl i' (List.mem_cons_of_mem _ hi')
      refine ⟨called, OptionFold.cons_eq_some.mpr ⟨_, hacc, hrun⟩, fun f' => ?_⟩
      rw [hmem, hmem']
      simp only [List.mem_cons, exists_eq_or_imp, hd, Option.some.injEq, exists_eq_left', or_assoc]
  obtain ⟨called, hrun, hmem⟩ := hloop insts [] hexists
  refine ⟨called, ?_, fun f' => ?_⟩
  · rw [getCalledFunctions, hinsts]
    exact hrun
  · rw [hmem, Calls, hinsts]
    simp only [List.not_mem_nil, false_or, Option.some.injEq, exists_eq_left']

/-- The call graph holds the calls of the module. -/
theorem Bodies.exists_buildCallGraph (h : m.Bodies) :
    ∃ graph, m.buildCallGraph = some graph ∧ graph.Represents m := by
  -- the graph has the edges of the functions gone through
  have hloop : ∀ (l : List FunctionId) (graph : CallGraph), (∀ f ∈ l, (m.func f).isSome) →
      ∃ graph', l.foldlM (fun graph func => do
          let called ← m.getCalledFunctions func
          let preds := HashMap.entryDefault graph.preds func
          some ⟨graph.succs.insert func called,
            called.foldl (fun preds id => HashMap.entryInsert preds id func) preds⟩) graph = some graph' ∧
        (∀ f, f ∈ graph'.succs.keys ↔ f ∈ graph.succs.keys ∨ f ∈ l) ∧
        (∀ f f', f' ∈ succsList graph'.succs f ↔
          if f ∈ l then m.Calls f f' else f' ∈ succsList graph.succs f) ∧
        ∀ f f', f ∈ succsList graph'.preds f' ↔ f ∈ succsList graph.preds f' ∨ f ∈ l ∧ m.Calls f f' := by
    intro l
    induction l with
    | nil => exact fun graph _ => ⟨graph, rfl, by simp, by simp, by simp⟩
    | cons func l ih =>
      intro graph hl
      obtain ⟨called, hcalled, hmem⟩ := h.exists_getCalledFunctions (hl func List.mem_cons_self)
      let graph₁ : CallGraph := ⟨graph.succs.insert func called,
        called.foldl (fun preds id => HashMap.entryInsert preds id func)
          (HashMap.entryDefault graph.preds func)⟩
      obtain ⟨graph', hrun, hkeys, hsuccs, hpreds⟩ := ih graph₁ fun f hf =>
        hl f (List.mem_cons_of_mem _ hf)
      refine ⟨graph', OptionFold.cons_eq_some.mpr ⟨graph₁, ?_, hrun⟩, fun f => ?_, fun f f' => ?_,
        fun f f' => ?_⟩
      · rw [hcalled]
        rfl
      · rw [hkeys, List.mem_cons, ← AList.mem_keys, ← AList.mem_keys, AList.mem_insert]
        tauto
      · rw [hsuccs]
        -- the function may be in the list twice
        by_cases hfl : f ∈ l
        · rw [if_pos hfl, if_pos (List.mem_cons_of_mem _ hfl)]
        · rw [if_neg hfl, succsList, HashMap.lookup_insert_ite]
          by_cases hff : f = func
          · rw [if_pos hff, if_pos (hff ▸ List.mem_cons_self), Option.getD_some, hff, hmem]
          · rw [if_neg hff, if_neg fun h => hfl ((List.mem_cons.mp h).resolve_left hff), succsList]
      · rw [hpreds, mem_succsList_foldl, mem_succsList_entryDefault, hmem, List.mem_cons, or_assoc]
        refine or_congr_right ⟨?_, ?_⟩
        · rintro (⟨hcall, rfl⟩ | ⟨hfl, hcall⟩)
          · exact ⟨.inl rfl, hcall⟩
          · exact ⟨.inr hfl, hcall⟩
        · rintro ⟨rfl | hfl, hcall⟩
          · exact .inl ⟨hcall, rfl⟩
          · exact .inr ⟨hfl, hcall⟩
  obtain ⟨graph, hrun, hkeys, hsuccs, hpreds⟩ := hloop m.functionsInOrder ⟨∅, ∅⟩ fun f hf =>
    mem_functionsInOrder.mp hf
  have hcaller : ∀ {f f'}, m.Calls f f' → f ∈ m.functionsInOrder := by
    rintro f f' ⟨insts, hinsts, -⟩
    obtain ⟨fd, hfd, -⟩ := Option.bind_eq_some_iff.mp hinsts
    exact mem_functionsInOrder.mpr (Option.isSome_of_eq_some hfd)
  refine ⟨graph, hrun, fun f => ?_, fun f f' => ?_, fun f f' => ?_⟩
  · rw [hkeys, mem_functionsInOrder]
    exact or_iff_right List.not_mem_nil
  -- a caller is in the list, since it has a body
  · rw [hsuccs]
    split
    · rfl
    · next hf =>
      refine iff_of_false ?_ fun hcall => hf (hcaller hcall)
      exact List.not_mem_nil
  · rw [hpreds]
    exact ⟨fun h => (h.resolve_left List.not_mem_nil).2, fun h => .inr ⟨hcaller h, h⟩⟩

end ModuleCore

/-! ## The order of the pass -/

/-- The same sets, each in whatever order. -/
structure CallGraph.Iterates (graph graph₀ : CallGraph) : Prop where
  keys : ∀ f, f ∈ graph.succs.keys ↔ f ∈ graph₀.succs.keys
  succs : ∀ f f', f' ∈ succsList graph.succs f ↔ f' ∈ succsList graph₀.succs f
  preds : ∀ f f', f ∈ succsList graph.preds f' ↔ f ∈ succsList graph₀.preds f'

theorem CallGraph.Represents.iterates {graph graph₀ : CallGraph} {m : ModuleCore}
    (h : graph₀.Represents m) (hgraph : graph.Iterates graph₀) : graph.Represents m where
  keys f := (hgraph.keys f).trans (h.keys f)
  succs f f' := (hgraph.succs f f').trans (h.succs f f')
  preds f f' := (hgraph.preds f f').trans (h.preds f f')

namespace SCCGraph

variable {g : SCCGraph} {m : ModuleCore}

/-- Members of one component have its number. -/
theorem Strong.mem_scc (h : g.Strong m) {i : Nat} {f : FunctionId} :
    f ∈ (g.sccs[i]?).getD [] ↔ g.sccIdMap.lookup f = some i := by
  rw [h.members]
  cases g.sccs[i]? with
  | none => simp
  | some scc => simp

theorem Strong.mem_visitOrder (h : g.Strong m) {order : List Nat}
    (horder : order.Perm (List.range g.sccs.length)) {f : FunctionId} :
    f ∈ g.visitOrder order ↔ ∃ i, g.sccIdMap.lookup f = some i := by
  simp only [visitOrder, List.mem_flatMap, List.mem_reverse, h.mem_scc]
  refine exists_congr fun i => ⟨And.right, fun hi => ⟨?_, hi⟩⟩
  obtain ⟨scc, hscc, -⟩ := (h.members i f).mp hi
  exact horder.mem_iff.mpr (List.mem_range.mpr (List.getElem?_eq_some_iff.mp hscc).1)

theorem Strong.nodup_visitOrder (h : g.Strong m) {order : List Nat}
    (horder : order.Perm (List.range g.sccs.length)) : (g.visitOrder order).Nodup := by
  refine List.nodup_flatMap.mpr ⟨fun i _ => ?_, ?_⟩
  · cases hscc : g.sccs[i]? with
    | none => exact List.nodup_nil
    | some scc => exact (List.nodup_flatten.mp h.nodup).1 scc (List.mem_of_getElem? hscc)
  · have hnodup : order.reverse.Nodup :=
      List.nodup_reverse.mpr (horder.nodup_iff.mpr List.nodup_range)
    refine hnodup.imp fun {i j} hne f hi hj => hne ?_
    exact Option.some.inj ((h.mem_scc.mp hi).symm.trans (h.mem_scc.mp hj))

/-- A function of a component that is later in the sorted order comes earlier in the pass. -/
theorem Strong.idxOf_visitOrder_lt (h : g.Strong m) {order : List Nat} {f f' : FunctionId} {i i' : Nat}
    (hi : g.sccIdMap.lookup f = some i) (hi' : g.sccIdMap.lookup f' = some i')
    (hlt : order.idxOf i < order.idxOf i') (hmem : i' ∈ order) (hnodup : order.Nodup) :
    (g.visitOrder order).idxOf f' < (g.visitOrder order).idxOf f := by
  have hlen : order.idxOf i < order.length := hlt.trans (List.idxOf_lt_length_iff.mpr hmem)
  obtain ⟨a, b, rfl, hia⟩ := List.eq_append_cons_of_mem (List.idxOf_lt_length_iff.mp hlen)
  have hib : i' ∈ b := by
    rcases List.mem_append.mp hmem with ha | hb
    · have hle : (a ++ i :: b).idxOf i = a.length := by
        rw [List.idxOf_append_of_notMem hia, List.idxOf_cons_self, Nat.add_zero]
      have hidx := List.idxOf_lt_length_iff.mpr ha
      rw [hle, List.idxOf_append_of_mem ha] at hlt
      exact absurd hidx hlt.not_gt
    · rcases List.mem_cons.mp hb with rfl | hb
      · exact absurd hlt (lt_irrefl _)
      · exact hb
  obtain ⟨c, d, rfl⟩ := List.append_of_mem hib
  have hsplit : g.visitOrder (a ++ i :: (c ++ i' :: d)) =
      (d.reverse.flatMap fun k => (g.sccs[k]?).getD []) ++ (g.sccs[i']?).getD [] ++
        (c.reverse ++ i :: a.reverse).flatMap fun k => (g.sccs[k]?).getD [] := by
    simp [visitOrder]
  -- the other component has no function up to the end of this one
  have hnot : f ∉ (d.reverse.flatMap fun k => (g.sccs[k]?).getD []) ++ (g.sccs[i']?).getD [] := by
    intro hf
    have hnodup' := (List.nodup_cons.mp (List.nodup_append'.mp hnodup).2.1).1
    refine hnodup' (List.mem_append_right _ ?_)
    rcases List.mem_append.mp hf with hf | hf
    · obtain ⟨k, hk, hf⟩ := List.mem_flatMap.mp hf
      obtain rfl := Option.some.inj ((h.mem_scc.mp hf).symm.trans hi)
      exact List.mem_cons_of_mem _ (List.mem_reverse.mp hk)
    · obtain rfl := Option.some.inj ((h.mem_scc.mp hf).symm.trans hi)
      exact List.mem_cons_self
  have hf' : f' ∈ (d.reverse.flatMap fun k => (g.sccs[k]?).getD []) ++ (g.sccs[i']?).getD [] :=
    List.mem_append_right _ (h.mem_scc.mpr hi')
  rw [hsplit, List.idxOf_append_of_mem hf', List.idxOf_append_of_notMem hnot]
  exact (List.idxOf_lt_length_iff.mpr hf').trans_le (Nat.le_add_right _ _)

end SCCGraph

namespace ModuleCore

/-- The components of the call graph are the classes of functions that reach each other, whatever the
order in which the sets are iterated; a function is listed by exactly the component of its number. -/
theorem buildScc_strong {m : ModuleCore} (hm : m.Bodies) :
    ∃ graph₀, m.buildCallGraph = some graph₀ ∧ ∀ graph : CallGraph, graph.Iterates graph₀ → ∀ hash,
      ∃ g, (∃ n, ∀ fuel, n ≤ fuel → graph.buildScc hash fuel = some g) ∧
        (∀ f, (m.func f).isSome → ∃ i scc, g.sccIdMap.lookup f = some i ∧ g.sccs[i]? = some scc ∧ f ∈ scc) ∧
        (∀ i f, g.sccIdMap.lookup f = some i ↔ ∃ scc, g.sccs[i]? = some scc ∧ f ∈ scc) ∧
        ∀ f f', (m.func f).isSome → (m.func f').isSome →
          (g.sccIdMap.lookup f = g.sccIdMap.lookup f' ↔ Reach m.Calls f f' ∧ Reach m.Calls f' f) := by
  obtain ⟨graph₀, hbuild, hgraph₀⟩ := hm.exists_buildCallGraph
  refine ⟨graph₀, hbuild, fun graph hgraph hash => ?_⟩
  obtain ⟨g, hrun, hstrong⟩ := CallGraph.exists_buildScc (hgraph₀.iterates hgraph) hash
  refine ⟨g, hrun, fun f hf => ?_, hstrong.members, fun f f' hf hf' => ?_⟩
  · obtain ⟨i, hi⟩ := hstrong.total f hf
    obtain ⟨scc, hscc, hmem⟩ := (hstrong.members i f).mp hi
    exact ⟨i, scc, hi, hscc, hmem⟩
  · obtain ⟨i, hi⟩ := hstrong.total f hf
    obtain ⟨i', hi'⟩ := hstrong.total f' hf'
    rw [hi, hi', Option.some.injEq]
    exact hstrong.same f f' i i' hi hi'

/-- The body of a function with one call. -/
def callBody (f : FunctionId) (name : String) (callee : FunctionId) : FunctionData where
  name := name
  ty := ⟨.void, []⟩
  args := .empty
  blocks := SlotMap.empty.insert ⟨some "entry", [], [1], some 2, f, []⟩
  insts := (SlotMap.empty.insert ⟨some ⟨f, 1⟩, .void, .call callee [], [], none⟩).insert
    ⟨some ⟨f, 1⟩, .void, .ret none, [], none⟩
  blockOrder := [1]
  entry := 1
  isDeclare := false

/-- `main` calls `ping`, `ping` calls `pong`, `pong` calls `ping`. -/
def pingPong : ModuleCore :=
  { ModuleCore.new with
    functions := ((SlotMap.empty.insert (callBody 1 "main" 2)).insert (callBody 2 "ping" 3)).insert
      (callBody 3 "pong" 2) }

theorem func_pingPong {f : FunctionId} {fd : FunctionData} (h : pingPong.func f = some fd) :
    f = 1 ∧ fd = callBody 1 "main" 2 ∨ f = 2 ∧ fd = callBody 2 "ping" 3 ∨
      f = 3 ∧ fd = callBody 3 "pong" 2 := by
  have hlt : f < 4 := by
    by_contra hle
    rw [func, SlotMap.get?, pingPong.functions.fresh f (not_lt.mp hle)] at h
    cases h
  interval_cases f <;> cases h
  · exact .inl ⟨rfl, rfl⟩
  · exact .inr (.inl ⟨rfl, rfl⟩)
  · exact .inr (.inr ⟨rfl, rfl⟩)

theorem bodies_pingPong : pingPong.Bodies where
  blocks f fd hfd b hb := by
    rcases func_pingPong hfd with ⟨rfl, rfl⟩ | ⟨rfl, rfl⟩ | ⟨rfl, rfl⟩
    all_goals
      obtain rfl := List.mem_singleton.mp hb
      refine ⟨_, rfl, fun i hi => ?_⟩
      obtain rfl := List.mem_singleton.mp hi
      rfl

theorem calls_pingPong {f f' : FunctionId} :
    pingPong.Calls f f' ↔ f = 1 ∧ f' = 2 ∨ f = 2 ∧ f' = 3 ∨ f = 3 ∧ f' = 2 := by
  constructor
  · rintro ⟨insts, hinsts, i, hi, d, hd, args, hkind⟩
    obtain ⟨fd, hfd, -⟩ := Option.bind_eq_some_iff.mp hinsts
    rcases func_pingPong hfd with ⟨rfl, -⟩ | ⟨rfl, -⟩ | ⟨rfl, -⟩
    all_goals
      cases hinsts
      obtain rfl := List.mem_singleton.mp hi
      cases hd
      cases hkind
    · exact .inl ⟨rfl, rfl⟩
    · exact .inr (.inl ⟨rfl, rfl⟩)
    · exact .inr (.inr ⟨rfl, rfl⟩)
  · rintro (⟨rfl, rfl⟩ | ⟨rfl, rfl⟩ | ⟨rfl, rfl⟩) <;>
      exact ⟨[1], rfl, 1, List.mem_singleton.mpr rfl, _, rfl, [], rfl⟩

/-- `ping` and `pong` share a component. -/
theorem buildScc_strong_pingPong : ∃ graph, pingPong.buildCallGraph = some graph ∧ ∀ hash,
    ∃ g fuel, graph.buildScc hash fuel = some g ∧ g.sccIdMap.lookup 2 = g.sccIdMap.lookup 3 := by
  obtain ⟨graph, hbuild, h⟩ := buildScc_strong bodies_pingPong
  refine ⟨graph, hbuild, fun hash => ?_⟩
  obtain ⟨g, ⟨n, hrun⟩, -, -, hsame⟩ := h graph ⟨fun _ => .rfl, fun _ _ => .rfl, fun _ _ => .rfl⟩ hash
  refine ⟨g, n, hrun n le_rfl, (hsame 2 3 rfl rfl).mpr ⟨?_, ?_⟩⟩
  · exact (Reach.refl 2).step (calls_pingPong.mpr (.inr (.inl ⟨rfl, rfl⟩)))
  · exact (Reach.refl 3).step (calls_pingPong.mpr (.inr (.inr ⟨rfl, rfl⟩)))

theorem mem_inlinableInsts {m : ModuleCore} {g : SCCGraph} {f : FunctionId} {insts : List InstRef}
    (h : m.inlinableInsts g f = some insts) {inst : InstRef} (hinst : inst ∈ insts) :
    inst.func = f ∧ ∃ score, m.analyzeInlinability inst g = some score ∧ 0 < score := by
  obtain ⟨fd, -, h⟩ := Option.bind_eq_some_iff.mp h
  split at h
  · cases h
    cases hinst
  · obtain ⟨l, -, h⟩ := Option.bind_eq_some_iff.mp h
    refine OptionFold.preserves (fun inlinable => ∀ inst ∈ inlinable, inst.func = f ∧
      ∃ score, m.analyzeInlinability inst g = some score ∧ 0 < score) (fun i _ s s' hs hstep => ?_)
      (fun _ h => absurd h List.not_mem_nil) h inst hinst
    obtain ⟨d, -, hstep⟩ := Option.bind_eq_some_iff.mp hstep
    split at hstep
    · obtain ⟨score, hscore, hstep⟩ := Option.bind_eq_some_iff.mp hstep
      split at hstep
      · next hpos =>
        cases hstep
        intro inst hinst
        rcases List.mem_append.mp hinst with hinst | hinst
        · exact hs inst hinst
        · obtain rfl := List.mem_singleton.mp hinst
          exact ⟨rfl, score, hscore, hpos⟩
      · cases hstep
        exact hs
    · cases hstep
      exact hs

/-- A call with a score above zero goes from one component to another. -/
theorem analyzeInlinability_pos {m : ModuleCore} {g : SCCGraph} {inst : InstRef} {score : Int}
    (h : m.analyzeInlinability inst g = some score) (hpos : 0 < score) :
    ∃ d callee args i i', m.inst inst = some d ∧ d.kind = .call callee args ∧
      g.sccIdMap.lookup inst.func = some i ∧ g.sccIdMap.lookup callee = some i' ∧ i ≠ i' := by
  obtain ⟨d, hd, h⟩ := Option.bind_eq_some_iff.mp h
  obtain ⟨⟨callee, args⟩, hcall, h⟩ := Option.bind_eq_some_iff.mp h
  obtain ⟨i, hi, h⟩ := Option.bind_eq_some_iff.mp h
  obtain ⟨i', hi', h⟩ := Option.bind_eq_some_iff.mp h
  refine ⟨d, callee, args, i, i', hd, ?_, hi, hi', fun heq => ?_⟩
  · cases hkind : d.kind with
    | call func args' =>
      rw [hkind] at hcall
      cases hcall
      rfl
    | _ =>
      rw [hkind] at hcall
      cases hcall
  · rw [if_pos heq] at h
    cases h
    exact absurd hpos (by decide)

/-- The pass goes through every function once, a callee before its callers unless it calls back. At no
time, whatever became of the module, does it inline a call whose two functions reach each other. -/
theorem inline_order {m : ModuleCore} (hm : m.Bodies) :
    ∃ graph₀, m.buildCallGraph = some graph₀ ∧ ∀ graph : CallGraph, graph.Iterates graph₀ → ∀ hash,
      ∃ g order, (∃ n, ∀ fuel, n ≤ fuel → graph.buildScc hash fuel = some g ∧
          g.topologicalSort hash fuel = some order) ∧
        (g.visitOrder order).Nodup ∧ (∀ f, (m.func f).isSome → f ∈ g.visitOrder order) ∧
        (∀ f f', m.Calls f f' →
          Reach m.Calls f' f ∨ (g.visitOrder order).idxOf f' < (g.visitOrder order).idxOf f) ∧
        ∀ m' : ModuleCore, ∀ f insts, m'.inlinableInsts g f = some insts → ∀ inst ∈ insts,
          ∃ d callee args, m'.inst inst = some d ∧ d.kind = .call callee args ∧
            ¬(Reach m.Calls f callee ∧ Reach m.Calls callee f) := by
  obtain ⟨graph₀, hbuild, hgraph₀⟩ := hm.exists_buildCallGraph
  refine ⟨graph₀, hbuild, fun graph hgraph hash => ?_⟩
  obtain ⟨g, ⟨n₁, hrun₁⟩, hstrong⟩ := CallGraph.exists_buildScc (hgraph₀.iterates hgraph) hash
  obtain ⟨order, ⟨n₂, hrun₂⟩, horder, hsorted⟩ := SCCGraph.exists_topologicalSort hstrong hash
  refine ⟨g, order, ⟨max n₁ n₂, fun fuel hfuel => ⟨hrun₁ fuel (le_of_max_le_left hfuel),
    hrun₂ fuel (le_of_max_le_right hfuel)⟩⟩, hstrong.nodup_visitOrder horder, fun f hf => ?_,
    -- every function is in a component
    fun f f' hcall => ?_, fun m' f insts hinsts inst hinst => ?_⟩
  · exact (hstrong.mem_visitOrder horder).mpr (hstrong.total f hf)
  · obtain ⟨i, i', hi, hi'⟩ := hstrong.called f f' hcall
    -- within a component the caller and the callee reach each other
    by_cases hne : i = i'
    · exact .inl ((hstrong.same f f' i i' hi hi').mp hne).2
    -- otherwise the sort puts the component of the callee first
    · right
      have hmem : i' ∈ order := by
        obtain ⟨scc, hscc, -⟩ := (hstrong.members i' f').mp hi'
        exact horder.mem_iff.mpr (List.mem_range.mpr (List.getElem?_eq_some_iff.mp hscc).1)
      exact hstrong.idxOf_visitOrder_lt hi hi' (hsorted f f' i i' hcall hi hi' hne) hmem
        (horder.nodup_iff.mpr List.nodup_range)
  -- a positive score means that the components differ
  · obtain ⟨hfunc, score, hscore, hpos⟩ := mem_inlinableInsts hinsts hinst
    obtain ⟨d, callee, args, i, i', hd, hkind, hi, hi', hne⟩ := analyzeInlinability_pos hscore hpos
    rw [hfunc] at hi
    exact ⟨d, callee, args, hd, hkind, fun hreach => hne ((hstrong.same f callee i i' hi hi').mpr hreach)⟩

/-- `ping` is visited before `main`. -/
theorem inline_order_pingPong : ∃ graph, pingPong.buildCallGraph = some graph ∧ ∀ hash,
    ∃ g order fuel, graph.buildScc hash fuel = some g ∧ g.topologicalSort hash fuel = some order ∧
      (g.visitOrder order).idxOf 2 < (g.visitOrder order).idxOf 1 := by
  obtain ⟨graph, hbuild, h⟩ := inline_order bodies_pingPong
  refine ⟨graph, hbuild, fun hash => ?_⟩
  obtain ⟨g, order, ⟨n, hrun⟩, -, -, horder, -⟩ :=
    h graph ⟨fun _ => .rfl, fun _ _ => .rfl, fun _ _ => .rfl⟩ hash
  refine ⟨g, order, n, (hrun n le_rfl).1, (hrun n le_rfl).2, ?_⟩
  refine (horder 1 2 (calls_pingPong.mpr (.inl ⟨rfl, rfl⟩))).resolve_left fun hback => ?_
  -- no call leads to `main`
  have hne : (1 : FunctionId) ≠ 1 :=
    hback.induct (P := fun f => f ≠ 1) (by decide) fun f f' _ _ hcall => by
      rcases calls_pingPong.mp hcall with ⟨-, rfl⟩ | ⟨-, rfl⟩ | ⟨-, rfl⟩ <;> decide
  exact hne rfl

end ModuleCore

end Ir
