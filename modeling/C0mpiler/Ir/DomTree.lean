import C0mpiler.Ir.CfgDfs
import Mathlib

/-!
# What `buildDomTree` computes

The disjoint-set `find` of `build_dom_tree` returns the root of a vertex, not its best vertex,
so the semidominator of a block is not taken over the tree paths below the root. What comes
out as the immediate dominator of a block is the *meet* of its predecessors in the depth-first
tree, their nearest common ancestor (`buildDomTree_spec`). That is the closest strict
dominator exactly when no edge bypasses a meet (`buildDomTree_correct_iff`).
-/

namespace Ir

open Flow

/-- The parent map of the depth-first tree, as a function. -/
abbrev DFSResult.parentOf (dfs : DFSResult) (v : CFGNode) : Option CFGNode := dfs.parent.lookup v

namespace ControlFlowGraph

/-! ## Mirrored graphs -/

/-- The two edge maps of a graph describe the same edges. -/
def Mirrored (cfg : ControlFlowGraph) : Prop :=
  ∀ u v, u ∈ cfg.predsOf v ↔ v ∈ cfg.succsOf u

/-- What a bucket holds after a node has been put in one. -/
theorem mem_getD_entryInsert {b : HashMap CFGNode (HashSet CFGNode)} {s n t v : CFGNode} :
    v ∈ ((HashMap.entryInsert b s n).lookup t).getD [] ↔
      v ∈ (b.lookup t).getD [] ∨ (t = s ∧ v = n) := by
  rw [HashMap.entryInsert, HashMap.lookup_insert_ite]
  split
  · next hts =>
    subst hts
    rw [Option.getD_some, List.mem_insert_iff]
    tauto
  · next hts => simp [hts]

/-- An empty bucket holds nothing. -/
theorem getD_entryDefault (b : HashMap CFGNode (HashSet CFGNode)) (s t : CFGNode) :
    ((HashMap.entryDefault b s).lookup t).getD [] = (b.lookup t).getD [] := by
  unfold HashMap.entryDefault
  split
  · rfl
  · next hnone =>
    rw [HashMap.lookup_insert_ite]
    split
    · next hts => rw [hts, hnone]; rfl
    · rfl

/-- The graph without edges is mirrored. -/
theorem mirrored_empty (entry : CFGNode) : Mirrored ⟨entry, ∅, ∅⟩ := by
  intro u v
  simp [predsOf, succsOf]

/-- An edge that is added in both directions keeps a graph mirrored. -/
theorem Mirrored.addEdge {cfg : ControlFlowGraph} (hm : cfg.Mirrored) (u v : CFGNode) :
    (cfg.addEdge u v).Mirrored := by
  intro x y
  have hxy := hm x y
  simp only [predsOf, succsOf] at hxy
  simp only [ControlFlowGraph.addEdge, predsOf, succsOf, mem_getD_entryInsert, hxy]
  tauto

/-- A node without edges keeps a graph mirrored. -/
theorem Mirrored.entryDefault {cfg : ControlFlowGraph} (hm : cfg.Mirrored) (n : CFGNode) :
    Mirrored ⟨cfg.entry, HashMap.entryDefault cfg.succs n, HashMap.entryDefault cfg.preds n⟩ := by
  intro x y
  have hxy := hm x y
  simp only [predsOf, succsOf] at hxy
  simp only [predsOf, succsOf, getD_entryDefault, hxy]

/-- The reversed graph is mirrored too. -/
theorem Mirrored.reverse {cfg : ControlFlowGraph} (hm : cfg.Mirrored) (ends : List BlockId) :
    (cfg.reverse ends).Mirrored := by
  have hswap : Mirrored ⟨.fake, cfg.preds, cfg.succs⟩ := fun u v => (hm v u).symm
  have hloop : ∀ (l : List BlockId) (c : ControlFlowGraph), c.Mirrored →
      (l.foldl (fun cfg e => cfg.addEdge .fake (.block e)) c).Mirrored := by
    intro l
    induction l with
    | nil => exact fun c hc => hc
    | cons e l ih => exact fun c hc => ih _ (hc.addEdge _ _)
  exact hloop ends _ (hswap.entryDefault .fake)

/-- The graph of a function is mirrored. -/
theorem mirrored_buildCfg {m : ModuleCore} {f : FunctionId} {cfg : ControlFlowGraph}
    (h : m.buildCfg f = some cfg) : cfg.Mirrored := by
  obtain ⟨fd, -, hrun⟩ := Option.bind_eq_some_iff.mp h
  -- one block adds its edges in both directions
  have hstep : ∀ (c c' : ControlFlowGraph) (b : BlockId), c.Mirrored →
      ModuleCore.addBlockEdges fd c b = some c' → c'.Mirrored := by
    intro c c' b hc hb
    obtain ⟨data, -, hb⟩ := Option.bind_eq_some_iff.mp hb
    have hd := hc.entryDefault (.block b)
    split at hb
    · cases hb
      exact hd
    · obtain ⟨d, -, hb⟩ := Option.bind_eq_some_iff.mp hb
      split at hb
      · split at hb
        · cases hb
          exact (hd.addEdge _ _).addEdge _ _
        · cases hb
          exact hd.addEdge _ _
      · cases hb
        exact hd
  -- the loop over the blocks
  have hloop : ∀ (l : List BlockId) (c c' : ControlFlowGraph), c.Mirrored →
      l.foldlM (ModuleCore.addBlockEdges fd) c = some c' → c'.Mirrored := by
    intro l
    induction l with
    | nil =>
      intro c c' hc hl
      cases hl
      exact hc
    | cons b l ih =>
      intro c c' hc hl
      rw [List.foldlM_cons] at hl
      obtain ⟨c₁, hb, hl⟩ := Option.bind_eq_some_iff.mp hl
      exact ih c₁ c' (hstep c c₁ b hc hb) hl
  exact hloop _ _ _ (mirrored_empty _) hrun

section Forest

variable {cfg : ControlFlowGraph} {dfs : DFSResult}

/-- The disjoint set when the nodes numbered above `k` have been linked: such a node points to
a proper ancestor at or below its nearest ancestor up to `k`, every other node to itself. -/
structure ForestInv (dfs : DFSResult) (k : Nat) (st : FindState) : Prop where
  link : ∀ v ∈ dfs.order, ∃ p ∈ dfs.order, st.disjointSet.lookup v = some p ∧
    (dfs.order.idxOf v ≤ k → p = v) ∧
    (k < dfs.order.idxOf v → dfs.order.idxOf p < dfs.order.idxOf v ∧ Anc dfs.parentOf p v ∧
      ∀ r, DfsTree.IsNearest dfs.order dfs.parentOf k v r → Anc dfs.parentOf r p)
  best : ∀ v ∈ dfs.order, ∃ b ∈ dfs.order, st.best.lookup v = some b

/-- `sdom` has an entry, a numbered node, for every numbered node. -/
def Total (dfs : DFSResult) (sdom : HashMap CFGNode CFGNode) : Prop :=
  ∀ v ∈ dfs.order, ∃ s ∈ dfs.order, sdom.lookup v = some s

/-- The number of a node is its place in the preorder. -/
theorem lookup_dfn (h : DFSResult.Spec cfg dfs) {v : CFGNode} (hv : v ∈ dfs.order) :
    dfs.dfn.lookup v = some (dfs.order.idxOf v) := (h.dfn v _).mpr ⟨hv, rfl⟩

/-- `find` returns the nearest ancestor that has not been linked, and keeps the disjoint set
as it should be. -/
theorem find_spec (h : DFSResult.Spec cfg dfs) {k : Nat} {sdom : HashMap CFGNode CFGNode}
    (hsdom : Total dfs sdom) (fuel : Nat) {v r : CFGNode} {st : FindState}
    (hst : ForestInv dfs k st) (hv : v ∈ dfs.order) (hfuel : dfs.order.idxOf v < fuel)
    (hr : DfsTree.IsNearest dfs.order dfs.parentOf k v r) :
    ∃ st', find dfs.dfn sdom fuel v st = some (r, st') ∧ ForestInv dfs k st' := by
  induction fuel generalizing v st with
  | zero => exact absurd hfuel (Nat.not_lt_zero _)
  | succ fuel ih =>
    obtain ⟨p, hp, hlookup, hself, hlinked⟩ := hst.link v hv
    by_cases hpv : p = v
    · have hle : dfs.order.idxOf v ≤ k := by
        by_contra hgt
        have := (hlinked (by omega)).1
        rw [hpv] at this
        omega
      have hrv : r = v := h.tree.nearest_unique hr (.self hle)
      refine ⟨st, ?_, hst⟩
      simp [find, hlookup, hpv, hrv]
    -- the node is linked: path compression hangs it on the root that the recursion finds
    · have hgt : k < dfs.order.idxOf v := by
        by_contra hle
        exact hpv (hself (by omega))
      obtain ⟨hlt, hanc, hnear⟩ := hlinked hgt
      obtain ⟨st₁, hrun, hst₁⟩ := ih hst hp (by omega)
        ⟨hnear r hr, hr.le, fun c hc hck => hr.deepest c (hc.trans hanc) hck⟩
      obtain ⟨bp, hbp, hbpl⟩ := hst₁.best p hp
      obtain ⟨bv, hbv, hbvl⟩ := hst₁.best v hv
      obtain ⟨sp, hsp, hspl⟩ := hsdom bp hbp
      obtain ⟨sv, hsv, hsvl⟩ := hsdom bv hbv
      have hrm : r ∈ dfs.order := h.tree.anc_mem hr.anc hv
      refine ⟨⟨st₁.disjointSet.insert v r, if dfs.order.idxOf sp < dfs.order.idxOf sv then
        st₁.best.insert v bp else st₁.best⟩, ?_, ?_⟩
      · simp [find, hlookup, hpv, hrun, hbpl, hbvl, hspl, hsvl, lookup_dfn h hsp, lookup_dfn h hsv]
      · refine ⟨fun x hx => ?_, fun x hx => ?_⟩
        · rw [HashMap.lookup_insert_ite]
          split
          · next hxv =>
            subst hxv
            refine ⟨r, hrm, rfl, fun hle => absurd hle (by omega), fun _ => ⟨?_, hr.anc, ?_⟩⟩
            · exact lt_of_le_of_lt hr.le hgt
            · intro s hs
              rw [h.tree.nearest_unique hs hr]
              exact .refl
          · exact hst₁.link x hx
        · dsimp only
          split
          · rw [HashMap.lookup_insert_ite]
            split
            · exact ⟨bp, hbp, rfl⟩
            · exact hst₁.best x hx
          · exact hst₁.best x hx

/-- Linking the node numbered `k + 1` to its parent. -/
theorem ForestInv.link_node (h : DFSResult.Spec cfg dfs) {k : Nat} {st : FindState}
    (hst : ForestInv dfs (k + 1) st) {n p : CFGNode} (hidx : dfs.order.idxOf n = k + 1)
    (hp : dfs.parentOf n = some p) :
    ForestInv dfs k { st with disjointSet := st.disjointSet.insert n p } := by
  refine ⟨fun v hv => ?_, hst.best⟩
  have hpm := (h.tree.parent_mem n p hp).2
  have hplt := h.tree.parent_lt n p hp
  rw [HashMap.lookup_insert_ite]
  split
  · next hvn =>
    subst hvn
    refine ⟨p, hpm, rfl, fun hle => absurd hle (by omega), fun _ =>
      ⟨hplt, .child hp .refl, fun r hr => hr.anc.of_parent ?_ hp⟩⟩
    rintro rfl
    have := hr.le
    omega
  · next hvn =>
    obtain ⟨q, hq, hlookup, hself, hlinked⟩ := hst.link v hv
    refine ⟨q, hq, hlookup, fun hle => hself (by omega), fun hgt => ?_⟩
    have hne : dfs.order.idxOf v ≠ k + 1 := by
      intro heq
      exact hvn ((List.idxOf_inj hv).mp (heq.trans hidx.symm))
    obtain ⟨hlt, hanc, hnear⟩ := hlinked (by omega)
    refine ⟨hlt, hanc, fun r hr => ?_⟩
    obtain ⟨s, -, hs⟩ := h.tree.exists_nearest (k + 1) hv (by
      have := h.tree.root_le n
      omega)
    exact (hs.deepest r hr.anc (hr.le.trans (Nat.le_succ k))).trans (hnear s hs)

end Forest

section MainLoop

variable {cfg : ControlFlowGraph} {dfs : DFSResult}

/-- The state of the main loop when the nodes numbered above `k` have been processed. A
processed node has its meet as semidominator; it also has it as immediate dominator, or it
still waits in the bucket of its meet, and then the tree child of the meet above it has not
been processed. -/
structure LoopInv (cfg : ControlFlowGraph) (dfs : DFSResult) (k : Nat) (st : DomState) : Prop where
  forest : ForestInv dfs k st.forest
  sdom_self : ∀ v ∈ dfs.order, dfs.order.idxOf v ≤ k → st.sdom.lookup v = some v
  sdom_meet : ∀ v ∈ dfs.order, k < dfs.order.idxOf v → ∃ s ∈ dfs.order,
    st.sdom.lookup v = some s ∧ DfsTree.IsMeet cfg.Edge dfs.order dfs.parentOf v s
  idom : ∀ v, (st.idom.lookup v).isSome ↔ v ∈ dfs.order
  bucket : ∀ s l, st.bucket.lookup s = some l → ∀ v ∈ l,
    v ∈ dfs.order ∧ k < dfs.order.idxOf v ∧ st.sdom.lookup v = some s
  done : ∀ v ∈ dfs.order, k < dfs.order.idxOf v → ∀ s, st.sdom.lookup v = some s →
    st.idom.lookup v = some s ∨
      (v ∈ (st.bucket.lookup s).getD [] ∧
        ∀ c, dfs.parentOf c = some s → Anc dfs.parentOf c v → dfs.order.idxOf c ≤ k)

/-- Every node has a semidominator during the loop. -/
theorem LoopInv.total {k : Nat} {st : DomState} (hst : LoopInv cfg dfs k st) :
    Total dfs st.sdom := by
  intro v hv
  rcases le_or_gt (dfs.order.idxOf v) k with hle | hgt
  · exact ⟨v, hv, hst.sdom_self v hv hle⟩
  · obtain ⟨s, hs, hlookup, -⟩ := hst.sdom_meet v hv hgt
    exact ⟨s, hs, hlookup⟩

/-- While the predecessors of `n` are visited: the semidominator of `n` is `n` itself or the
nearest ancestor of one of them, and comes first among those of the predecessors seen. -/
structure PredInv (cfg : ControlFlowGraph) (dfs : DFSResult) (n : CFGNode) (st₀ st : DomState)
    (seen : List CFGNode) : Prop where
  forest : ForestInv dfs (dfs.order.idxOf n) st.forest
  idom : st.idom = st₀.idom
  bucket : st.bucket = st₀.bucket
  sdom_other : ∀ v, v ≠ n → st.sdom.lookup v = st₀.sdom.lookup v
  sdom_node : ∃ s ∈ dfs.order, st.sdom.lookup n = some s ∧
    (s = n ∨ ∃ u ∈ seen, u ∈ dfs.order ∧
      DfsTree.IsNearest dfs.order dfs.parentOf (dfs.order.idxOf n) u s) ∧
    ∀ u ∈ seen, u ∈ dfs.order → ∀ r,
      DfsTree.IsNearest dfs.order dfs.parentOf (dfs.order.idxOf n) u r →
        dfs.order.idxOf s ≤ dfs.order.idxOf r

/-- One predecessor: a node that the search has not reached is skipped, any other one offers a
candidate. -/
theorem visitPred_spec (h : DFSResult.Spec cfg dfs) {n : CFGNode} {st₀ st : DomState}
    {seen : List CFGNode} (hn : n ∈ dfs.order)
    (hst₀ : LoopInv cfg dfs (dfs.order.idxOf n) st₀) (hst : PredInv cfg dfs n st₀ st seen)
    {fuel : Nat} (hfuel : dfs.order.length < fuel) (pred : CFGNode) :
    ∃ st', visitPred dfs.dfn fuel n st pred = some st' ∧
      PredInv cfg dfs n st₀ st' (seen ++ [pred]) := by
  obtain ⟨s, hs, hsl, hsfrom, hsleast⟩ := hst.sdom_node
  by_cases hpred : pred ∈ dfs.order
  · have htotal : Total dfs st.sdom := by
      intro v hv
      by_cases hvn : v = n
      · exact ⟨s, hs, hvn ▸ hsl⟩
      · rw [hst.sdom_other v hvn]
        exact hst₀.total v hv
    obtain ⟨r, hr, hnear⟩ := h.tree.exists_nearest (dfs.order.idxOf n) hpred (h.tree.root_le n)
    have hlen : dfs.order.idxOf pred < fuel :=
      lt_trans (List.idxOf_lt_length_iff.mpr hpred) hfuel
    obtain ⟨forest, hrun, hforest⟩ := find_spec h htotal fuel hst.forest hpred hlen hnear
    -- the candidate is `n` itself or a node whose semidominator is still itself
    have hcand : st.sdom.lookup r = some (if r = n then s else r) := by
      split
      · next hrn => rw [hrn, hsl]
      · next hrn => rw [hst.sdom_other r hrn, hst₀.sdom_self r hr hnear.le]
    have hrunAll : visitPred dfs.dfn fuel n st pred = some
        (if dfs.order.idxOf (if r = n then s else r) < dfs.order.idxOf s then
          { st with forest := forest, sdom := st.sdom.insert n r }
        else { st with forest := forest }) := by
      have hmem : (if r = n then s else r) ∈ dfs.order := by split <;> assumption
      simp only [visitPred, lookup_dfn h hpred, hrun, hcand, hsl, lookup_dfn h hmem,
        lookup_dfn h hs, Option.bind_eq_bind, Option.bind_some]
      exact (apply_ite some _ _ _).symm
    refine ⟨_, hrunAll, ?_⟩
    by_cases hlt : dfs.order.idxOf (if r = n then s else r) < dfs.order.idxOf s
    -- the candidate comes first and becomes the semidominator
    · rw [if_pos hlt]
      have hrn : r ≠ n := by
        intro hrn
        rw [if_pos hrn] at hlt
        exact lt_irrefl _ hlt
      rw [if_neg hrn] at hlt
      refine ⟨hforest, hst.idom, hst.bucket, ?_, r, hr, AList.lookup_insert _, Or.inr
        ⟨pred, by simp, hpred, hnear⟩, ?_⟩
      · intro v hv
        exact (AList.lookup_insert_ne hv).trans (hst.sdom_other v hv)
      · intro u hu humem q hq
        rcases List.mem_append.mp hu with hu | hu
        · exact hlt.le.trans (hsleast u hu humem q hq)
        · rw [List.mem_singleton.mp hu] at hq
          rw [h.tree.nearest_unique hq hnear]
    -- the candidate comes later, and the old one stays
    · rw [if_neg hlt]
      refine ⟨hforest, hst.idom, hst.bucket, hst.sdom_other, s, hs, hsl, ?_, ?_⟩
      · rcases hsfrom with hsn | ⟨u, hu, hrest⟩
        · exact Or.inl hsn
        · exact Or.inr ⟨u, List.mem_append_left _ hu, hrest⟩
      · intro u hu humem q hq
        rcases List.mem_append.mp hu with hu | hu
        · exact hsleast u hu humem q hq
        · rw [List.mem_singleton.mp hu] at hq
          rw [h.tree.nearest_unique hq hnear]
          by_cases hrn : r = n
          · subst hrn
            rcases hsfrom with hsn | ⟨w, _, _, hw⟩
            · rw [hsn]
            · exact hw.le
          · rw [if_neg hrn] at hlt
            omega
  · have hnone : dfs.dfn.lookup pred = none := by
      cases hl : dfs.dfn.lookup pred with
      | none => rfl
      | some k => exact absurd ((h.dfn pred k).mp hl).1 hpred
    refine ⟨st, by simp only [visitPred, hnone], hst.forest, hst.idom, hst.bucket,
      hst.sdom_other, s, hs, hsl, ?_, ?_⟩
    · rcases hsfrom with hsn | ⟨u, hu, hrest⟩
      · exact Or.inl hsn
      · exact Or.inr ⟨u, List.mem_append_left _ hu, hrest⟩
    · intro u hu humem
      rcases List.mem_append.mp hu with hu | hu
      · exact hsleast u hu humem
      · exact absurd (List.mem_singleton.mp hu ▸ humem) hpred

theorem visitPreds_spec (h : DFSResult.Spec cfg dfs) {n : CFGNode} {st₀ : DomState}
    (hn : n ∈ dfs.order) (hst₀ : LoopInv cfg dfs (dfs.order.idxOf n) st₀) {fuel : Nat}
    (hfuel : dfs.order.length < fuel) (preds : List CFGNode) :
    ∃ st', preds.foldlM (visitPred dfs.dfn fuel n) st₀ = some st' ∧
      PredInv cfg dfs n st₀ st' preds := by
  suffices hgen : ∀ (l seen : List CFGNode) (st : DomState), PredInv cfg dfs n st₀ st seen →
      ∃ st', l.foldlM (visitPred dfs.dfn fuel n) st = some st' ∧
        PredInv cfg dfs n st₀ st' (seen ++ l) by
    refine hgen preds [] st₀ ⟨hst₀.forest, rfl, rfl, fun _ _ => rfl, n, hn, ?_, Or.inl rfl, ?_⟩
    · exact hst₀.sdom_self n hn le_rfl
    · simp
  intro l
  induction l with
  | nil => exact fun seen st hst => ⟨st, rfl, by simpa using hst⟩
  | cons u l ih =>
    intro seen st hst
    obtain ⟨st₁, hrun, hst₁⟩ := visitPred_spec h hn hst₀ hst hfuel u
    obtain ⟨st₂, hrun₂, hst₂⟩ := ih _ st₁ hst₁
    refine ⟨st₂, ?_, by simpa using hst₂⟩
    rw [List.foldlM_cons, hrun]
    exact hrun₂

/-- The predecessor loop leaves the meet of the predecessors as semidominator. -/
theorem PredInv.meet (h : DFSResult.Spec cfg dfs) (hm : cfg.Mirrored) {n : CFGNode}
    {st₀ st : DomState} (hn : n ∈ dfs.order) (hne : n ≠ cfg.entry) 
    (hst : PredInv cfg dfs n st₀ st (cfg.predsOf n)) :
    ∃ s ∈ dfs.order, st.sdom.lookup n = some s ∧
      DfsTree.IsMeet cfg.Edge dfs.order dfs.parentOf n s := by
  obtain ⟨s, hs, hsl, hsfrom, hsleast⟩ := hst.sdom_node
  obtain ⟨p, hp, he, hpar⟩ := h.tree.exists_pred hn hne
  have hplt := h.tree.parent_lt n p hpar
  have hsp := hsleast p ((hm p n).mpr he) hp p (.self hplt.le)
  have hsn : s ≠ n := by
    rintro rfl
    omega
  obtain ⟨u, hu, hum, hnear⟩ := hsfrom.resolve_left hsn
  refine ⟨s, hs, hsl, h.tree.isMeet_of_least hn hne hum ((hm u n).mp hu) hnear ?_⟩
  intro w hw hwn r hr
  exact hsleast w ((hm w n).mpr hwn) hw r hr

/-- One element of the bucket of `p`: its root is `p`, so its immediate dominator becomes `p`. -/
theorem visitBucket_spec (h : DFSResult.Spec cfg dfs) {k : Nat} {fuel : Nat}
    (hfuel : dfs.order.length < fuel) {st : DomState} {v p : CFGNode} (hv : v ∈ dfs.order)
    (hforest : ForestInv dfs k st.forest) (htotal : Total dfs st.sdom)
    (hnear : DfsTree.IsNearest dfs.order dfs.parentOf k v p)
    (hvp : st.sdom.lookup v = some p) (hpp : st.sdom.lookup p = some p) :
    ∃ forest, visitBucket dfs.dfn fuel st v =
        some { st with forest := forest, idom := st.idom.insert v p } ∧ ForestInv dfs k forest := by
  have hlen : dfs.order.idxOf v < fuel := lt_trans (List.idxOf_lt_length_iff.mpr hv) hfuel
  obtain ⟨forest, hrun, hforest'⟩ := find_spec h htotal fuel hforest hv hlen hnear
  refine ⟨forest, ?_, hforest'⟩
  simp [visitBucket, hrun, hvp, hpp]

theorem visitBuckets_spec (h : DFSResult.Spec cfg dfs) {k : Nat} {fuel : Nat}
    (hfuel : dfs.order.length < fuel) {p : CFGNode} (l : List CFGNode) :
    ∀ st : DomState, (∀ v ∈ l, v ∈ dfs.order ∧
        DfsTree.IsNearest dfs.order dfs.parentOf k v p ∧ st.sdom.lookup v = some p) →
      ForestInv dfs k st.forest → Total dfs st.sdom → st.sdom.lookup p = some p →
      ∃ st', l.foldlM (visitBucket dfs.dfn fuel) st = some st' ∧ ForestInv dfs k st'.forest ∧
        st'.sdom = st.sdom ∧ st'.bucket = st.bucket ∧
        (∀ v ∈ l, st'.idom.lookup v = some p) ∧
        ∀ v, st'.idom.lookup v = st.idom.lookup v ∨ (v ∈ l ∧ st'.idom.lookup v = some p) := by
  induction l with
  | nil => exact fun st _ hf _ _ => ⟨st, rfl, hf, rfl, rfl, by simp, fun v => Or.inl rfl⟩
  | cons v l ih =>
    intro st hl hf htotal hpp
    -- the first node of the bucket
    obtain ⟨hv, hnear, hvp⟩ := hl v List.mem_cons_self
    obtain ⟨forest, hrun, hf₁⟩ := visitBucket_spec h hfuel hv hf htotal hnear hvp hpp
    obtain ⟨st', hrun', hf', hsd, hb, hall, hid⟩ := ih
      { st with forest := forest, idom := st.idom.insert v p }
      (fun w hw => hl w (List.mem_cons_of_mem _ hw)) hf₁ htotal hpp
    -- its immediate dominator is written now, and not by the nodes that follow
    have hlook : ∀ w, st'.idom.lookup w = st.idom.lookup w ∨
        (w ∈ v :: l ∧ st'.idom.lookup w = some p) := by
      intro w
      rcases hid w with h' | ⟨hw, h'⟩
      · rw [h', HashMap.lookup_insert_ite]
        split
        · next hwv => exact Or.inr ⟨hwv ▸ List.mem_cons_self, rfl⟩
        · exact Or.inl rfl
      · exact Or.inr ⟨List.mem_cons_of_mem _ hw, h'⟩
    refine ⟨st', ?_, hf', hsd, hb, ?_, hlook⟩
    · rw [List.foldlM_cons, hrun]
      exact hrun'
    · intro w hw
      rcases List.mem_cons.mp hw with rfl | hw
      · rcases hid w with h' | ⟨_, h'⟩
        · rw [h']
          exact AList.lookup_insert _
        · exact h'
      · exact hall w hw

/-- The state in which the bucket of the parent `p` of `n` is about to be emptied: `n` waits in the
bucket of its semidominator `s`, and hangs on `p` in the forest. -/
def DomState.linked (st : DomState) (s n p : CFGNode) : DomState :=
  { st with
    bucket := HashMap.entryInsert st.bucket s n
    forest := { st.forest with disjointSet := st.forest.disjointSet.insert n p } }

/-- The invariant in the middle of a round: the node numbered `k + 1` has its semidominator and is
linked, and the bucket of its parent may still hold nodes that wait for it. -/
structure Linked (cfg : ControlFlowGraph) (dfs : DFSResult) (k : Nat) (st : DomState) : Prop where
  forest : ForestInv dfs k st.forest
  sdom_self : ∀ v ∈ dfs.order, dfs.order.idxOf v ≤ k → st.sdom.lookup v = some v
  sdom_meet : ∀ v ∈ dfs.order, k < dfs.order.idxOf v → ∃ s ∈ dfs.order,
    st.sdom.lookup v = some s ∧ DfsTree.IsMeet cfg.Edge dfs.order dfs.parentOf v s
  idom : ∀ v, (st.idom.lookup v).isSome ↔ v ∈ dfs.order
  bucket : ∀ s v, v ∈ (st.bucket.lookup s).getD [] →
    v ∈ dfs.order ∧ k < dfs.order.idxOf v ∧ st.sdom.lookup v = some s
  done : ∀ v ∈ dfs.order, k < dfs.order.idxOf v → ∀ s, st.sdom.lookup v = some s →
    st.idom.lookup v = some s ∨
      (v ∈ (st.bucket.lookup s).getD [] ∧
        ∀ c, dfs.parentOf c = some s → Anc dfs.parentOf c v → dfs.order.idxOf c ≤ k + 1)

/-- Linking a node whose semidominator is the meet of its predecessors. -/
theorem LoopInv.link (h : DFSResult.Spec cfg dfs) {k : Nat} {n p s : CFGNode} {st st₁ : DomState}
    (hn : n ∈ dfs.order) (hidx : dfs.order.idxOf n = k + 1) (hpar : dfs.parentOf n = some p)
    (hst : LoopInv cfg dfs (k + 1) st) {seen : List CFGNode} (hst₁ : PredInv cfg dfs n st st₁ seen)
    (hs : s ∈ dfs.order) (hsl : st₁.sdom.lookup n = some s)
    (hmeet : DfsTree.IsMeet cfg.Edge dfs.order dfs.parentOf n s) :
    Linked cfg dfs k (st₁.linked s n p) := by
  -- nodes other than `n` were linked before
  have hlater : ∀ v ∈ dfs.order, v ≠ n → k < dfs.order.idxOf v → k + 1 < dfs.order.idxOf v := by
    intro v hv hvn hkv
    have hne : dfs.order.idxOf v ≠ k + 1 := fun heq =>
      hvn ((List.idxOf_inj hv).mp (heq.trans hidx.symm))
    omega
  refine ⟨(hidx ▸ hst₁.forest : ForestInv dfs (k + 1) st₁.forest).link_node h hidx hpar,
    fun v hv hvk => ?_, fun v hv hkv => ?_, fun v => ?_, fun t v hv => ?_, fun v hv hkv t htl => ?_⟩
  -- the semidominator of `v`
  · have hvn : v ≠ n := by
      rintro rfl
      omega
    exact (hst₁.sdom_other v hvn).trans (hst.sdom_self v hv (by omega))
  · by_cases hvn : v = n
    · exact ⟨s, hs, hvn ▸ hsl, hvn ▸ hmeet⟩
    · obtain ⟨t, ht, htl, htm⟩ := hst.sdom_meet v hv (hlater v hv hvn hkv)
      exact ⟨t, ht, (hst₁.sdom_other v hvn).trans htl, htm⟩
  · show (st₁.idom.lookup v).isSome ↔ v ∈ dfs.order
    rw [hst₁.idom]
    exact hst.idom v
  -- `n` goes to the bucket of its semidominator, the others stay where they were
  · rcases mem_getD_entryInsert.mp hv with hv | ⟨rfl, rfl⟩
    · rw [hst₁.bucket] at hv
      cases hl : st.bucket.lookup t with
      | none => simp [hl] at hv
      | some l =>
        rw [hl] at hv
        obtain ⟨hvo, hkv, hvl⟩ := hst.bucket t l hl v hv
        have hvn : v ≠ n := by
          rintro rfl
          omega
        exact ⟨hvo, by omega, (hst₁.sdom_other v hvn).trans hvl⟩
    · exact ⟨hn, by omega, hsl⟩
  · by_cases hvn : v = n
    · subst hvn
      have hts : t = s := Option.some.inj (htl.symm.trans hsl)
      exact Or.inr ⟨mem_getD_entryInsert.mpr (Or.inr ⟨hts, rfl⟩), fun c _ hcv =>
        (h.tree.anc_le hcv).trans hidx.le⟩
    -- `v` is done, or waits in a bucket
    · have htl' : st.sdom.lookup v = some t := (hst₁.sdom_other v hvn).symm.trans htl
      rcases hst.done v hv (hlater v hv hvn hkv) t htl' with hd | ⟨hvt, hc⟩
      · exact Or.inl ((congrArg (AList.lookup v) hst₁.idom).trans hd)
      · exact Or.inr ⟨mem_getD_entryInsert.mpr (Or.inl (by rwa [hst₁.bucket])), hc⟩

theorem Linked.total {k : Nat} {st : DomState} (hst : Linked cfg dfs k st) : Total dfs st.sdom := by
  intro v hv
  rcases le_or_gt (dfs.order.idxOf v) k with hle | hgt
  · exact ⟨v, hv, hst.sdom_self v hv hle⟩
  · obtain ⟨s, hs, hlookup, -⟩ := hst.sdom_meet v hv hgt
    exact ⟨s, hs, hlookup⟩

/-- The nodes that wait for the parent of the node just linked have the parent as root. -/
theorem Linked.nearest (h : DFSResult.Spec cfg dfs) {k : Nat} {n p : CFGNode} {st : DomState}
    (hst : Linked cfg dfs k st) (hn : n ∈ dfs.order) (hidx : dfs.order.idxOf n = k + 1)
    (hpar : dfs.parentOf n = some p) {v : CFGNode} (hv : v ∈ (st.bucket.lookup p).getD []) :
    DfsTree.IsNearest dfs.order dfs.parentOf k v p := by
  have hplt := h.tree.parent_lt n p hpar
  obtain ⟨hvo, hkv, hvl⟩ := hst.bucket p v hv
  obtain ⟨t, -, htl, htm⟩ := hst.sdom_meet v hvo hkv
  rw [hvl] at htl
  cases htl
  have hvne : v ≠ cfg.entry := by
    rintro rfl
    have hroot := h.tree.root_le p
    obtain ⟨rest, hhead⟩ := h.head
    rw [hhead, List.idxOf_cons_self] at hkv
    omega
  obtain ⟨q, hq, -, hqpar⟩ := h.tree.exists_pred hvo hvne
  have hpv : Anc dfs.parentOf p v := .child hqpar (h.tree.meet_anc_parent htm hqpar)
  refine ⟨hpv, by omega, fun c hc hck => ?_⟩
  -- the subtree of `c` is an interval of numbers from `c` to `v`, in which `n` lies
  have hcn : Anc dfs.parentOf c n := by
    by_cases hpc : Anc dfs.parentOf p c
    · exact h.tree.interval c n hn v hvo hc (by omega) (by omega)
    · exact ((hpv.total hc).resolve_left hpc).trans (.child hpar .refl)
  refine hcn.of_parent ?_ hpar
  rintro rfl
  omega

/-- Emptying the bucket of the parent ends the round: its nodes have the parent as immediate
dominator, and whatever waits elsewhere waits for a child with a smaller number. -/
theorem Linked.emptied (h : DFSResult.Spec cfg dfs) {k : Nat} {n p : CFGNode} {st st' : DomState}
    (hst : Linked cfg dfs k st) (hidx : dfs.order.idxOf n = k + 1) (hpar : dfs.parentOf n = some p)
    (hforest : ForestInv dfs k st'.forest) (hsdom : st'.sdom = st.sdom)
    (hbucket : st'.bucket = st.bucket)
    (hall : ∀ v ∈ (st.bucket.lookup p).getD [], st'.idom.lookup v = some p)
    (hidom : ∀ v, st'.idom.lookup v = st.idom.lookup v ∨
      (v ∈ (st.bucket.lookup p).getD [] ∧ st'.idom.lookup v = some p)) :
    LoopInv cfg dfs k { st' with bucket := st'.bucket.erase p } := by
  -- the fields of `LoopInv` with the bucket of `p` gone
  refine ⟨hforest, ?_, ?_, fun v => ?_, fun t l hl v hv => ?_, fun v hv hkv t htl => ?_⟩
  · simpa only [hsdom] using hst.sdom_self
  · simpa only [hsdom] using hst.sdom_meet
  · rcases hidom v with hv' | ⟨hvl, hv'⟩
    · rw [hv', hst.idom v]
    · rw [hv']
      exact iff_of_true rfl (hst.bucket p v hvl).1
  -- the buckets
  · by_cases htp : t = p
    · subst htp
      rw [AList.lookup_erase] at hl
      cases hl
    · rw [AList.lookup_erase_ne htp, hbucket] at hl
      simp only [hsdom]
      exact hst.bucket t v (by simpa [hl] using hv)
  -- the nodes that are done
  · simp only [hsdom] at htl
    rcases hst.done v hv hkv t htl with hd | ⟨hvt, hc⟩
    -- those of the bucket just now, the others before
    · rcases hidom v with h' | ⟨hvl, h'⟩
      · exact Or.inl (h'.trans hd)
      · have hvp := (hst.bucket p v hvl).2.2
        rw [htl] at hvp
        exact Or.inl (h'.trans hvp.symm)
    · by_cases htp : t = p
      · subst htp
        exact Or.inl (hall v hvt)
      · refine Or.inr ⟨?_, fun c hct hcv => ?_⟩
        · rwa [AList.lookup_erase_ne htp, hbucket]
        -- the child numbered `k + 1` is `n`, and hangs on `p`
        rcases Nat.lt_or_eq_of_le (hc c hct hcv) with hlt | heq
        · omega
        · have hcn : c = n :=
            (List.idxOf_inj (h.tree.parent_mem c t hct).1).mp (heq.trans hidx.symm)
          rw [hcn, hpar] at hct
          exact absurd (Option.some.inj hct).symm htp

/-- One round of the main loop. -/
theorem visitNode_spec (h : DFSResult.Spec cfg dfs) (hm : cfg.Mirrored) (o : HashOrder CFGNode)
    {k : Nat} {n : CFGNode} {st : DomState} (hn : n ∈ dfs.order)
    (hidx : dfs.order.idxOf n = k + 1) (hst : LoopInv cfg dfs (k + 1) st) :
    ∃ st', cfg.visitNode o dfs (dfs.order.length + 1) st n = some st' ∧ LoopInv cfg dfs k st' := by
  have hfuel : dfs.order.length < dfs.order.length + 1 := Nat.lt_succ_self _
  have hne : n ≠ cfg.entry := by
    obtain ⟨rest, hhead⟩ := h.head
    rintro rfl
    rw [hhead, List.idxOf_cons_self] at hidx
    omega
  obtain ⟨p, hp, hpn, hpar⟩ := h.tree.exists_pred hn hne
  have hplt := h.tree.parent_lt n p hpar
  have hpreds : cfg.preds.lookup n = some (cfg.predsOf n) := by
    have hmem : p ∈ cfg.predsOf n := (hm p n).mpr hpn
    cases hl : cfg.preds.lookup n with
    | none => simp [predsOf, hl] at hmem
    | some l => simp [predsOf, hl]
  obtain ⟨st₁, hrun₁, hst₁⟩ := visitPreds_spec h hn (hidx ▸ hst) hfuel (cfg.predsOf n)
  obtain ⟨s, hs, hsl, hmeet⟩ := hst₁.meet h hm hn hne
  have hst₂ : Linked cfg dfs k (st₁.linked s n p) := hst.link h hn hidx hpar hst₁ hs hsl hmeet
  -- the nodes of the bucket are visited in an order of the hash map's own
  have hmem : ∀ v, v ∈ o.iter n (((st₁.linked s n p).bucket.lookup p).getD []) ↔
      v ∈ ((st₁.linked s n p).bucket.lookup p).getD [] := fun v => (o.perm n _).mem_iff
  obtain ⟨st₃, hrun₃, hforest₃, hsdom₃, hbucket₃, hall₃, hidom₃⟩ :=
    visitBuckets_spec h hfuel (p := p) (o.iter n (((st₁.linked s n p).bucket.lookup p).getD []))
      (st₁.linked s n p)
      (fun v hv => by
        have hv' := (hmem v).mp hv
        have hwaits := hst₂.bucket p v hv'
        exact ⟨hwaits.1, hst₂.nearest h hn hidx hpar hv', hwaits.2.2⟩)
      hst₂.forest hst₂.total (hst₂.sdom_self p hp (by omega))
  refine ⟨{ st₃ with bucket := st₃.bucket.erase p }, ?_, ?_⟩
  · simp only [visitNode, if_neg hne, hpreds, hrun₁, hsl, hpar, Option.bind_eq_bind,
      Option.bind_some]
    exact congrArg (Option.bind · _) hrun₃
  · refine hst₂.emptied h hidx hpar hforest₃ hsdom₃ hbucket₃
      (fun v hv => hall₃ v ((hmem v).mpr hv)) fun v => ?_
    rw [← hmem v]
    exact hidom₃ v

/-- The whole main loop, over a prefix of the preorder taken backwards. -/
theorem visitNodes_spec (h : DFSResult.Spec cfg dfs) (hm : cfg.Mirrored) (o : HashOrder CFGNode)
    (pre suf : List CFGNode) (hsplit : dfs.order = pre ++ suf) (st : DomState)
    (hst : LoopInv cfg dfs (pre.length - 1) st) :
    ∃ st', pre.reverse.foldlM (cfg.visitNode o dfs (dfs.order.length + 1)) st = some st' ∧
      LoopInv cfg dfs 0 st' := by
  -- from the last node to the first
  induction pre using List.reverseRecOn generalizing suf st with
  | nil => exact ⟨st, rfl, hst⟩
  | append_singleton pre n ih =>
    have hnodup : (pre ++ [n] ++ suf).Nodup := hsplit ▸ h.tree.nodup
    have hidx : dfs.order.idxOf n = pre.length := by
      have hnot : n ∉ pre := by
        intro hmem
        rw [List.append_assoc, List.nodup_append'] at hnodup
        exact hnodup.2.2 hmem (by simp)
      rw [hsplit, List.append_assoc, List.idxOf_append_of_notMem hnot]
      simp
    have hn : n ∈ dfs.order := by
      rw [hsplit]
      simp
    rw [List.length_append, List.length_singleton, Nat.add_sub_cancel] at hst
    rw [List.reverse_append, List.reverse_singleton, List.singleton_append, List.foldlM_cons]
    -- the entry is skipped
    by_cases hpre : pre = []
    · subst hpre
      have hentry : n = cfg.entry := by
        obtain ⟨rest, hhead⟩ := h.head
        rw [hsplit] at hhead
        exact (List.cons.inj hhead).1
      refine ⟨st, ?_, hst⟩
      simp [visitNode, hentry]
    -- any other node is visited, and the rest by induction
    · obtain ⟨k, hk⟩ : ∃ k, pre.length = k + 1 :=
        Nat.exists_eq_succ_of_ne_zero fun h0 => hpre (List.length_eq_zero_iff.mp h0)
      obtain ⟨st₁, hrun₁, hst₁⟩ := visitNode_spec h hm o hn (hidx.trans hk) (hk ▸ hst)
      rw [hrun₁]
      refine ih ([n] ++ suf) (by rw [hsplit, List.append_assoc]) st₁ ?_
      rwa [hk]

end MainLoop

/-! ## The result -/

/-- The dominator tree built from a traversal: the immediate dominator of a numbered block is
the meet, and `children` inverts `idom`. -/
structure MeetTree (cfg : ControlFlowGraph) (dfs : DFSResult) (t : DominatorTree) : Prop where
  root : t.root = cfg.entry
  keys : ∀ v, (t.idom.lookup v).isSome ↔ v ∈ dfs.order
  entry : t.idom.lookup cfg.entry = some cfg.entry
  meet : ∀ b ∈ dfs.order, b ≠ cfg.entry → ∃ a, t.idom.lookup b = some a ∧
    DfsTree.IsMeet cfg.Edge dfs.order dfs.parentOf b a
  children_isSome : ∀ v ∈ dfs.order, (t.children.lookup v).isSome
  mem_children : ∀ v w, w ∈ (t.children.lookup v).getD [] ↔ t.idom.lookup w = some v ∧ w ≠ v

variable {cfg : ControlFlowGraph} {dfs : DFSResult}

theorem lookup_self (h : DFSResult.Spec cfg dfs) {v d : CFGNode} :
    (HashMap.collect (dfs.order.map fun n => (n, n))).lookup v = some d ↔ v ∈ dfs.order ∧ d = v := by
  rw [HashMap.lookup_collect]
  · simp only [List.mem_map, Prod.mk.injEq]
    constructor
    · rintro ⟨a, ha, rfl, rfl⟩
      exact ⟨ha, rfl⟩
    · rintro ⟨hv, rfl⟩
      exact ⟨_, hv, rfl, rfl⟩
  · rw [List.map_map]
    exact (List.map_id dfs.order).symm ▸ h.tree.nodup

theorem LoopInv.init (h : DFSResult.Spec cfg dfs) :
    let self := HashMap.collect (dfs.order.map fun n => (n, n))
    LoopInv cfg dfs (dfs.order.length - 1) ⟨self, self, ⟨self, self⟩, ∅⟩ := by
  intro self
  have hself : ∀ v ∈ dfs.order, self.lookup v = some v := fun v hv =>
    (lookup_self h).mpr ⟨hv, rfl⟩
  have hle : ∀ v ∈ dfs.order, dfs.order.idxOf v ≤ dfs.order.length - 1 := fun v hv =>
    Nat.le_sub_one_of_lt (List.idxOf_lt_length_iff.mpr hv)
  refine ⟨⟨fun v hv => ?_, fun v hv => ⟨v, hv, hself v hv⟩⟩, fun v hv _ => hself v hv, ?_, ?_, ?_, ?_⟩
  · exact ⟨v, hv, hself v hv, fun _ => rfl, fun hlt => absurd (hle v hv) (by omega)⟩
  · exact fun v hv hlt => absurd (hle v hv) (by omega)
  · intro v
    rw [Option.isSome_iff_exists]
    exact ⟨fun ⟨d, hd⟩ => ((lookup_self h).mp hd).1, fun hv => ⟨v, hself v hv⟩⟩
  · intro s l hl
    simp at hl
  · exact fun v hv hlt => absurd (hle v hv) (by omega)

/-- When the main loop has ended nothing waits in a bucket: `idom` and `sdom` agree. -/
theorem LoopInv.finish (h : DFSResult.Spec cfg dfs) {st : DomState} (hst : LoopInv cfg dfs 0 st)
    {v : CFGNode} (hv : v ∈ dfs.order) (hne : v ≠ cfg.entry) :
    ∃ s, st.sdom.lookup v = some s ∧ st.idom.lookup v = some s ∧
      DfsTree.IsMeet cfg.Edge dfs.order dfs.parentOf v s := by
  obtain ⟨p, hp, -, hpar⟩ := h.tree.exists_pred hv hne
  have hpos : 0 < dfs.order.idxOf v := Nat.zero_lt_of_lt (h.tree.parent_lt v p hpar)
  obtain ⟨s, hs, hsl, hmeet⟩ := hst.sdom_meet v hv hpos
  refine ⟨s, hsl, ?_, hmeet⟩
  rcases hst.done v hv hpos s hsl with hd | ⟨-, hwait⟩
  · exact hd
  · -- the tree child of the meet above `v` would still have to be unprocessed
    have hsv : Anc dfs.parentOf s v := .child hpar (h.tree.meet_anc_parent hmeet hpar)
    have hchild : ∀ w, Anc dfs.parentOf s w → s ≠ w → ∃ c, dfs.parentOf c = some s ∧
        Anc dfs.parentOf c w := by
      intro w hsw
      induction hsw with
      | refl => exact fun hne => absurd rfl hne
      | @child b c hp' h' ih =>
        intro _
        by_cases hsb : s = b
        · exact ⟨c, hsb ▸ hp', .refl⟩
        · obtain ⟨c', hc', hcb⟩ := ih hsb
          exact ⟨c', hc', .child hp' hcb⟩
    obtain ⟨c, hc, hcv⟩ := hchild v hsv (h.tree.meet_ne hv hne hmeet)
    have := hwait c hc hcv
    have := h.tree.parent_lt c s hc
    omega

theorem fixIdom_loop (h : DFSResult.Spec cfg dfs) {st : DomState} (hst : LoopInv cfg dfs 0 st)
    (l : List CFGNode) (hl : ∀ v ∈ l, v ∈ dfs.order ∧ v ≠ cfg.entry) :
    l.foldlM (fixIdom st.sdom) st.idom = some st.idom := by
  induction l with
  | nil => rfl
  | cons v l ih =>
    obtain ⟨hv, hne⟩ := hl v List.mem_cons_self
    obtain ⟨s, hsl, hil, -⟩ := hst.finish h hv hne
    have hstep : fixIdom st.sdom st.idom v = some st.idom := by
      simp [fixIdom, hsl, hil]
    rw [List.foldlM_cons, hstep]
    exact ih fun w hw => hl w (List.mem_cons_of_mem _ hw)

theorem children_spec (l : List (Sigma fun _ : CFGNode => CFGNode))
    (c : HashMap CFGNode (HashSet CFGNode)) (v w : CFGNode) :
    let c' := l.foldl (fun c (e : Sigma fun _ : CFGNode => CFGNode) =>
      if e.1 ≠ e.2 then HashMap.entryInsert c e.2 e.1 else c) c
    (w ∈ (c'.lookup v).getD [] ↔ w ∈ (c.lookup v).getD [] ∨ (⟨w, v⟩ ∈ l ∧ w ≠ v)) ∧
      ((c.lookup v).isSome → (c'.lookup v).isSome) := by
  induction l generalizing c with
  | nil => simp
  | cons e l ih =>
    obtain ⟨x, y⟩ := e
    rw [List.foldl_cons]
    -- an entry that is its own parent is left out
    by_cases hxy : x = y
    · have hskip : (if x ≠ y then HashMap.entryInsert c y x else c) = c := if_neg (not_not.mpr hxy)
      rw [hskip]
      refine ⟨?_, (ih c).2⟩
      rw [(ih c).1, List.mem_cons, Sigma.mk.injEq, heq_eq_eq]
      have : ¬ ((w = x ∧ v = y) ∧ w ≠ v) := by
        rintro ⟨⟨rfl, rfl⟩, hne⟩
        exact hne hxy
      tauto
    -- otherwise the child is inserted under its parent
    · have hstep : (if x ≠ y then HashMap.entryInsert c y x else c) = HashMap.entryInsert c y x :=
        if_pos hxy
      rw [hstep]
      refine ⟨?_, fun hc => (ih _).2 ?_⟩
      · rw [(ih _).1, mem_getD_entryInsert, List.mem_cons, Sigma.mk.injEq, heq_eq_eq]
        have : (v = y ∧ w = x) → w ≠ v := by
          rintro ⟨rfl, rfl⟩
          exact hxy
        tauto
      · rw [HashMap.entryInsert, HashMap.lookup_insert_ite]
        split
        · rfl
        · exact hc

/-- `buildDomTree` returns on every graph, and what it returns is the tree of meets. -/
theorem buildDomTree_spec (hm : cfg.Mirrored) (o : HashOrder CFGNode)
    (hdfs : cfg.buildDfn = some dfs) (h : DFSResult.Spec cfg dfs) :
    ∃ t, cfg.buildDomTree o = some t ∧ MeetTree cfg dfs t := by
  obtain ⟨st, hrun, hst⟩ := visitNodes_spec h hm o dfs.order [] (by simp) _ (LoopInv.init h)
  -- the list starts with the entry
  obtain ⟨rest, hhead⟩ := h.head
  have hfix : (dfs.order.drop 1).foldlM (fixIdom st.sdom) st.idom = some st.idom := by
    refine fixIdom_loop h hst _ fun v hv => ⟨List.mem_of_mem_drop hv, ?_⟩
    rintro rfl
    have hnodup := h.tree.nodup
    rw [hhead, List.nodup_cons] at hnodup
    rw [hhead] at hv
    exact hnodup.1 (by simpa using hv)
  have hentry : cfg.entry ∈ dfs.order := hhead ▸ List.mem_cons_self
  have hnonempty : dfs.order.isEmpty = false := by rw [hhead]; rfl
  let idom := st.idom.insert cfg.entry cfg.entry
  let empty : HashMap CFGNode (HashSet CFGNode) := HashMap.collect (idom.keys.map fun n => (n, []))
  let children := idom.entries.foldl (fun c (e : Sigma fun _ : CFGNode => CFGNode) =>
    if e.1 ≠ e.2 then HashMap.entryInsert c e.2 e.1 else c) empty
  -- the entry is its own immediate dominator
  have hlook : ∀ v, idom.lookup v = if v = cfg.entry then some cfg.entry else st.idom.lookup v :=
    fun v => HashMap.lookup_insert_ite _ _ _ _
  have hkeys : ∀ v, (idom.lookup v).isSome ↔ v ∈ dfs.order := by
    intro v
    rw [hlook]
    split
    · next hv => exact iff_of_true rfl (hv ▸ hentry)
    · exact hst.idom v
  -- every node starts without children
  have hempty : ∀ v l, empty.lookup v = some l ↔ v ∈ idom.keys ∧ l = [] := by
    intro v l
    rw [HashMap.lookup_collect]
    · simp only [List.mem_map, Prod.mk.injEq]
      constructor
      · rintro ⟨a, ha, rfl, rfl⟩
        exact ⟨ha, rfl⟩
      · rintro ⟨hv, rfl⟩
        exact ⟨v, hv, rfl, rfl⟩
    · rw [List.map_map]
      exact (List.map_id idom.keys).symm ▸ idom.nodupKeys
  -- the fields of `MeetTree`
  refine ⟨⟨cfg.entry, children, idom⟩, ?_, rfl, hkeys, ?_, ?_, ?_, ?_⟩
  · simp only [buildDomTree, hdfs, hnonempty, hrun, hfix, Option.bind_eq_bind, Option.bind_some]
    rfl
  · rw [hlook, if_pos rfl]
  -- the immediate dominators are the nearest common meets
  · intro b hb hne
    obtain ⟨s, -, hil, hmeet⟩ := hst.finish h hb hne
    exact ⟨s, by rw [hlook, if_neg hne, hil], hmeet⟩
  · intro v hv
    refine (children_spec idom.entries empty v v).2 ?_
    have hkey : v ∈ idom.keys := AList.mem_keys.mp (AList.lookup_isSome.mp ((hkeys v).mpr hv))
    rw [(hempty v []).mpr ⟨hkey, rfl⟩]
    rfl
  -- the children are the entries of the table
  · intro v w
    refine (children_spec idom.entries empty v w).1.trans ?_
    have hnot : w ∉ (empty.lookup v).getD [] := by
      cases hl : empty.lookup v with
      | none => simp
      | some l => simp [((hempty v l).mp hl).2]
    have hmem : (⟨w, v⟩ : Sigma fun _ : CFGNode => CFGNode) ∈ idom.entries ↔
        idom.lookup w = some v := AList.mem_lookup_iff.symm
    rw [hmem]
    tauto

/-! ## When the tree is the dominator tree -/

/-- The immediate dominators of `t` are the closest strict dominators, for every reachable
block other than the entry. -/
def IdomCorrect (cfg : ControlFlowGraph) (t : DominatorTree) : Prop :=
  ∀ b, Reach cfg.Edge cfg.entry b → b ≠ cfg.entry →
    ∃ d, t.idom.lookup b = some d ∧ IsIdom cfg.Edge cfg.entry d b

/-- `t.dominates` answers for every reachable block, and answers dominance. -/
def DominatesCorrect (cfg : ControlFlowGraph) (t : DominatorTree) : Prop :=
  ∀ a b, Reach cfg.Edge cfg.entry b →
    ∃ r, t.dominates a b = some r ∧ (r = true ↔ Dominates cfg.Edge cfg.entry a b)

theorem dominatesLoop_spec (h : DFSResult.Spec cfg dfs) {t : DominatorTree}
    (ht : MeetTree cfg dfs t) (hid : cfg.IdomCorrect t) {a : CFGNode} (ha : a ≠ cfg.entry)
    (fuel : Nat) {b : CFGNode} (hb : b ∈ dfs.order) (hfuel : dfs.order.idxOf b < fuel) :
    ∃ r, t.dominatesLoop a fuel b = some r ∧ (r = true ↔ Dominates cfg.Edge cfg.entry a b) := by
  induction fuel generalizing b with
  | zero => exact absurd hfuel (Nat.not_lt_zero _)
  | succ fuel ih =>
    by_cases hroot : b = cfg.entry
    · refine ⟨false, by simp [DominatorTree.dominatesLoop, ht.root, hroot], ?_⟩
      refine ⟨fun hf => Bool.noConfusion hf, fun hdom => absurd ?_ ha⟩
      exact (hroot ▸ hdom).eq_root
    · by_cases hba : b = a
      · refine ⟨true, by simp [DominatorTree.dominatesLoop, ht.root, hba, ha], ?_⟩
        exact ⟨fun _ => hba ▸ Dominates.refl _ _, fun _ => rfl⟩
      · have hreach : Reach cfg.Edge cfg.entry b := (h.tree.mem_iff b).mp hb
        obtain ⟨d, hd, hidom⟩ := hid b hreach hroot
        have hdb : Anc dfs.parentOf d b := h.tree.anc_of_dominates hb hidom.1.1
        have hlt := h.tree.anc_lt hdb hidom.1.2
        obtain ⟨r, hr, hiff⟩ := ih (h.tree.anc_mem hdb hb) (by omega)
        refine ⟨r, by simp [DominatorTree.dominatesLoop, ht.root, hroot, hba, hd, hr], ?_⟩
        rw [hiff]
        exact ⟨fun hda => hda.trans hidom.1.1, fun hab => hidom.2 a ⟨hab, Ne.symm hba⟩⟩

/-- Correct immediate dominators make `dominates` correct. -/
theorem dominates_correct (h : DFSResult.Spec cfg dfs) {t : DominatorTree}
    (ht : MeetTree cfg dfs t) (hid : cfg.IdomCorrect t) : cfg.DominatesCorrect t := by
  intro a b hb
  by_cases ha : a = cfg.entry
  · refine ⟨true, by simp [DominatorTree.dominates, ht.root, ha], ?_⟩
    exact ⟨fun _ => ha ▸ Dominates.root _ _, fun _ => rfl⟩
  · have hbm : b ∈ dfs.order := (h.tree.mem_iff b).mpr hb
    have hlen : dfs.order.length ≤ t.idom.keys.length := by
      refine (h.tree.nodup.subperm fun v hv => ?_).length_le
      exact AList.mem_keys.mp (AList.lookup_isSome.mp ((ht.keys v).mpr hv))
    have hidx : dfs.order.idxOf b < dfs.order.length := List.idxOf_lt_length_iff.mpr hbm
    obtain ⟨r, hr, hiff⟩ := dominatesLoop_spec h ht hid ha (t.idom.keys.length + 1) hbm (by omega)
    exact ⟨r, by simp [DominatorTree.dominates, ht.root, ha, hr], hiff⟩

/-- On every graph and for every iteration order `buildDomTree` returns, and its result is the
dominator tree exactly when no edge of the graph bypasses the meet of a reachable block in the
depth-first tree. -/
theorem buildDomTree_correct_iff (cfg : ControlFlowGraph) (hm : cfg.Mirrored)
    (o : HashOrder CFGNode) : ∃ dfs t, cfg.buildDfn = some dfs ∧ cfg.buildDomTree o = some t ∧
      (cfg.IdomCorrect t ∧ cfg.DominatesCorrect t ↔
        ∀ b ∈ dfs.order, b ≠ cfg.entry → ∀ a, DfsTree.IsMeet cfg.Edge dfs.order dfs.parentOf b a →
          DfsTree.NoBypass cfg.Edge dfs.order dfs.parentOf b a) := by
  obtain ⟨dfs, hdfs, h⟩ := cfg.buildDfn_spec
  obtain ⟨t, hrun, ht⟩ := buildDomTree_spec hm o hdfs h
  refine ⟨dfs, t, hdfs, hrun, ?_⟩
  have hmeet : ∀ x ∈ dfs.order, x ≠ cfg.entry →
      ∃ m, DfsTree.IsMeet cfg.Edge dfs.order dfs.parentOf x m := fun x hx hne => by
    obtain ⟨a, -, ha⟩ := ht.meet x hx hne
    exact ⟨a, ha⟩
  rw [← h.tree.dominates_meet_iff_noBypass hmeet]
  constructor
  · rintro ⟨hid, -⟩ b hb hne a ha
    obtain ⟨d, hd, hidom⟩ := hid b ((h.tree.mem_iff b).mp hb) hne
    obtain ⟨m, hm', hmm⟩ := ht.meet b hb hne
    rw [hd] at hm'
    cases hm'
    rw [DfsTree.IsMeet.unique h.tree ha hmm]
    exact hidom.1.1
  · intro hdom
    have hid : cfg.IdomCorrect t := by
      intro b hb hne
      have hbm : b ∈ dfs.order := (h.tree.mem_iff b).mpr hb
      obtain ⟨a, ha, hma⟩ := ht.meet b hbm hne
      exact ⟨a, ha, (h.tree.isIdom_meet_iff hbm hne hma).mpr (hdom b hbm hne a hma)⟩
    exact ⟨hid, dominates_correct h ht hid⟩

/-- Block 1 branches to 2 and 4, block 2 to 3 and 4, and block 4 goes on to 3: the edge from 1
to 4 bypasses 2, the meet of the predecessors of 3. -/
def bypassGraph : ControlFlowGraph :=
  let empty : ControlFlowGraph := ⟨.block 1, ∅, ∅⟩
  ((((empty.addEdge (.block 1) (.block 4)).addEdge (.block 1) (.block 2)).addEdge
    (.block 2) (.block 4)).addEdge (.block 2) (.block 3)).addEdge (.block 4) (.block 3)

theorem bypassGraph_mirrored : bypassGraph.Mirrored :=
  (((((mirrored_empty _).addEdge _ _).addEdge _ _).addEdge _ _).addEdge _ _).addEdge _ _

/-- The characterisation on `bypassGraph`. -/
theorem buildDomTree_correct_iff_bypassGraph :
    ∃ dfs t, bypassGraph.buildDfn = some dfs ∧ bypassGraph.buildDomTree (.asStored _) = some t ∧
      (bypassGraph.IdomCorrect t ∧ bypassGraph.DominatesCorrect t ↔
        ∀ b ∈ dfs.order, b ≠ bypassGraph.entry →
          ∀ a, DfsTree.IsMeet bypassGraph.Edge dfs.order dfs.parentOf b a →
            DfsTree.NoBypass bypassGraph.Edge dfs.order dfs.parentOf b a) :=
  buildDomTree_correct_iff bypassGraph bypassGraph_mirrored (.asStored _)

/-- `buildDomTree` names block 2 as the immediate dominator of block 3, although the path
through block 4 does not visit it. -/
theorem buildDomTree_not_correct : ¬ ∀ (cfg : ControlFlowGraph), cfg.Mirrored →
    ∀ o : HashOrder CFGNode, ∃ t, cfg.buildDomTree o = some t ∧
      cfg.IdomCorrect t ∧ cfg.DominatesCorrect t := by
  intro hall
  obtain ⟨t, hrun, hid, -⟩ := hall bypassGraph bypassGraph_mirrored (.asStored _)
  have hidom : (bypassGraph.buildDomTree (.asStored _)).map (fun t => t.idom.lookup (.block 3)) =
      some (some (.block 2)) := by decide
  have hpath : Path bypassGraph.Edge bypassGraph.entry (.block 3)
      [.block 1, .block 4, .block 3] :=
    .snoc (.snoc .nil (show CFGNode.block 4 ∈ bypassGraph.succsOf (.block 1) by decide))
      (show CFGNode.block 3 ∈ bypassGraph.succsOf (.block 4) by decide)
  obtain ⟨d, hd, hdom⟩ := hid (.block 3) ⟨_, hpath⟩ (by decide)
  rw [hrun, Option.map_some, hd] at hidom
  cases hidom
  exact absurd (hdom.1.1 _ hpath) (by decide)

end ControlFlowGraph

end Ir
