import C0mpiler.Ir.Cfg
import C0mpiler.Flow.DfsTree
import Mathlib

/-!
# The depth-first numbering is a depth-first tree

`buildDfn` returns for every graph, and its preorder and parent map form a `Flow.DfsTree` of
the graph's edges (`buildDfn_spec`), whatever the order of the successor sets.

`Grown` says what a visit adds to the traversal state: a segment `added` of the preorder whose
nodes hang below the node the visit came from. One visit grows the state by one subtree
(`Grown.visit`), and the visits of a loop over successors compose (`Grown.append`).
-/

namespace Ir

open Flow

namespace ControlFlowGraph

/-- `v` is a successor of `u`. -/
def Edge (cfg : ControlFlowGraph) (u v : CFGNode) : Prop := v ∈ cfg.succsOf u

/-- The parent map of a traversal state, as a function. -/
abbrev DfsState.parentOf (st : DfsState) (v : CFGNode) : Option CFGNode := st.parent.lookup v

/-- Only visited nodes have parents, and these have been visited too. -/
def DfsState.Closed (st : DfsState) : Prop :=
  ∀ x p, st.parentOf x = some p → x ∈ st.visited ∧ p ∈ st.visited

/-! ## Ancestors in a growing parent map -/

/-- A map that agrees on a set closed under parents has the same ancestors there. -/
theorem anc_congr {f g : CFGNode → Option CFGNode} {V : CFGNode → Prop}
    (hclosed : ∀ x p, V x → f x = some p → V p) (hagree : ∀ x, V x → g x = f x)
    {a c : CFGNode} (hc : V c) : Anc g a c ↔ Anc f a c := by
  constructor
  · intro h
    induction h with
    | refl => exact .refl
    | child hp _ ih =>
      rw [hagree _ hc] at hp
      exact .child hp (ih (hclosed _ _ hc hp))
  · intro h
    induction h with
    | refl => exact .refl
    | child hp _ ih => exact .child ((hagree _ hc).trans hp) (ih (hclosed _ _ hc hp))

/-- A set that is closed under parents has the ancestors of its members. -/
theorem anc_closed {f : CFGNode → Option CFGNode} {V : CFGNode → Prop}
    (hclosed : ∀ x p, V x → f x = some p → V p) {a c : CFGNode} (h : Anc f a c) (hc : V c) :
    V a := by
  induction h with
  | refl => exact hc
  | child hp _ ih => exact ih (hclosed _ _ hc hp)

/-! ## What a visit adds -/

/-- The state `st'` is `st` after visits from `src` that added the nodes `added`. -/
structure Grown (E : CFGNode → CFGNode → Prop) (src : Option CFGNode) (st st' : DfsState)
    (added : List CFGNode) : Prop where
  order : st'.order = st.order ++ added
  visited : ∀ x, x ∈ st'.visited ↔ x ∈ st.visited ∨ x ∈ added
  nodup : added.Nodup
  fresh : ∀ x ∈ added, x ∉ st.visited
  closed : st'.Closed
  parent_old : ∀ x, x ∉ added → st'.parentOf x = st.parentOf x
  parent_new : ∀ x ∈ added, (st'.parentOf x = src ∧ ∀ p, src = some p → E p x) ∨
    ∃ p ∈ added, st'.parentOf x = some p ∧ added.idxOf p < added.idxOf x ∧ E p x
  below : ∀ p, src = some p → ∀ c ∈ added, Anc st'.parentOf p c
  anc_out : ∀ c ∈ added, ∀ a, Anc st'.parentOf a c →
    a ∈ added ∨ ∃ p, src = some p ∧ Anc st'.parentOf a p
  succ_visited : ∀ x ∈ added, ∀ y, E x y → y ∈ st'.visited
  edge : ∀ x ∈ added, ∀ y ∈ added, E x y → added.idxOf x < added.idxOf y →
    Anc st'.parentOf x y
  interval : ∀ a ∈ added, ∀ b ∈ added, ∀ c ∈ added, Anc st'.parentOf a c →
    added.idxOf a ≤ added.idxOf b → added.idxOf b ≤ added.idxOf c → Anc st'.parentOf a b

variable {E : CFGNode → CFGNode → Prop} {src : Option CFGNode} {st st₁ st₂ st' : DfsState}
  {l₁ l₂ added : List CFGNode}

/-- Nothing has been added. -/
theorem Grown.nil (hst : st.Closed) : Grown E src st st [] where
  order := by simp
  visited := by simp
  nodup := List.nodup_nil
  fresh := by simp
  closed := hst
  parent_old := fun _ _ => rfl
  parent_new := by simp
  below := by simp
  anc_out := by simp
  succ_visited := by simp
  edge := by simp
  interval := by simp

/-- Ancestors of visited nodes are not changed by later visits. -/
theorem Grown.anc_iff (h : Grown E src st st' added) (hst : st.Closed) {a c : CFGNode}
    (hc : c ∈ st.visited) : Anc st'.parentOf a c ↔ Anc st.parentOf a c :=
  anc_congr (V := (· ∈ st.visited)) (fun x p _ hp => (hst x p hp).2)
    (fun x hx => h.parent_old x fun hx' => h.fresh x hx' hx) hc

/-- Nothing new is an ancestor of a visited node. -/
theorem Grown.not_anc_old (h : Grown E src st st' added) (hst : st.Closed) {a c : CFGNode}
    (ha : a ∈ added) (hc : c ∈ st.visited) : ¬ Anc st'.parentOf a c := by
  intro hac
  rw [h.anc_iff hst hc] at hac
  exact h.fresh a ha
    (anc_closed (V := (· ∈ st.visited)) (fun x p _ hp => (hst x p hp).2) hac hc)

/-- Two parts of a search, one after the other. -/
theorem Grown.append (h₁ : Grown E src st st₁ l₁) (h₂ : Grown E src st₁ st₂ l₂)
    (hst : st.Closed) (hsrc : ∀ p, src = some p → p ∈ st.visited) :
    Grown E src st st₂ (l₁ ++ l₂) := by
  have hdisj : ∀ x ∈ l₂, x ∉ l₁ := fun x hx hx' =>
    h₂.fresh x hx ((h₁.visited x).mpr (Or.inr hx'))
  have hl₁ : ∀ x ∈ l₁, x ∈ st₁.visited := fun x hx => (h₁.visited x).mpr (Or.inr hx)
  have hidx₁ : ∀ x ∈ l₁, (l₁ ++ l₂).idxOf x = l₁.idxOf x := fun x hx =>
    List.idxOf_append_of_mem hx
  have hidx₂ : ∀ x ∈ l₂, (l₁ ++ l₂).idxOf x = l₂.idxOf x + l₁.length := fun x hx =>
    (List.idxOf_append_of_notMem (hdisj x hx)).trans (Nat.add_comm _ _)
  have hlt₁ : ∀ x ∈ l₁, l₁.idxOf x < l₁.length := fun x hx => List.idxOf_lt_length_iff.mpr hx
  have hsrc₁ : ∀ p, src = some p → p ∈ st₁.visited := fun p hp =>
    (h₁.visited p).mpr (Or.inl (hsrc p hp))
  -- nothing added first is above anything added second
  -- the ancestors of a node of the second part are of the second part or above the source
  have hcross : ∀ a ∈ l₁, ∀ c ∈ l₂, ¬ Anc st₂.parentOf a c := by
    intro a ha c hc hac
    rcases h₂.anc_out c hc a hac with h | ⟨p, hp, hap⟩
    · exact hdisj a h ha
    · rw [h₂.anc_iff h₁.closed (hsrc₁ p hp)] at hap
      exact h₁.not_anc_old hst ha (hsrc p hp) hap
  refine
    { order := by rw [h₂.order, h₁.order, List.append_assoc]
      visited := fun x => by rw [h₂.visited, h₁.visited, List.mem_append, or_assoc]
      nodup := List.nodup_append'.mpr ⟨h₁.nodup, h₂.nodup, fun x hx hx' => hdisj x hx' hx⟩
      fresh := ?_
      closed := h₂.closed
      parent_old := ?_
      parent_new := ?_
      below := ?_
      anc_out := ?_
      succ_visited := ?_
      edge := ?_
      interval := ?_ }
  · intro x hx hx'
    rcases List.mem_append.mp hx with h | h
    · exact h₁.fresh x h hx'
    · exact h₂.fresh x h ((h₁.visited x).mpr (Or.inl hx'))
  · intro x hx
    rw [List.mem_append, not_or] at hx
    rw [h₂.parent_old x hx.2, h₁.parent_old x hx.1]
  · intro x hx
    rcases List.mem_append.mp hx with h | h
    · rw [h₂.parent_old x fun h' => hdisj x h' h]
      rcases h₁.parent_new x h with h' | ⟨p, hp, hpx, hlt, he⟩
      · exact Or.inl h'
      · exact Or.inr ⟨p, List.mem_append_left _ hp, hpx, by rwa [hidx₁ p hp, hidx₁ x h], he⟩
    · rcases h₂.parent_new x h with h' | ⟨p, hp, hpx, hlt, he⟩
      · exact Or.inl h'
      · refine Or.inr ⟨p, List.mem_append_right _ hp, hpx, ?_, he⟩
        rw [hidx₂ p hp, hidx₂ x h]
        omega
  · intro p hp c hc
    rcases List.mem_append.mp hc with h | h
    · exact (h₂.anc_iff h₁.closed (hl₁ c h)).mpr (h₁.below p hp c h)
    · exact h₂.below p hp c h
  · intro c hc a hac
    rcases List.mem_append.mp hc with h | h
    · rw [h₂.anc_iff h₁.closed (hl₁ c h)] at hac
      rcases h₁.anc_out c h a hac with h' | ⟨p, hp, hap⟩
      · exact Or.inl (List.mem_append_left _ h')
      · exact Or.inr ⟨p, hp, (h₂.anc_iff h₁.closed (hsrc₁ p hp)).mpr hap⟩
    · rcases h₂.anc_out c h a hac with h' | h'
      · exact Or.inl (List.mem_append_right _ h')
      · exact Or.inr h'
  · intro x hx y he
    rcases List.mem_append.mp hx with h | h
    · exact (h₂.visited y).mpr (Or.inl (h₁.succ_visited x h y he))
    · exact h₂.succ_visited x h y he
  · intro x hx y hy he hlt
    -- an edge that goes forward: within a part by that part, and between the parts from the first
    -- only
    rcases List.mem_append.mp hx with h | h <;> rcases List.mem_append.mp hy with h' | h'
    · rw [hidx₁ x h, hidx₁ y h'] at hlt
      exact (h₂.anc_iff h₁.closed (hl₁ y h')).mpr (h₁.edge x h y h' he hlt)
    · -- the successors of the first part had been visited before the second part began
      exact absurd (h₁.succ_visited x h y he) (h₂.fresh y h')
    · rw [hidx₂ x h, hidx₁ y h'] at hlt
      have := hlt₁ y h'
      omega
    · rw [hidx₂ x h, hidx₂ y h'] at hlt
      exact h₂.edge x h y h' he (by omega)
  · intro a ha b hb c hc hac hab hbc
    -- an interval of the tree lies within one part
    rcases List.mem_append.mp ha with h | h <;> rcases List.mem_append.mp hc with h' | h'
    · have hb' : b ∈ l₁ := by
        rcases List.mem_append.mp hb with hb | hb
        · exact hb
        · rw [hidx₂ b hb, hidx₁ c h'] at hbc
          have := hlt₁ c h'
          omega
      rw [hidx₁ a h, hidx₁ b hb'] at hab
      rw [hidx₁ b hb', hidx₁ c h'] at hbc
      rw [h₂.anc_iff h₁.closed (hl₁ c h')] at hac
      exact (h₂.anc_iff h₁.closed (hl₁ b hb')).mpr
        (h₁.interval a h b hb' c h' hac hab hbc)
    · exact absurd hac (hcross a h c h')
    · rw [hidx₂ a h] at hab
      rw [hidx₁ c h'] at hbc
      have := hlt₁ c h'
      omega
    · have hb' : b ∈ l₂ := by
        rcases List.mem_append.mp hb with hb | hb
        · rw [hidx₂ a h, hidx₁ b hb] at hab
          have := hlt₁ b hb
          omega
        · exact hb
      rw [hidx₂ a h, hidx₂ b hb'] at hab
      rw [hidx₂ b hb', hidx₂ c h'] at hbc
      exact h₂.interval a h b hb' c h' hac (by omega) (by omega)

/-- The state in which the successors of a newly visited block are visited. -/
def DfsState.enter (st : DfsState) (src : Option CFGNode) (block : CFGNode) : DfsState :=
  ⟨block :: st.visited, st.order ++ [block],
    match src with
    | some p => st.parent.insert block p
    | none => st.parent⟩

/-- The parents after a node has been entered. -/
theorem parentOf_enter (st : DfsState) (src : Option CFGNode) (block x : CFGNode)
    (hst : st.Closed) (hb : block ∉ st.visited) :
    (st.enter src block).parentOf x = if x = block then src else st.parentOf x := by
  have hnone : st.parent.lookup block = none := by
    cases h : st.parent.lookup block with
    | none => rfl
    | some p => exact absurd (hst block p h).1 hb
  cases src with
  | none =>
    simp only [DfsState.enter, DfsState.parentOf]
    split
    · next h => rw [h, hnone]
    · rfl
  | some p => simp only [DfsState.enter, DfsState.parentOf, HashMap.lookup_insert_ite]

/-- Entering a node keeps the search closed. -/
theorem closed_enter (hst : st.Closed) {block : CFGNode} (hb : block ∉ st.visited)
    (hsrc : ∀ p, src = some p → p ∈ st.visited) : (st.enter src block).Closed := by
  intro x p hp
  rw [parentOf_enter st src block x hst hb] at hp
  split at hp
  · next h => exact ⟨h ▸ List.mem_cons_self, List.mem_cons_of_mem _ (hsrc p hp)⟩
  · exact ⟨List.mem_cons_of_mem _ (hst x p hp).1, List.mem_cons_of_mem _ (hst x p hp).2⟩

/-- A block and what the loop over its successors added form one subtree. -/
theorem Grown.visit {block : CFGNode} (hst : st.Closed) (hb : block ∉ st.visited)
    (hsrc : ∀ p, src = some p → p ∈ st.visited ∧ E p block)
    (h : Grown E (some block) (st.enter src block) st' added)
    (hall : ∀ y, E block y → y ∈ st'.visited) :
    Grown E src st st' (block :: added) := by
  have hbv : block ∈ (st.enter src block).visited := List.mem_cons_self
  have hclosed := closed_enter hst hb fun p hp => (hsrc p hp).1
  have hnb : block ∉ added := fun hx => h.fresh block hx hbv
  have hold : ∀ x ∈ added, x ∉ st.visited := fun x hx hx' =>
    h.fresh x hx (List.mem_cons_of_mem _ hx')
  have hpb : st'.parentOf block = src := by
    rw [h.parent_old block hnb, parentOf_enter st src block block hst hb, if_pos rfl]
  have hidx : ∀ x ∈ added, (block :: added).idxOf x = added.idxOf x + 1 := fun x hx =>
    List.idxOf_cons_ne _ (by rintro rfl; exact hnb hx)
  have hidxb : (block :: added).idxOf block = 0 := List.idxOf_cons_self
  -- the fields of `Grown`, from those of the nodes that were added after `block`
  refine
    { order := by rw [h.order]; simp [DfsState.enter]
      visited := fun x => by
        rw [h.visited, List.mem_cons]
        simp only [DfsState.enter, List.mem_cons]
        tauto
      nodup := List.nodup_cons.mpr ⟨hnb, h.nodup⟩
      fresh := ?_
      closed := h.closed
      parent_old := ?_
      parent_new := ?_
      below := ?_
      anc_out := ?_
      succ_visited := ?_
      edge := ?_
      interval := ?_ }
  -- the new nodes were not visited before
  · intro x hx
    rcases List.mem_cons.mp hx with rfl | hx
    · exact hb
    · exact hold x hx
  · intro x hx
    rw [List.mem_cons, not_or] at hx
    rw [h.parent_old x hx.2, parentOf_enter st src block x hst hb, if_neg hx.1]
  -- the parent of a new node is numbered before it, or is `src`
  · intro x hx
    rcases List.mem_cons.mp hx with rfl | hx
    · exact Or.inl ⟨hpb, fun p hp => (hsrc p hp).2⟩
    · rcases h.parent_new x hx with ⟨hp, he⟩ | ⟨p, hp, hpx, hlt, he⟩
      · refine Or.inr ⟨block, List.mem_cons_self, hp, ?_, he block rfl⟩
        rw [hidxb, hidx x hx]
        omega
      · refine Or.inr ⟨p, List.mem_cons_of_mem _ hp, hpx, ?_, he⟩
        rw [hidx p hp, hidx x hx]
        omega
  -- new nodes hang below `block`
  · intro p hp c hc
    have hpblock : Anc st'.parentOf p block := .child (hpb.trans hp) .refl
    rcases List.mem_cons.mp hc with rfl | hc
    · exact hpblock
    · exact hpblock.trans (h.below block rfl c hc)
  -- an ancestor from outside is reached through `src`
  · intro c hc a hac
    have hblock : ∀ a, Anc st'.parentOf a block →
        a ∈ block :: added ∨ ∃ p, src = some p ∧ Anc st'.parentOf a p := by
      intro a ha
      by_cases hab : a = block
      · exact Or.inl (hab ▸ List.mem_cons_self)
      · obtain ⟨p, hp, hap⟩ := ha.exists_parent hab
        exact Or.inr ⟨p, hpb ▸ hp, hap⟩
    rcases List.mem_cons.mp hc with rfl | hc
    · exact hblock a hac
    · rcases h.anc_out c hc a hac with h' | ⟨p, hp, hap⟩
      · exact Or.inl (List.mem_cons_of_mem _ h')
      · cases hp
        exact hblock a hap
  -- the successors of the new nodes have all been visited
  · intro x hx y he
    rcases List.mem_cons.mp hx with rfl | hx
    · exact hall y he
    · exact h.succ_visited x hx y he
  · intro x hx y hy he hlt
    -- the new node comes first, so an edge forward starts in it or stays in the rest
    rcases List.mem_cons.mp hx with rfl | hx <;> rcases List.mem_cons.mp hy with rfl | hy
    · exact .refl
    · exact h.below x rfl y hy
    · rw [hidxb] at hlt
      omega
    · rw [hidx x hx, hidx y hy] at hlt
      exact h.edge x hx y hy he (by omega)
  -- the nodes between two of them in number lie below the first
  · intro a ha b hb' c hc hac hab hbc
    rcases List.mem_cons.mp ha with rfl | ha₁
    · rcases List.mem_cons.mp hb' with rfl | hb₁
      · exact .refl
      · exact h.below a rfl b hb₁
    · rcases List.mem_cons.mp hb' with rfl | hb₁
      · rw [hidxb, hidx a ha₁] at hab
        omega
      · rcases List.mem_cons.mp hc with rfl | hc₁
        · rw [hidxb, hidx b hb₁] at hbc
          omega
        · rw [hidx a ha₁, hidx b hb₁] at hab
          rw [hidx b hb₁, hidx c hc₁] at hbc
          exact h.interval a ha₁ b hb₁ c hc₁ hac (by omega) (by omega)

/-! ## The traversal grows its state -/

/-- How many nodes with an entry in the successor map are still unvisited. -/
def unvisited (cfg : ControlFlowGraph) (visited : HashSet CFGNode) : Nat :=
  (cfg.succs.keys.filter fun n => n ∉ visited).length

/-- The more has been visited, the less is left. -/
theorem unvisited_mono {cfg : ControlFlowGraph} {v w : HashSet CFGNode}
    (h : ∀ x ∈ v, x ∈ w) : cfg.unvisited w ≤ cfg.unvisited v := by
  refine List.Sublist.length_le (List.monotone_filter_right _ fun x hx => ?_)
  simp only [decide_eq_true_eq] at hx ⊢
  exact fun hv => hx (h x hv)

/-- Visiting a node that has successors leaves one key fewer to visit. -/
theorem unvisited_cons_lt {cfg : ControlFlowGraph} {v : HashSet CFGNode} {b y : CFGNode}
    (hb : b ∉ v) (hy : cfg.Edge b y) : cfg.unvisited (b :: v) < cfg.unvisited v := by
  have hkey : b ∈ cfg.succs.keys := by
    rw [← AList.mem_keys, ← AList.lookup_isSome]
    cases h : cfg.succs.lookup b with
    | none => simp [Edge, succsOf, h] at hy
    | some _ => rfl
  have hsub : (cfg.succs.keys.filter fun n => n ∉ b :: v) =
      (cfg.succs.keys.filter fun n => n ∉ v).filter fun n => n ≠ b := by
    rw [List.filter_filter]
    refine List.filter_congr fun x _ => ?_
    simp only [List.mem_cons, not_or, Bool.decide_and, decide_not]
  rw [unvisited, unvisited, hsub]
  refine List.length_filter_lt_length_iff_exists.mpr ⟨b, ?_, by simp⟩
  simp [hkey, hb]

/-- What a visit with this much fuel does, for every block and every state. -/
def VisitSpec (cfg : ControlFlowGraph) (fuel : Nat) : Prop :=
  ∀ (b : CFGNode) (src : Option CFGNode) (st : DfsState), st.Closed →
    (∀ p, src = some p → p ∈ st.visited ∧ cfg.Edge p b) → cfg.unvisited st.visited + 2 ≤ fuel →
      ∃ st' added, cfg.dfsVisit fuel b src st = some st' ∧ Grown cfg.Edge src st st' added ∧
        b ∈ st'.visited

/-- The loop over the successors visits them all, one after the other. -/
theorem dfsVisit_loop {cfg : ControlFlowGraph} {fuel : Nat} {block : CFGNode}
    (ih : cfg.VisitSpec fuel) :
    ∀ (l : List CFGNode) (st : DfsState), (∀ y ∈ l, cfg.Edge block y) → st.Closed →
      block ∈ st.visited → (l ≠ [] → cfg.unvisited st.visited + 2 ≤ fuel) → ∃ st' added,
        l.foldlM (fun st succ => cfg.dfsVisit fuel succ (some block) st) st = some st' ∧
          Grown cfg.Edge (some block) st st' added ∧ ∀ y ∈ l, y ∈ st'.visited := by
  intro l
  induction l with
  | nil => exact fun st _ hst _ _ => ⟨st, [], rfl, .nil hst, by simp⟩
  | cons y l ihl =>
    intro st hl hst hblock hfuel
    have hsrc : ∀ p, some block = some p → p ∈ st.visited ∧ cfg.Edge p y := by
      intro p hp
      cases hp
      exact ⟨hblock, hl y List.mem_cons_self⟩
    obtain ⟨st₁, l₁, hrun₁, hg₁, hy⟩ := ih y (some block) st hst hsrc (hfuel (by simp))
    have hmono : ∀ x ∈ st.visited, x ∈ st₁.visited := fun x hx => (hg₁.visited x).mpr (Or.inl hx)
    obtain ⟨st₂, l₂, hrun₂, hg₂, hl₂⟩ := ihl st₁ (fun z hz => hl z (List.mem_cons_of_mem _ hz))
      hg₁.closed (hmono _ hblock)
      (fun _ => (Nat.add_le_add_right (unvisited_mono hmono) 2).trans (hfuel (by simp)))
    refine ⟨st₂, l₁ ++ l₂, ?_, hg₁.append hg₂ hst (fun p hp => (hsrc p hp).1), ?_⟩
    · rw [List.foldlM_cons, hrun₁]
      exact hrun₂
    · intro z hz
      rcases List.mem_cons.mp hz with rfl | hz
      · exact (hg₂.visited z).mpr (Or.inl hy)
      · exact hl₂ z hz

/-- The visit of a block that has not been visited adds it first, then what its successors
lead to. -/
theorem dfsVisit_new {cfg : ControlFlowGraph} {fuel : Nat} (ih : cfg.VisitSpec fuel)
    {b : CFGNode} {src : Option CFGNode} {st : DfsState} (hst : st.Closed)
    (hsrc : ∀ p, src = some p → p ∈ st.visited ∧ cfg.Edge p b)
    (hfuel : cfg.unvisited st.visited + 2 ≤ fuel + 1) (hb : b ∉ st.visited) :
    ∃ st' added, cfg.dfsVisit (fuel + 1) b src st = some st' ∧
      Grown cfg.Edge src st st' (b :: added) ∧ ∀ x ∈ added, ∃ p, st'.parentOf x = some p := by
  have hrun : cfg.dfsVisit (fuel + 1) b src st = (cfg.succsOf b).foldlM
      (fun st succ => cfg.dfsVisit fuel succ (some b) st) (st.enter src b) := by
    simp only [dfsVisit, if_neg hb]
    rfl
  obtain ⟨st', added, hloop, hg, hall⟩ := dfsVisit_loop ih (cfg.succsOf b) (st.enter src b)
    (fun y hy => hy) (closed_enter hst hb fun p hp => (hsrc p hp).1) List.mem_cons_self (by
      intro hne
      obtain ⟨y, hy⟩ := List.exists_mem_of_ne_nil _ hne
      have : cfg.unvisited (b :: st.visited) < cfg.unvisited st.visited := unvisited_cons_lt hb hy
      simp only [DfsState.enter]
      omega)
  refine ⟨st', added, hrun.trans hloop, hg.visit hst hb hsrc hall, ?_⟩
  intro x hx
  rcases hg.parent_new x hx with ⟨hp, -⟩ | ⟨p, -, hp, -⟩
  · exact ⟨b, hp⟩
  · exact ⟨p, hp⟩

/-- With enough fuel a visit returns, and grows the state by what it visited. -/
theorem dfsVisit_spec (cfg : ControlFlowGraph) (fuel : Nat) : cfg.VisitSpec fuel := by
  induction fuel with
  | zero => intro b src st _ _ hfuel; omega
  | succ fuel ih =>
    intro b src st hst hsrc hfuel
    by_cases hb : b ∈ st.visited
    · exact ⟨st, [], by simp [dfsVisit, hb], .nil hst, hb⟩
    · obtain ⟨st', added, hrun, hg, -⟩ := dfsVisit_new ih hst hsrc hfuel hb
      exact ⟨st', b :: added, hrun, hg, (hg.visited b).mpr (Or.inr List.mem_cons_self)⟩

/-! ## The numbering -/

/-- The preorder, the numbers and the parent map of a traversal from the entry. -/
structure DFSResult.Spec (cfg : ControlFlowGraph) (dfs : DFSResult) : Prop where
  tree : DfsTree cfg.Edge cfg.entry dfs.order fun v => dfs.parent.lookup v
  dfn : ∀ v k, dfs.dfn.lookup v = some k ↔ v ∈ dfs.order ∧ k = dfs.order.idxOf v
  head : ∃ rest, dfs.order = cfg.entry :: rest

/-- Before the search nothing has a parent. -/
theorem Closed.empty : DfsState.Closed ⟨[], [], ∅⟩ := by
  intro x p hp
  simp [DfsState.parentOf] at hp

/-- What the traversal from the entry added is a depth-first tree. -/
theorem Grown.tree {cfg : ControlFlowGraph} {st : DfsState} {rest : List CFGNode}
    (h : Grown cfg.Edge none ⟨[], [], ∅⟩ st (cfg.entry :: rest))
    (hparent : ∀ x ∈ rest, ∃ p, st.parentOf x = some p) :
    DfsTree cfg.Edge cfg.entry (cfg.entry :: rest) fun v => st.parent.lookup v := by
  have hvisited : ∀ x, x ∈ st.visited ↔ x ∈ cfg.entry :: rest := fun x => by
    rw [h.visited]
    simp
  have hroot : ∀ v, (cfg.entry :: rest).idxOf cfg.entry ≤ (cfg.entry :: rest).idxOf v := by
    intro v
    rw [List.idxOf_cons_self]
    exact Nat.zero_le _
  have hentry : st.parentOf cfg.entry = none := by
    rcases h.parent_new cfg.entry List.mem_cons_self with ⟨hp, -⟩ | ⟨p, -, -, hlt, -⟩
    · exact hp
    · exact absurd (hroot p) (not_le.mpr hlt)
  -- a node with a parent has been visited, and so has its parent
  have hnew : ∀ v p, st.parentOf v = some p → v ∈ cfg.entry :: rest ∧ p ∈ cfg.entry :: rest ∧
      (cfg.entry :: rest).idxOf p < (cfg.entry :: rest).idxOf v ∧ cfg.Edge p v := by
    intro v p hp
    have hv : v ∈ cfg.entry :: rest := (hvisited v).mp (h.closed v p hp).1
    rcases h.parent_new v hv with ⟨hp', -⟩ | ⟨q, hq, hqv, hlt, he⟩
    · rw [hp] at hp'
      cases hp'
    · rw [hp] at hqv
      cases hqv
      exact ⟨hv, hq, hlt, he⟩
  have hsome : ∀ v ∈ cfg.entry :: rest, v ≠ cfg.entry → ∃ p, st.parentOf v = some p := by
    intro v hv hne
    rcases List.mem_cons.mp hv with hv | hv
    · exact absurd hv hne
    · exact hparent v hv
  -- the induction is on the number: the parent has a smaller one
  have hreach : ∀ k v, v ∈ cfg.entry :: rest → (cfg.entry :: rest).idxOf v = k →
      Reach cfg.Edge cfg.entry v := by
    intro k
    induction k using Nat.strongRecOn with
    | _ k ih =>
      intro v hv hk
      -- the entry itself, or a node whose parent is reached
      by_cases hne : v = cfg.entry
      · exact hne ▸ Reach.refl _
      · obtain ⟨p, hp⟩ := hsome v hv hne
        obtain ⟨-, hpm, hlt, he⟩ := hnew v p hp
        exact (ih _ (hk ▸ hlt) p hpm rfl).step he
  exact
    { nodup := h.nodup
      mem_iff := fun v => by
        refine ⟨fun hv => hreach _ v hv rfl, fun hv => ?_⟩
        refine hv.induct List.mem_cons_self fun u w _ hu he => ?_
        exact (hvisited w).mp (h.succ_visited u hu w he)
      root_none := hentry
      root_le := hroot
      parent_isSome := hsome
      parent_edge := fun v p hp => (hnew v p hp).2.2.2
      parent_mem := fun v p hp => ⟨(hnew v p hp).1, (hnew v p hp).2.1⟩
      parent_lt := fun v p hp => (hnew v p hp).2.2.1
      edge := fun u hu v he hlt =>
        h.edge u hu v ((hvisited v).mp (h.succ_visited u hu v he)) he hlt
      interval := by
        intro a b hb c hc hac hab hbc
        rcases h.anc_out c hc a hac with ha | ⟨p, hp, -⟩
        · exact h.interval a ha b hb c hc hac hab hbc
        · cases hp }

/-- `build_dfn` returns the tree of the nodes that are reached from the entry. -/
theorem buildDfn_spec (cfg : ControlFlowGraph) :
    ∃ dfs, cfg.buildDfn = some dfs ∧ DFSResult.Spec cfg dfs := by
  obtain ⟨st, rest, hrun, hg, hparent⟩ :=
    dfsVisit_new (cfg.dfsVisit_spec (cfg.succs.keys.length + 1)) Closed.empty
      (show ∀ p, (none : Option CFGNode) = some p → p ∈ [] ∧ cfg.Edge p cfg.entry by simp)
      (Nat.add_le_add_right (List.length_filter_le _ _) 2) (by simp)
  have horder : st.order = cfg.entry :: rest := by simpa using hg.order
  refine ⟨⟨st.order, HashMap.collect st.order.zipIdx, st.parent⟩, ?_, ?_, ?_, ⟨rest, horder⟩⟩
  · simp only [buildDfn, hrun, Option.bind_eq_bind, Option.bind_some]
  · exact horder ▸ hg.tree hparent
  · intro v k
    have hnodup : st.order.Nodup := horder ▸ hg.nodup
    have hfst : st.order.zipIdx.map Prod.fst = st.order := List.zipIdx_map_fst 0 st.order
    rw [HashMap.lookup_collect (by rwa [hfst]), List.mem_zipIdx_iff_getElem?]
    constructor
    · intro h
      obtain ⟨hlt, hget⟩ := List.getElem?_eq_some_iff.mp h
      change st.order[k] = v at hget
      refine ⟨?_, ?_⟩
      · exact List.mem_of_getElem hget
      · rw [← hnodup.idxOf_getElem k hlt, hget]
    · rintro ⟨hv, rfl⟩
      exact List.getElem?_idxOf hv

end ControlFlowGraph

end Ir
