import C0mpiler.Mir.Machine
import C0mpiler.Data.ParallelMove
import Mathlib

/-!
# Parallel copies

`resolve_parallel_copy` (`lower.rs`): moves that are meant to happen at once become a sequence of
moves. The moves are read as the edges of a graph, from source to destination, and a depth-first
visit emits each edge after the edges that leave its destination; an edge into a register that is
still being visited closes a cycle and goes over a new virtual register.

The two lists `first` and `last` of the source grow together, an entry of each for every such
edge: they are kept as one list of detours.
-/

namespace Mir

variable {R : Type} [DecidableEq R]

/-- A copy between registers. -/
abbrev CopyMove (R : Type) := Move (Register R)

/-- An order in which the keys of a hash map are iterated over. -/
structure KeyOrder (κ ν : Type) where
  keys : HashMap κ ν → List κ
  perm : ∀ m : HashMap κ ν, (keys m).Perm m.keys

/-- The register is one of those allocated while the counter went from `c` to `c'`. -/
def Allocated (c c' : Nat) (x : Register R) : Prop :=
  ∃ v : Nat, c ≤ v ∧ v < c' ∧ x = .virtual v

namespace ParallelCopy

/-- The destinations of every source. -/
abbrev Edges (R : Type) := HashMap (Register R) (List (Register R))

/-- One more destination of a source. -/
def pushEdge (edges : Edges R) (m : CopyMove R) : Edges R :=
  edges.insert m.src ((edges.lookup m.src).getD [] ++ [m.dst])

/-- `collect_edges`: moves of a register to itself are left out. -/
def collectEdges (moves : List (CopyMove R)) : Edges R :=
  moves.foldl (fun edges m => if m.dst ≠ m.src then pushEdge edges m else edges) ∅

/-- The state of the walk: `detours` are the cycles broken so far. -/
structure VisitState (R : Type) where
  visited : HashSet (Register R)
  visiting : HashSet (Register R)
  middle : List (CopyMove R)
  detours : List (Detour (Register R))
  vregCounter : Nat

namespace VisitState

/-- Start with a node. -/
def enter (st : VisitState R) (node : Register R) : VisitState R :=
  { st with
    visiting := st.visiting.insert node
    visited := st.visited.insert node }

/-- And finish with it. -/
def leave (st : VisitState R) (node : Register R) : VisitState R :=
  { st with visiting := st.visiting.filter (· ≠ node) }

/-- The copy along one edge, after its destination has been visited. -/
def copyEdge (st : VisitState R) (node neighbor : Register R) : VisitState R :=
  if neighbor ∈ st.visiting then
    { st with
      detours := st.detours ++ [⟨.virtual st.vregCounter, neighbor, node⟩]
      vregCounter := st.vregCounter + 1 }
  else
    { st with middle := st.middle ++ [⟨neighbor, node⟩] }

/-- The moves for which there is code. -/
def emitted (st : VisitState R) : List (CopyMove R) :=
  st.middle ++ st.detours.map Detour.move

end VisitState

/-- `visit_fn`; the fuel bounds the depth of the recursion. -/
def visitFn (edges : Edges R) : Nat → Register R → VisitState R → Option (VisitState R)
  | 0, _, _ => none
  | fuel + 1, node, st =>
    if node ∈ st.visited then some st
    else do
      let st ← ((edges.lookup node).getD []).foldlM (fun st neighbor => do
        let st ← visitFn edges fuel neighbor st
        some (st.copyEdge node neighbor)) (st.enter node)
      some (st.leave node)

/-- `resolve_parallel_copy`: the moves in the order of their execution, and the counter behind
the new virtual registers. -/
def resolveParallelCopy (order : KeyOrder (Register R) (List (Register R)))
    (moves : List (CopyMove R)) (vregCounter : Nat) : Option (List (CopyMove R) × Nat) := do
  let edges := collectEdges moves
  let st ← (order.keys edges).foldlM (fun st node => visitFn edges (moves.length + 2) node st)
    ⟨[], [], [], [], vregCounter⟩
  some (st.detours.map Detour.save ++ st.middle ++ st.detours.map Detour.restore, st.vregCounter)

/-! ## The edges -/

/-- The moves that do something. -/
def proper (moves : List (CopyMove R)) : List (CopyMove R) :=
  moves.filter fun m => m.dst ≠ m.src

/-- The moves that do something. -/
theorem mem_proper {moves : List (CopyMove R)} {m : CopyMove R} :
    m ∈ proper moves ↔ m ∈ moves ∧ m.dst ≠ m.src := by
  simp [proper]

/-- The edges are those of the proper moves. -/
theorem collectEdges_eq (moves : List (CopyMove R)) :
    collectEdges moves = (proper moves).foldl pushEdge ∅ := by
  simp only [collectEdges, proper, List.foldl_filter, decide_eq_true_eq]

/-- The destinations of a source, in the order of the moves. -/
theorem lookup_foldl_pushEdge (l : List (CopyMove R)) (edges : Edges R) (s : Register R) :
    ((l.foldl pushEdge edges).lookup s).getD [] =
      (edges.lookup s).getD [] ++ (l.filter fun m => m.src = s).map Move.dst := by
  induction l generalizing edges with
  | nil => simp
  | cons m l ih =>
    rw [List.foldl_cons, ih, pushEdge, HashMap.lookup_insert_ite]
    by_cases hs : s = m.src
    · subst hs
      simp
    · have hs' : m.src ≠ s := fun h => hs h.symm
      simp [hs, hs']

/-- The neighbours of a register are the destinations of the moves that read it. -/
theorem lookup_collectEdges (moves : List (CopyMove R)) (s : Register R) :
    ((collectEdges moves).lookup s).getD [] =
      ((proper moves).filter fun m => m.src = s).map Move.dst := by
  rw [collectEdges_eq, lookup_foldl_pushEdge, AList.lookup_empty]
  rfl

/-- Each edge is a move. -/
theorem map_neighbors (moves : List (CopyMove R)) (s : Register R) :
    (((collectEdges moves).lookup s).getD []).map (fun d => (⟨d, s⟩ : CopyMove R)) =
      (proper moves).filter fun m => m.src = s := by
  rw [lookup_collectEdges, List.map_map]
  refine (List.map_congr_left ?_).trans (List.map_id _)
  intro m hm
  obtain ⟨-, hsrc⟩ := List.mem_filter.mp hm
  cases of_decide_eq_true hsrc
  rfl

/-- A source of a move is a key. -/
theorem src_mem_keys {moves : List (CopyMove R)} {m : CopyMove R} (hm : m ∈ proper moves) :
    m.src ∈ (collectEdges moves).keys := by
  have hne : ((collectEdges moves).lookup m.src).getD [] ≠ [] := by
    rw [lookup_collectEdges]
    intro h
    have hmem : m ∈ (proper moves).filter fun m' => m'.src = m.src :=
      List.mem_filter.mpr ⟨hm, by simp⟩
    rw [List.map_eq_nil_iff.mp h] at hmem
    cases hmem
  refine AList.mem_keys.mpr (AList.lookup_isSome.mp ?_)
  cases h : (collectEdges moves).lookup m.src with
  | none => exact absurd (by rw [h]; rfl) hne
  | some l => rfl

/-! ## What a visit does -/

/-- A filter by one of two exclusive conditions, up to the order. -/
theorem filter_or_perm {α : Type} {p q r : α → Prop} [DecidablePred p] [DecidablePred q]
    [DecidablePred r] (hr : ∀ a, r a ↔ p a ∨ q a) (hpq : ∀ a, p a → ¬ q a) (l : List α) :
    (l.filter p ++ l.filter q).Perm (l.filter r) := by
  induction l with
  | nil => exact List.Perm.refl _
  | cons a l ih =>
    by_cases hp : p a
    · have hq : ¬ q a := hpq a hp
      have ha : r a := (hr a).mpr (Or.inl hp)
      simpa [List.filter_cons, hp, hq, ha] using ih
    · by_cases hq : q a
      · have ha : r a := (hr a).mpr (Or.inr hq)
        simpa [List.filter_cons, hp, hq, ha] using List.perm_middle.trans (ih.cons a)
      · have ha : ¬ r a := fun h => ((hr a).mp h).elim hp hq
        simpa [List.filter_cons, hp, hq, ha] using ih

/-- The moves of `l` whose source is in `vs'` but not in `vs`. -/
def newMoves (l : List (CopyMove R)) (vs vs' : HashSet (Register R)) : List (CopyMove R) :=
  l.filter fun m => m.src ∈ vs' ∧ m.src ∉ vs

section

variable {l : List (CopyMove R)}

/-- A visit of nothing. -/
theorem newMoves_self (l : List (CopyMove R)) (vs : HashSet (Register R)) :
    newMoves l vs vs = [] := by
  refine List.filter_eq_nil_iff.mpr ?_
  simp

/-- One visit after another. -/
theorem newMoves_trans {vs vs' vs'' : HashSet (Register R)} (h : vs ⊆ vs') (h' : vs' ⊆ vs'') :
    (newMoves l vs vs' ++ newMoves l vs' vs'').Perm (newMoves l vs vs'') := by
  refine filter_or_perm (fun m => ?_) (fun m hm hm' => hm'.2 hm.1) l
  by_cases hmem : m.src ∈ vs'
  · simp [hmem, h' hmem]
  · have : m.src ∉ vs := fun hv => hmem (h hv)
    simp [hmem, this]

/-- The moves out of a register that has just been entered come on top of the later ones. -/
theorem newMoves_insert {node : Register R} {vs vs' : HashSet (Register R)} (hnode : node ∉ vs)
    (h : vs.insert node ⊆ vs') :
    ((l.filter fun m => m.src = node) ++ newMoves l (vs.insert node) vs').Perm
      (newMoves l vs vs') := by
  refine filter_or_perm (fun m => ?_) (fun m hm hm' => hm'.2 (by simp [hm])) l
  have hmem : node ∈ vs' := h (List.mem_insert_self)
  by_cases hm : m.src = node
  · simp [hm, hmem, hnode]
  · simp [hm]

/-- Between two states of the visit: `own` are the moves that are emitted beside those out of the
registers visited in between. -/
structure Visit (l : List (CopyMove R)) (st st' : VisitState R) (own : List (CopyMove R)) :
    Prop where
  visited : st.visited ⊆ st'.visited
  visiting : ∀ x, x ∈ st'.visiting ↔ x ∈ st.visiting
  emitted : st'.emitted.Perm (st.emitted ++ own ++ newMoves l st.visited st'.visited)

theorem Visit.refl (st : VisitState R) : Visit l st st [] where
  visited := fun _ h => h
  visiting := fun _ => Iff.rfl
  emitted := by rw [newMoves_self, List.append_nil, List.append_nil]

theorem Visit.trans {st st' st'' : VisitState R} {own own' : List (CopyMove R)}
    (h : Visit l st st' own) (h' : Visit l st' st'' own') : Visit l st st'' (own ++ own') where
  visited := fun _ hx => h'.visited (h.visited hx)
  visiting := fun x => (h'.visiting x).trans (h.visiting x)
  emitted := by
    refine (h'.emitted.trans ((h.emitted.append_right _).append_right _)).trans ?_
    refine List.Perm.trans ?_ ((newMoves_trans h.visited h'.visited).append_left _)
    refine List.perm_iff_count.mpr fun m => ?_
    simp only [List.count_append]
    omega

/-- What holds throughout the visit, started with the counter at `base`. -/
structure Inv (base : Nat) (st : VisitState R) : Prop where
  visiting_sub : ∀ x ∈ st.visiting, x ∈ st.visited
  middle_dst : ∀ m ∈ st.middle, m.dst ∈ st.visited ∧ m.dst ∉ st.visiting
  ordered : st.middle.Pairwise fun m m' => m'.src ≠ m.dst
  temps : st.detours.map Detour.temp = (List.range' base st.detours.length).map .virtual
  counter : st.vregCounter = base + st.detours.length

variable {base : Nat} {st st' : VisitState R} {node neighbor : Register R}

/-- A node that is entered is new. -/
theorem Inv.enter (h : Inv base st) (hnode : node ∉ st.visited) : Inv base (st.enter node) where
  visiting_sub := by
    intro x hx
    rcases List.mem_insert_iff.mp hx with rfl | hx
    · exact List.mem_insert_self
    · exact List.mem_insert_of_mem (h.visiting_sub x hx)
  middle_dst := by
    intro m hm
    obtain ⟨hvisited, hvisiting⟩ := h.middle_dst m hm
    refine ⟨List.mem_insert_of_mem hvisited, fun hx => ?_⟩
    rcases List.mem_insert_iff.mp hx with heq | hx
    · exact hnode (heq ▸ hvisited)
    · exact hvisiting hx
  ordered := h.ordered
  temps := h.temps
  counter := h.counter

/-- A node that is left stays visited. -/
theorem Inv.leave (h : Inv base st) : Inv base (st.leave node) where
  visiting_sub := fun x hx => h.visiting_sub x (List.mem_of_mem_filter hx)
  middle_dst := fun m hm =>
    ⟨(h.middle_dst m hm).1, fun hx => (h.middle_dst m hm).2 (List.mem_of_mem_filter hx)⟩
  ordered := h.ordered
  temps := h.temps
  counter := h.counter

/-- The copy out of a register that is being visited reads what no earlier move has written. -/
theorem Inv.copyEdge (h : Inv base st) (hnode : node ∈ st.visiting)
    (hneighbor : neighbor ∈ st.visited) : Inv base (st.copyEdge node neighbor) := by
  unfold VisitState.copyEdge
  split
  · refine ⟨h.visiting_sub, h.middle_dst, h.ordered, ?_, ?_⟩
    · dsimp only
      rw [List.map_append, h.temps, List.length_append, List.length_singleton,
        List.range'_concat, List.map_append, h.counter]
      simp
    · simp only [List.length_append, List.length_singleton, h.counter]
      omega
  · next hvisiting =>
    refine ⟨h.visiting_sub, ?_, ?_, h.temps, h.counter⟩
    · intro m hm
      rcases List.mem_append.mp hm with hm | hm
      · exact h.middle_dst m hm
      · cases List.mem_singleton.mp hm
        exact ⟨hneighbor, hvisiting⟩
    · refine List.pairwise_append.mpr ⟨h.ordered, List.pairwise_singleton _ _, ?_⟩
      intro m hm m' hm'
      cases List.mem_singleton.mp hm'
      intro heq
      exact (h.middle_dst m hm).2 (heq ▸ hnode)

/-- An edge is copied, or a detour made for it where its end is being visited. -/
theorem visit_copyEdge (l : List (CopyMove R)) (st : VisitState R) (node neighbor : Register R) :
    Visit l st (st.copyEdge node neighbor) [⟨neighbor, node⟩] := by
  have hfields : (st.copyEdge node neighbor).visited = st.visited ∧
      (st.copyEdge node neighbor).visiting = st.visiting := by
    unfold VisitState.copyEdge
    split <;> exact ⟨rfl, rfl⟩
  refine ⟨?_, ?_, ?_⟩
  · rw [hfields.1]
    exact fun _ h => h
  · intro x
    rw [hfields.2]
  · rw [hfields.1, newMoves_self, List.append_nil]
    unfold VisitState.copyEdge VisitState.emitted
    split
    · simp [Detour.move]
    · refine List.perm_iff_count.mpr fun m => ?_
      simp only [List.count_append]
      omega

/-! ## The visit -/

/-- The spec of a visit at some fuel: it keeps the invariant and emits the moves out of the
registers it is the first to visit. -/
def VisitSpec (l : List (CopyMove R)) (base : Nat)
    (visit : Register R → VisitState R → Option (VisitState R)) : Prop :=
  ∀ node st st', visit node st = some st' → Inv base st →
    Inv base st' ∧ Visit l st st' [] ∧ node ∈ st'.visited

/-- The loop over the neighbours of a register that is being visited. -/
theorem visit_neighbors {visit : Register R → VisitState R → Option (VisitState R)}
    (hspec : VisitSpec l base visit) {neighbors : List (Register R)} (hinv : Inv base st)
    (hnode : node ∈ st.visiting)
    (hrun : neighbors.foldlM (fun st neighbor => do
      let st ← visit neighbor st
      some (st.copyEdge node neighbor)) st = some st') :
    Inv base st' ∧ Visit l st st' (neighbors.map fun d => ⟨d, node⟩) := by
  induction neighbors generalizing st with
  | nil =>
    cases hrun
    exact ⟨hinv, Visit.refl _⟩
  | cons neighbor neighbors ih =>
    rw [List.foldlM_cons] at hrun
    obtain ⟨st₂, hstep, hrest⟩ := Option.bind_eq_some_iff.mp hrun
    obtain ⟨st₁, hvisit, hcopy⟩ := Option.bind_eq_some_iff.mp hstep
    cases hcopy
    obtain ⟨hinv₁, hv₁, hmem⟩ := hspec neighbor st st₁ hvisit hinv
    have hnode₁ : node ∈ st₁.visiting := (hv₁.visiting node).mpr hnode
    have hedge := visit_copyEdge l st₁ node neighbor
    have hnode₂ : node ∈ (st₁.copyEdge node neighbor).visiting := (hedge.visiting node).mpr hnode₁
    obtain ⟨hinv', hv'⟩ := ih (hinv₁.copyEdge hnode₁ hmem) hnode₂ hrest
    exact ⟨hinv', (hv₁.trans hedge).trans hv'⟩

theorem visitFn_spec {edges : Edges R}
    (hedges : ∀ s, ((edges.lookup s).getD []).map (fun d => (⟨d, s⟩ : CopyMove R)) =
      l.filter fun m => m.src = s) (fuel : Nat) : VisitSpec l base (visitFn edges fuel) := by
  induction fuel with
  | zero =>
    intro node st st' hrun
    cases hrun
  | succ fuel ih =>
    intro node st st' hrun hinv
    unfold visitFn at hrun
    split at hrun
    -- the node has been visited: nothing to do
    · next hvisited =>
      cases hrun
      exact ⟨hinv, Visit.refl st, hvisited⟩
    -- its edges first, then the node is left
    · next hvisited =>
      obtain ⟨st₁, hloop, hst'⟩ := Option.bind_eq_some_iff.mp hrun
      cases hst'
      have hentered : node ∈ (st.enter node).visiting := List.mem_insert_self
      obtain ⟨hinv₁, hv₁⟩ := visit_neighbors ih (hinv.enter hvisited) hentered hloop
      have hnotvisiting : node ∉ st.visiting := fun h => hvisited (hinv.visiting_sub node h)
      have hnodemem : node ∈ st₁.visited := hv₁.visited (List.mem_insert_self)
      refine ⟨hinv₁.leave, ⟨?_, ?_, ?_⟩, hnodemem⟩
      · exact fun x hx => hv₁.visited (List.mem_insert_of_mem hx)
      · intro x
        have hx := hv₁.visiting x
        simp only [VisitState.enter, List.mem_insert_iff] at hx
        simp only [VisitState.leave, List.mem_filter, decide_eq_true_eq, ne_eq, hx]
        constructor
        · rintro ⟨rfl | h, hne⟩
          · exact absurd rfl hne
          · exact h
        · intro h
          exact ⟨Or.inr h, fun heq => hnotvisiting (heq ▸ h)⟩
      · refine (hv₁.emitted.trans ?_ : st₁.emitted.Perm _)
        rw [List.append_nil, List.append_assoc, hedges]
        exact (newMoves_insert hvisited hv₁.visited).append_left _

/-- The destinations that have not been visited: they bound the depth of the recursion. -/
def unvisited (l : List (CopyMove R)) (st : VisitState R) : Nat :=
  ((l.map Move.dst).filter (· ∉ st.visited)).length

/-- More visited, fewer left. -/
theorem unvisited_mono (h : st.visited ⊆ st'.visited) : unvisited l st' ≤ unvisited l st := by
  refine (List.monotone_filter_right _ ?_).length_le
  intro x hx
  simp only [decide_eq_true_eq] at hx ⊢
  exact fun hmem => hx (h hmem)

/-- Entering a node leaves one fewer, so the walk ends. -/
theorem unvisited_enter_lt (hdst : node ∈ l.map Move.dst) (hnode : node ∉ st.visited) :
    unvisited l (st.enter node) < unvisited l st := by
  have hsub : ((l.map Move.dst).filter (· ∉ (st.enter node).visited)).Sublist
      ((l.map Move.dst).filter (· ∉ st.visited)) := by
    refine List.monotone_filter_right _ ?_
    intro x hx
    simp only [decide_eq_true_eq] at hx ⊢
    exact fun hmem => hx (List.mem_insert_of_mem hmem)
  refine lt_of_le_of_ne hsub.length_le fun heq => ?_
  have hin : node ∈ (l.map Move.dst).filter (· ∉ st.visited) :=
    List.mem_filter.mpr ⟨hdst, by simpa using hnode⟩
  rw [← hsub.eq_of_length heq] at hin
  simpa [VisitState.enter] using (List.mem_filter.mp hin).2

/-- The loop over the neighbours returns where the visits it makes do. -/
theorem visit_neighbors_returns {visit : Register R → VisitState R → Option (VisitState R)}
    {fuel : Nat} (hspec : VisitSpec l base visit)
    (hvisit : ∀ st x, Inv base st → x ∈ l.map Move.dst → unvisited l st < fuel →
      ∃ st', visit x st = some st')
    {neighbors : List (Register R)} (hsub : neighbors ⊆ l.map Move.dst) (hinv : Inv base st)
    (hnode : node ∈ st.visiting) (hfuel : unvisited l st < fuel) :
    ∃ st', neighbors.foldlM (fun st neighbor => do
      let st ← visit neighbor st
      some (st.copyEdge node neighbor)) st = some st' := by
  induction neighbors generalizing st with
  | nil => exact ⟨st, rfl⟩
  | cons neighbor neighbors ih =>
    obtain ⟨st₁, hst₁⟩ := hvisit st neighbor hinv (hsub List.mem_cons_self) hfuel
    obtain ⟨hinv₁, hv₁, hmem⟩ := hspec neighbor st st₁ hst₁ hinv
    have hedge := visit_copyEdge l st₁ node neighbor
    have hnode₁ : node ∈ st₁.visiting := (hv₁.visiting node).mpr hnode
    have hle := (unvisited_mono (l := l) hedge.visited).trans (unvisited_mono hv₁.visited)
    obtain ⟨st', hst'⟩ := ih (fun x hx => hsub (List.mem_cons_of_mem _ hx))
      (hinv₁.copyEdge hnode₁ hmem) ((hedge.visiting node).mpr hnode₁) (hle.trans_lt hfuel)
    refine ⟨st', ?_⟩
    rw [List.foldlM_cons]
    exact Option.bind_eq_some_iff.mpr ⟨_, Option.bind_eq_some_iff.mpr ⟨st₁, hst₁, rfl⟩, hst'⟩

/-- A visit returns when those of the neighbours do. -/
theorem visitFn_succ_returns {edges : Edges R}
    (hedges : ∀ s, ((edges.lookup s).getD []).map (fun d => (⟨d, s⟩ : CopyMove R)) =
      l.filter fun m => m.src = s) {fuel : Nat}
    (hvisit : ∀ st x, Inv base st → x ∈ l.map Move.dst → unvisited l st < fuel →
      ∃ st', visitFn edges fuel x st = some st')
    (hinv : Inv base st) (hfuel : node ∉ st.visited → unvisited l (st.enter node) < fuel) :
    ∃ st', visitFn edges (fuel + 1) node st = some st' := by
  unfold visitFn
  split
  · exact ⟨st, rfl⟩
  · next hvisited =>
    have hsub : (edges.lookup node).getD [] ⊆ l.map Move.dst := by
      intro x hx
      have hmove := List.mem_map_of_mem (f := fun d => (⟨d, node⟩ : CopyMove R)) hx
      rw [hedges] at hmove
      exact List.mem_map.mpr ⟨_, List.mem_of_mem_filter hmove, rfl⟩
    obtain ⟨st', hst'⟩ := visit_neighbors_returns (visitFn_spec hedges fuel) hvisit hsub
      (hinv.enter hvisited) (List.mem_insert_self : node ∈ (st.enter node).visiting)
      (hfuel hvisited)
    exact ⟨st'.leave node, Option.bind_eq_some_iff.mpr ⟨st', hst', rfl⟩⟩

/-- With more fuel than destinations are left to visit, the visit of a destination returns. -/
theorem visitFn_returns {edges : Edges R}
    (hedges : ∀ s, ((edges.lookup s).getD []).map (fun d => (⟨d, s⟩ : CopyMove R)) =
      l.filter fun m => m.src = s) (fuel : Nat) :
    ∀ st x, Inv base st → x ∈ l.map Move.dst → unvisited l st < fuel →
      ∃ st', visitFn edges fuel x st = some st' := by
  induction fuel with
  | zero => exact fun st x _ _ h => absurd h (Nat.not_lt_zero _)
  | succ fuel ih =>
    intro st x hinv hx hfuel
    refine visitFn_succ_returns hedges ih hinv fun hvisited => ?_
    have hlt := unvisited_enter_lt hx hvisited
    omega

/-! ## The whole resolution -/

/-- The loop over the sources. -/
theorem visit_all {edges : Edges R}
    (hedges : ∀ s, ((edges.lookup s).getD []).map (fun d => (⟨d, s⟩ : CopyMove R)) =
      l.filter fun m => m.src = s) {fuel : Nat} (hfuel : l.length < fuel) (hinv : Inv base st)
    (nodes : List (Register R)) :
    ∃ st', nodes.foldlM (fun st node => visitFn edges (fuel + 1) node st) st = some st' ∧
      Inv base st' ∧ Visit l st st' [] ∧ ∀ x ∈ nodes, x ∈ st'.visited := by
  induction nodes generalizing st with
  | nil => exact ⟨st, rfl, hinv, Visit.refl st, by simp⟩
  | cons node nodes ih =>
    have hle : unvisited l (st.enter node) < fuel := by
      refine lt_of_le_of_lt ((List.length_filter_le _ _).trans ?_) hfuel
      rw [List.length_map]
    obtain ⟨st₁, hst₁⟩ := visitFn_succ_returns hedges (visitFn_returns hedges fuel) hinv
      fun _ => hle
    obtain ⟨hinv₁, hv₁, hmem⟩ := visitFn_spec hedges (fuel + 1) node st st₁ hst₁ hinv
    obtain ⟨st', hrun, hinv', hv', hall⟩ := ih hinv₁
    refine ⟨st', ?_, hinv', hv₁.trans hv', ?_⟩
    · rw [List.foldlM_cons]
      exact Option.bind_eq_some_iff.mpr ⟨st₁, hst₁, hrun⟩
    · intro x hx
      rcases List.mem_cons.mp hx with rfl | hx
      · exact hv'.visited hmem
      · exact hall x hx

end

/-- The virtual registers of the moves are older than the counter. -/
def Below (c : Nat) (moves : List (CopyMove R)) : Prop :=
  ∀ m ∈ moves, ∀ v : Nat, c ≤ v → m.dst ≠ .virtual v ∧ m.src ≠ .virtual v

omit [DecidableEq R] in
/-- The temporaries of the detours are new registers. -/
theorem Inv.mem_temp {base : Nat} {st : VisitState R} (h : Inv base st) {x : Register R}
    (hx : x ∈ st.detours.map Detour.temp) : Allocated base st.vregCounter x := by
  rw [h.temps] at hx
  obtain ⟨v, hv, rfl⟩ := List.mem_map.mp hx
  have hrange := List.mem_range'_1.mp hv
  exact ⟨v, hrange.1, by rw [h.counter]; exact hrange.2, rfl⟩

omit [DecidableEq R] in
/-- No move touches them. -/
theorem Inv.fresh {base : Nat} {st : VisitState R} (h : Inv base st) {l : List (CopyMove R)}
    (hl : Below base l) : Detour.Fresh st.detours l where
  nodup := by
    rw [h.temps]
    exact List.Nodup.map (fun v w hvw => by cases hvw; rfl) (List.nodup_range' ..)
  ne_src := by
    intro d hd m hm heq
    obtain ⟨v, hv, -, htemp⟩ := h.mem_temp (List.mem_map_of_mem hd)
    exact (hl m hm v hv).2 (heq.trans htemp)
  ne_dst := by
    intro d hd m hm heq
    obtain ⟨v, hv, -, htemp⟩ := h.mem_temp (List.mem_map_of_mem hd)
    exact (hl m hm v hv).1 (heq.trans htemp)

/-- What the resolution guarantees of its result: it writes the destinations and the registers it
allocates, leaves in every destination what its source held, and changes nothing else. -/
structure Resolves (moves out : List (CopyMove R)) (c c' : Nat) : Prop where
  counter_le : c ≤ c'
  dst : ∀ m ∈ out, m.dst ∈ moves.map Move.dst ∨ Allocated c c' m.dst
  run_dst : ∀ {β : Type} (ρ : Register R → β), ∀ m ∈ moves, Move.run out ρ m.dst = ρ m.src
  run_other : ∀ {β : Type} (ρ : Register R → β) (x : Register R), x ∉ moves.map Move.dst →
    ¬ Allocated c c' x → Move.run out ρ x = ρ x

/-- The visit of all sources emits every move that does something, once. -/
theorem resolveParallelCopy_visits (order : KeyOrder (Register R) (List (Register R)))
    (moves : List (CopyMove R)) (c : Nat) :
    ∃ st : VisitState R, resolveParallelCopy order moves c =
        some (st.detours.map Detour.save ++ st.middle ++ st.detours.map Detour.restore,
          st.vregCounter) ∧
      Inv c st ∧ (st.middle ++ st.detours.map Detour.move).Perm (proper moves) := by
  have hinit : Inv c (⟨[], [], [], [], c⟩ : VisitState R) :=
    ⟨by simp, by simp, List.Pairwise.nil, rfl, rfl⟩
  have hlen : (proper moves).length < moves.length + 1 :=
    Nat.lt_succ_of_le (List.length_filter_le _ _)
  obtain ⟨st, hrun, hinv, hvisit, hall⟩ :=
    visit_all (map_neighbors moves) hlen hinit (order.keys (collectEdges moves))
  refine ⟨st, by rw [resolveParallelCopy, hrun]; rfl, hinv, hvisit.emitted.trans ?_⟩
  have hfull : newMoves (proper moves) [] st.visited = proper moves := by
    refine List.filter_eq_self.mpr fun m hm => ?_
    have hkey := (order.perm _).mem_iff.mpr (src_mem_keys hm)
    simpa using hall m.src hkey
  simp only [VisitState.emitted, List.map_nil, List.append_nil, List.nil_append]
  rw [hfull]

/-- A register that is not allocated by the resolution is not read behind a move into it. -/
theorem resolveParallelCopy_reads {order : KeyOrder (Register R) (List (Register R))}
    {moves out : List (CopyMove R)} {c c' : Nat}
    (h : resolveParallelCopy order moves c = some (out, c')) {z : Register R}
    (hz : ¬ Allocated c c' z) : out.Pairwise fun m m' => m.dst = z → m'.src ≠ z := by
  obtain ⟨st, hst, hinv, -⟩ := resolveParallelCopy_visits order moves c
  rw [h] at hst
  cases hst
  exact Detour.pairwise_detours hinv.ordered fun hmem => hz (hinv.mem_temp hmem)

/-- Moves with distinct destinations are resolved, whatever the order of the sources. -/
theorem resolveParallelCopy_resolves (order : KeyOrder (Register R) (List (Register R)))
    {moves : List (CopyMove R)} {c : Nat} (hnodup : (moves.map Move.dst).Nodup)
    (hbelow : Below c moves) :
    ∃ out c', resolveParallelCopy order moves c = some (out, c') ∧ Resolves moves out c c' := by
  obtain ⟨st, hrun, hinv, hperm⟩ := resolveParallelCopy_visits order moves c
  have hproper : (proper moves).Sublist moves := List.filter_sublist
  have hnodup' : ((proper moves).map Move.dst).Nodup := (hproper.map Move.dst).nodup hnodup
  have hfresh : Detour.Fresh st.detours (proper moves) :=
    hinv.fresh fun m hm => hbelow m (hproper.subset hm)
  have hdst : ∀ x, x ∈ (proper moves).map Move.dst → x ∈ moves.map Move.dst :=
    fun x hx => (hproper.map Move.dst).subset hx
  have hcounter := hinv.counter
  refine ⟨_, _, hrun, ⟨by omega, ?_, ?_, ?_⟩⟩
  -- a copy writes the temporary of a detour or the destination of a move
  · intro m hm
    rcases List.mem_append.mp hm with hm | hm
    · rcases List.mem_append.mp hm with hm | hm
      · obtain ⟨d, hd, rfl⟩ := List.mem_map.mp hm
        exact Or.inr (hinv.mem_temp (List.mem_map_of_mem hd))
      · exact Or.inl (hdst _ (List.mem_map_of_mem (hperm.subset (List.mem_append_left _ hm))))
    · obtain ⟨d, hd, rfl⟩ := List.mem_map.mp hm
      have hmove := hperm.subset (List.mem_append_right _ (List.mem_map_of_mem hd))
      exact Or.inl (hdst d.move.dst (List.mem_map_of_mem hmove))
  · intro β ρ m hm
    by_cases hne : m.dst = m.src
    · -- a move to itself is left out
      have hnot : m.dst ∉ (proper moves).map Move.dst := by
        intro h
        obtain ⟨m', hm', heq⟩ := List.mem_map.mp h
        obtain ⟨hmem, hproper'⟩ := mem_proper.mp hm'
        have hsame := List.inj_on_of_nodup_map hnodup hmem hm heq
        exact hproper' (hsame ▸ hne)
      have htemp : m.dst ∉ st.detours.map Detour.temp := by
        intro h
        obtain ⟨v, hv, -, heq⟩ := hinv.mem_temp h
        exact (hbelow m hm v hv).1 heq
      rw [Detour.run_detours_of_notMem hperm hnot htemp, hne]
    -- a proper move: the detours keep its value until it is written
    · exact Detour.run_detours hperm hnodup' hinv.ordered hfresh (mem_proper.mpr ⟨hm, hne⟩) ρ
  · intro β ρ x hx halloc
    refine Detour.run_detours_of_notMem hperm (fun h => hx (hdst x h)) ?_ ρ
    exact fun h => halloc (hinv.mem_temp h)

end ParallelCopy

end Mir
