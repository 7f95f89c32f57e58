import C0mpiler.Mir.Regalloc
import Mathlib

/-!
# The interference graph and its colouring

What `build`, `simplify` and the loop over the stack of `compute_spill` give: the edges and
forbidden registers are the conflicts of the definitions, the stack holds every node once, and a
node finds no register only if its neighbours and the physical registers leave none.
-/

/-- A property that a loop collects element by element. -/
theorem List.foldl_iff {α β : Type} {P : β → Prop} {Q : α → Prop} {f : β → α → β}
    (h : ∀ b a, P (f b a) ↔ P b ∨ Q a) (l : List α) (b : β) :
    P (l.foldl f b) ↔ P b ∨ ∃ a ∈ l, Q a := by
  induction l generalizing b with
  | nil => simp
  | cons a l ih => simp [ih, h, or_assoc]

namespace List

variable {α : Type} {cmp : α → α → Ordering}

/-- The least element is one of the list. -/
theorem minBy?_mem {l : List α} {x : α} (h : l.minBy? cmp = some x) : x ∈ l := by
  cases l with
  | nil => cases h
  | cons a l =>
    cases h
    suffices hs : ∀ (l : List α) (m : α),
        l.foldl (fun m y => if cmp m y = .gt then y else m) m ∈ m :: l from hs l a
    intro l
    induction l with
    | nil => exact fun m => List.mem_cons_self
    | cons y l ih =>
      intro m
      rcases List.mem_cons.mp (ih (if cmp m y = .gt then y else m)) with h | h
      · rw [List.foldl_cons, h]
        split
        · exact List.mem_cons_of_mem _ List.mem_cons_self
        · exact List.mem_cons_self
      · exact List.mem_cons_of_mem _ (List.mem_cons_of_mem _ h)

@[simp] theorem minBy?_eq_none {l : List α} : l.minBy? cmp = none ↔ l = [] := by
  cases l <;> simp [minBy?]

end List

namespace Mir

section Sets

variable {R : Type}

@[simp] theorem mem_virtuals {regs : Finset (Register R)} {v : VRegId} :
    v ∈ virtuals regs ↔ .virtual v ∈ regs := by
  rw [virtuals, Finset.mem_biUnion]
  constructor
  · rintro ⟨r, hr, h⟩
    cases r with
    | physical r => exact absurd h (Finset.notMem_empty v)
    | «virtual» w => rwa [Finset.mem_singleton.mp h]
  · exact fun h => ⟨_, h, Finset.mem_singleton_self v⟩

@[simp] theorem mem_physicals [DecidableEq R] {regs : Finset (Register R)} {r : R} :
    r ∈ physicals regs ↔ .physical r ∈ regs := by
  rw [physicals, Finset.mem_biUnion]
  constructor
  · rintro ⟨x, hx, h⟩
    cases x with
    | «virtual» w => exact absurd h (Finset.notMem_empty r)
    | physical q => rwa [Finset.mem_singleton.mp h]
  · exact fun h => ⟨_, h, Finset.mem_singleton_self r⟩

end Sets

variable {R I : Type} [DecidableEq R] [LoweringTarget R I]

namespace InterferenceGraph

/-! ## Edges and forbidden registers -/

/-- The definition `d` of an instruction stands against `x`. -/
def Conflicts (p : I × Finset (Register R)) (d x : Register R) : Prop :=
  d ∈ defRegs p.1 ∧ x ∈ conflictsOf p.1 p.2 d

variable {g : InterferenceGraph R} {d : Register R} {xs : Finset (Register R)} {v w : VRegId}
  {r : R}

/-- The edges after one set of conflicts. -/
theorem mem_edges_addConflicts :
    w ∈ (g.addConflicts d xs).edges v ↔ w ∈ g.edges v ∨
      (v ≠ w ∧ ((d = .virtual v ∧ .virtual w ∈ xs) ∨ (d = .virtual w ∧ .virtual v ∈ xs))) := by
  cases d with
  | physical q => simp [addConflicts]
  | «virtual» u =>
    simp only [addConflicts, Register.virtual.injEq]
    split
    · next h =>
      subst h
      simp only [Finset.mem_union, Finset.mem_erase, mem_virtuals]
      grind
    · next h =>
      split
      · next hv =>
        rw [Finset.mem_insert]
        simp only [Finset.mem_erase, mem_virtuals] at hv
        grind
      · next hv =>
        simp only [Finset.mem_erase, mem_virtuals] at hv
        grind

/-- The physical registers that a node may not have any more. -/
theorem mem_forbiddenPhys_addConflicts :
    r ∈ (g.addConflicts d xs).forbiddenPhys v ↔ r ∈ g.forbiddenPhys v ∨
      ((d = .virtual v ∧ .physical r ∈ xs) ∨ (d = .physical r ∧ .virtual v ∈ xs)) := by
  cases d with
  | «virtual» u =>
    simp only [addConflicts, Register.virtual.injEq, reduceCtorEq, false_and, or_false]
    split
    · next h =>
      subst h
      simp
    · next h => simp [Ne.symm h]
  | physical q =>
    simp only [addConflicts, mem_virtuals, reduceCtorEq, false_and, false_or,
      Register.physical.injEq]
    split
    · next h =>
      rw [Finset.mem_insert]
      grind
    · next h => simp [h]

/-- Nodes are only added. -/
theorem nodes_subset_addConflicts : g.nodes ⊆ (g.addConflicts d xs).nodes := by
  cases d with
  | physical q => exact subset_rfl
  | «virtual» u => exact Finset.subset_union_left

/-- And only those of the conflict. -/
theorem mem_nodes_addConflicts (h : v ∈ (g.addConflicts d xs).nodes) :
    v ∈ g.nodes ∨ d = .virtual v ∨ .virtual v ∈ xs := by
  cases d with
  | physical q => exact Or.inl h
  | «virtual» u =>
    rcases Finset.mem_union.mp h with h | h
    · exact Or.inl h
    · split at h
      · exact absurd h (Finset.notMem_empty v)
      · rcases Finset.mem_insert.mp h with rfl | h
        · exact Or.inr (Or.inl rfl)
        · exact Or.inr (Or.inr (mem_virtuals.mp (Finset.mem_of_mem_erase h)))

/-- The nodes of an instruction. -/
theorem mem_nodes_addInst (inst : I) (live : Finset (Register R))
    (h : v ∈ (g.addInst inst live).nodes) :
    v ∈ g.nodes ∨ .virtual v ∈ defRegs inst ∨ ∃ d, Conflicts (inst, live) d (.virtual v) := by
  suffices hs : ∀ (l : List (Register R)) (g : InterferenceGraph R),
      v ∈ (l.foldl (fun g d => g.addConflicts d (conflictsOf inst live d)) g).nodes →
      v ∈ g.nodes ∨ ∃ d ∈ l, d = .virtual v ∨ .virtual v ∈ conflictsOf inst live d by
    rcases hs _ _ h with h | ⟨d, hd, rfl | h⟩
    · rcases Finset.mem_union.mp h with h | h
      · exact Or.inl h
      · exact Or.inr (Or.inl (List.mem_toFinset.mp (mem_virtuals.mp h)))
    · exact Or.inr (Or.inl hd)
    · exact Or.inr (Or.inr ⟨d, hd, h⟩)
  intro l
  induction l with
  | nil => exact fun g h => Or.inl h
  | cons d l ih =>
    intro g h
    rcases ih _ h with h | ⟨d', hd', h⟩
    · rcases mem_nodes_addConflicts h with h | h
      · exact Or.inl h
      · exact Or.inr ⟨d, List.mem_cons_self, h⟩
    · exact Or.inr ⟨d', List.mem_cons_of_mem _ hd', h⟩

/-- What an instruction writes is a node. -/
theorem subset_nodes_addInst (inst : I) (live : Finset (Register R)) :
    g.nodes ∪ virtuals (defRegs inst).toFinset ⊆ (g.addInst inst live).nodes := by
  suffices hs : ∀ (l : List (Register R)) (g : InterferenceGraph R),
      g.nodes ⊆ (l.foldl (fun g d => g.addConflicts d (conflictsOf inst live d)) g).nodes from
    hs (defRegs inst) (g.addNodes (defRegs inst))
  intro l
  induction l with
  | nil => exact fun g => subset_rfl
  | cons d l ih => exact fun g => nodes_subset_addConflicts.trans (ih _)

/-- The edges of an instruction. -/
theorem mem_edges_addInst (inst : I) (live : Finset (Register R)) :
    w ∈ (g.addInst inst live).edges v ↔ w ∈ g.edges v ∨
      (v ≠ w ∧ (Conflicts (inst, live) (.virtual v) (.virtual w) ∨
        Conflicts (inst, live) (.virtual w) (.virtual v))) := by
  refine (List.foldl_iff (P := fun g : InterferenceGraph R => w ∈ g.edges v)
    (f := fun g d => g.addConflicts d (conflictsOf inst live d))
    (fun g d => mem_edges_addConflicts) (defRegs inst) (g.addNodes (defRegs inst))).trans ?_
  refine or_congr_right ⟨?_, ?_⟩
  · rintro ⟨d, hd, hne, ⟨rfl, h⟩ | ⟨rfl, h⟩⟩
    · exact ⟨hne, Or.inl ⟨hd, h⟩⟩
    · exact ⟨hne, Or.inr ⟨hd, h⟩⟩
  · rintro ⟨hne, ⟨hd, h⟩ | ⟨hd, h⟩⟩
    · exact ⟨_, hd, hne, Or.inl ⟨rfl, h⟩⟩
    · exact ⟨_, hd, hne, Or.inr ⟨rfl, h⟩⟩

/-- The forbidden registers of an instruction. -/
theorem mem_forbiddenPhys_addInst (inst : I) (live : Finset (Register R)) :
    r ∈ (g.addInst inst live).forbiddenPhys v ↔ r ∈ g.forbiddenPhys v ∨
      (Conflicts (inst, live) (.virtual v) (.physical r) ∨
        Conflicts (inst, live) (.physical r) (.virtual v)) := by
  refine (List.foldl_iff (P := fun g : InterferenceGraph R => r ∈ g.forbiddenPhys v)
    (f := fun g d => g.addConflicts d (conflictsOf inst live d))
    (fun g d => mem_forbiddenPhys_addConflicts) (defRegs inst) (g.addNodes (defRegs inst))).trans ?_
  refine or_congr_right ⟨?_, ?_⟩
  · rintro ⟨d, hd, ⟨rfl, h⟩ | ⟨rfl, h⟩⟩
    · exact Or.inl ⟨hd, h⟩
    · exact Or.inr ⟨hd, h⟩
  · rintro (⟨hd, h⟩ | ⟨hd, h⟩)
    · exact ⟨_, hd, Or.inl ⟨rfl, h⟩⟩
    · exact ⟨_, hd, Or.inr ⟨rfl, h⟩⟩

variable {f : MachineFunction R I} {info : LivenessInfo R}

/-- The edges of the graph are the conflicts of the definitions of the function. -/
theorem mem_edges_build :
    w ∈ (build f info).edges v ↔ v ≠ w ∧ ∃ p ∈ f.blocks.flatMap info.liveAfter,
      Conflicts p (.virtual v) (.virtual w) ∨ Conflicts p (.virtual w) (.virtual v) := by
  refine (List.foldl_iff (P := fun g : InterferenceGraph R => w ∈ g.edges v)
    (fun g p => mem_edges_addInst p.1 p.2) (f.blocks.flatMap info.liveAfter) empty).trans ?_
  simp only [empty, Finset.notMem_empty, false_or]
  constructor
  · rintro ⟨p, hp, hne, h⟩
    exact ⟨hne, p, hp, h⟩
  · rintro ⟨hne, p, hp, h⟩
    exact ⟨p, hp, hne, h⟩

/-- The forbidden registers of the whole graph. -/
theorem mem_forbiddenPhys_build :
    r ∈ (build f info).forbiddenPhys v ↔ ∃ p ∈ f.blocks.flatMap info.liveAfter,
      Conflicts p (.virtual v) (.physical r) ∨ Conflicts p (.physical r) (.virtual v) := by
  refine (List.foldl_iff (P := fun g : InterferenceGraph R => r ∈ g.forbiddenPhys v)
    (fun g p => mem_forbiddenPhys_addInst p.1 p.2) (f.blocks.flatMap info.liveAfter)
    empty).trans ?_
  simp only [empty, Finset.notMem_empty, false_or]

/-- A node is written or conflicts somewhere. -/
theorem mem_nodes_build (h : v ∈ (build f info).nodes) :
    ∃ p ∈ f.blocks.flatMap info.liveAfter,
      .virtual v ∈ defRegs p.1 ∨ ∃ d, Conflicts p d (.virtual v) := by
  suffices hs : ∀ (l : List (I × Finset (Register R))) (g : InterferenceGraph R),
      v ∈ (l.foldl (fun g p => g.addInst p.1 p.2) g).nodes → v ∈ g.nodes ∨
        ∃ p ∈ l, .virtual v ∈ defRegs p.1 ∨ ∃ d, Conflicts p d (.virtual v) by
    rcases hs _ _ h with h | h
    · exact absurd h (Finset.notMem_empty v)
    · exact h
  intro l
  induction l with
  | nil => exact fun g h => Or.inl h
  | cons p l ih =>
    intro g h
    rcases ih _ h with h | ⟨q, hq, h⟩
    · rcases mem_nodes_addInst p.1 p.2 h with h | h
      · exact Or.inl h
      · exact Or.inr ⟨p, List.mem_cons_self, h⟩
    · exact Or.inr ⟨q, List.mem_cons_of_mem _ hq, h⟩

/-- What is written is a node. -/
theorem mem_nodes_build_of_def {p : I × Finset (Register R)}
    (hp : p ∈ f.blocks.flatMap info.liveAfter) (hv : .virtual v ∈ defRegs p.1) :
    v ∈ (build f info).nodes := by
  suffices hs : ∀ (l : List (I × Finset (Register R))) (g : InterferenceGraph R),
      g.nodes ⊆ (l.foldl (fun g p => g.addInst p.1 p.2) g).nodes ∧
        (p ∈ l → v ∈ (l.foldl (fun g p => g.addInst p.1 p.2) g).nodes) from (hs _ _).2 hp
  intro l
  induction l with
  | nil => exact fun g => ⟨subset_rfl, fun h => absurd h List.not_mem_nil⟩
  | cons q l ih =>
    intro g
    have hsub := Finset.union_subset_iff.mp (subset_nodes_addInst (g := g) q.1 q.2)
    refine ⟨hsub.1.trans (ih _).1, fun h => ?_⟩
    rcases List.mem_cons.mp h with rfl | h
    · exact (ih _).1 (hsub.2 (mem_virtuals.mpr (List.mem_toFinset.mpr hv)))
    · exact (ih _).2 h

/-! ## The stack -/

/-- The selected node is one of those left. -/
theorem selectNode_mem {stats : VRegId → VRegStats} {degrees : List Degree} {d : Degree}
    (h : selectNode stats degrees = some d) : d ∈ degrees := by
  rw [selectNode] at h
  split at h
  · next hlow =>
    cases h
    exact List.mem_of_mem_filter (List.minBy?_mem hlow)
  · exact List.minBy?_mem h

/-- Only an empty graph has none. -/
theorem selectNode_eq_none {stats : VRegId → VRegStats} {degrees : List Degree}
    (h : selectNode stats degrees = none) : degrees = [] := by
  rw [selectNode] at h
  split at h
  · cases h
  · exact List.minBy?_eq_none.mp h

omit [DecidableEq R] in
/-- A node is removed and no other. -/
theorem removeNode_nodes (node : VRegId) (degrees : List Degree) :
    (g.removeNode node degrees).map (·.node) = (degrees.map (·.node)).filter (· ≠ node) := by
  rw [removeNode, List.map_map, List.filter_map]
  refine List.map_congr_left fun d _ => ?_
  simp only [Function.comp]
  split <;> rfl

omit [DecidableEq R] in
/-- The loop takes out every node once. -/
theorem simplifyLoop_perm (g : InterferenceGraph R) (stats : VRegId → VRegStats) (fuel : Nat)
    (degrees : List Degree) (hnd : (degrees.map (·.node)).Nodup)
    (hfuel : degrees.length ≤ fuel) :
    (g.simplifyLoop stats fuel degrees).Perm (degrees.map (·.node)) := by
  induction fuel generalizing degrees with
  | zero =>
    rw [List.length_eq_zero_iff.mp (Nat.le_zero.mp hfuel)]
    exact List.Perm.refl _
  | succ fuel ih =>
    rw [simplifyLoop]
    split
    · next h =>
      rw [selectNode_eq_none h]
      exact List.Perm.refl _
    · next d h =>
      have hmem : d.node ∈ degrees.map (·.node) := List.mem_map_of_mem (selectNode_mem h)
      have hnodes := removeNode_nodes (g := g) d.node degrees
      have herase : (degrees.map (·.node)).filter (· ≠ d.node) =
          (degrees.map (·.node)).erase d.node := by
        rw [hnd.erase_eq_filter]
        exact List.filter_congr fun x _ => by simp [bne, beq_eq_decide]
      have hlen : (g.removeNode d.node degrees).length + 1 = degrees.length := by
        have h1 := congrArg List.length (hnodes.trans herase)
        have h2 := List.length_erase_add_one hmem
        rw [List.length_map] at h1 h2
        omega
      have hperm := ih (g.removeNode d.node degrees) (by rw [hnodes]; exact hnd.filter _) (by omega)
      rw [hnodes, herase] at hperm
      exact (hperm.cons d.node).trans (List.perm_cons_erase hmem).symm

variable (I) in
/-- The stack holds every node of the graph once. -/
theorem simplify_perm (g : InterferenceGraph R) (stats : VRegId → VRegStats) :
    (g.simplify I stats).Perm (g.nodes.sort (· ≤ ·)) := by
  have hnodes : ((g.nodes.sort (· ≤ ·)).map fun v =>
      (⟨v, (g.edges v).card, (g.availableRegs I v).length⟩ : Degree)).map (·.node) =
      g.nodes.sort (· ≤ ·) := by
    rw [List.map_map]
    exact List.map_id _
  have hperm := simplifyLoop_perm g stats _ _ (by rw [hnodes]; exact g.nodes.sort_nodup _) le_rfl
  rw [hnodes] at hperm
  exact hperm

variable (I) in
/-- Every node is on the stack. -/
theorem mem_simplify {stats : VRegId → VRegStats} : v ∈ g.simplify I stats ↔ v ∈ g.nodes := by
  rw [(simplify_perm I g stats).mem_iff, Finset.mem_sort]

end InterferenceGraph

/-! ## Colours -/

section Colouring

variable [Ord R] {g : InterferenceGraph R} {movePairs : MovePairs R}

/-- The chosen register was free. -/
theorem choosePhysicalReg_mem {v : VRegId} {regs : List R} {assigned : HashMap VRegId R}
    {used : Finset R} {r : R}
    (h : choosePhysicalReg I v regs assigned used movePairs = some r) : r ∈ regs :=
  List.minBy?_mem h

/-- Without a free register there is no choice. -/
theorem choosePhysicalReg_eq_none {v : VRegId} {regs : List R} {assigned : HashMap VRegId R}
    {used : Finset R} : choosePhysicalReg I v regs assigned used movePairs = none ↔ regs = [] :=
  List.minBy?_eq_none

variable (I) in
/-- After the nodes of `done` have been coloured: a node without a colour had none left, and the
colours given are allowed and differ along the edges. -/
structure Coloured (g : InterferenceGraph R) (done : List VRegId) (c : Colouring R) : Prop where
  mem_done : ∀ v ∈ c.spillCandidates, v ∈ done
  total : ∀ v ∈ done, v ∉ c.spillCandidates → ∃ r, c.assignedRegs.lookup v = some r
  done_of_assigned : ∀ v r, c.assignedRegs.lookup v = some r → v ∈ done
  available : ∀ v r, c.assignedRegs.lookup v = some r → r ∈ g.availableRegs I v
  proper : ∀ v r, c.assignedRegs.lookup v = some r →
    ∀ w ∈ g.edges v, c.assignedRegs.lookup w ≠ some r
  blocked : ∀ v ∈ c.spillCandidates, ∀ r ∈ g.availableRegs I v,
    ∃ w ∈ g.edges v, c.assignedRegs.lookup w = some r
  unassigned : ∀ v ∈ c.spillCandidates, c.assignedRegs.lookup v = none

omit [Ord R] in
/-- Nothing is coloured yet. -/
theorem coloured_nil : Coloured I g [] ⟨[], ∅, ∅⟩ where
  mem_done _ h := h
  total _ h := absurd h List.not_mem_nil
  done_of_assigned v r h := by rw [AList.lookup_empty] at h; cases h
  available v r h := by rw [AList.lookup_empty] at h; cases h
  proper v r h := by rw [AList.lookup_empty] at h; cases h
  blocked _ h := absurd h List.not_mem_nil
  unassigned _ h := absurd h List.not_mem_nil

omit [Ord R] in
/-- A node without a colour has at least as many neighbours as registers. -/
theorem Coloured.length_le [LawfulTarget R I] {done : List VRegId} {c : Colouring R}
    (hc : Coloured I g done c) {v : VRegId} (hv : v ∈ c.spillCandidates) :
    (g.availableRegs I v).length ≤ (g.edges v).card := by
  have hnd : (g.availableRegs I v).Nodup := LawfulTarget.allocatableRegs_nodup.filter _
  have hsub : (g.availableRegs I v).toFinset.image some ⊆
      (g.edges v).image (c.assignedRegs.lookup ·) := by
    intro r hr
    obtain ⟨r, hmem, rfl⟩ := Finset.mem_image.mp hr
    exact Finset.mem_image.mpr (hc.blocked v hv r (List.mem_toFinset.mp hmem))
  calc (g.availableRegs I v).length
      = ((g.availableRegs I v).toFinset.image some).card := by
        rw [Finset.card_image_of_injective _ (Option.some_injective R),
          List.toFinset_card_of_nodup hnd]
    _ ≤ ((g.edges v).image (c.assignedRegs.lookup ·)).card := Finset.card_le_card hsub
    _ ≤ (g.edges v).card := Finset.card_image_le

omit [Ord R] in
/-- A node without a free register has neighbours with every register it may have. -/
theorem exists_of_freeRegs_nil {assigned : HashMap VRegId R} {v : VRegId}
    (h : freeRegs I g assigned v = []) {r : R} (hr : r ∈ g.availableRegs I v) :
    ∃ w ∈ g.edges v, assigned.lookup w = some r := by
  have hnot : r ∉ freeRegs I g assigned v := h ▸ List.not_mem_nil
  rw [freeRegs, List.mem_filter, decide_eq_true_eq] at hnot
  by_contra hcon
  exact hnot ⟨hr, fun w hw heq => hcon ⟨w, hw, heq⟩⟩

theorem Coloured.step (hsymm : ∀ v w, w ∈ g.edges v → v ∈ g.edges w)
    (hirr : ∀ v, v ∉ g.edges v) {done : List VRegId} {c : Colouring R} (hc : Coloured I g done c)
    {v : VRegId} (hv : v ∉ done) :
    Coloured I g (v :: done) (colourStep I g movePairs c v) := by
  rw [colourStep]
  split
  -- the node gets a register, which none of its neighbours has
  · next r hr =>
    have hmem := choosePhysicalReg_mem hr
    rw [freeRegs, List.mem_filter, decide_eq_true_eq] at hmem
    have hlk := HashMap.lookup_insert_ite c.assignedRegs v
    refine ⟨?_, ?_, ?_, ?_, ?_, ?_, ?_⟩
    · exact fun w hw => List.mem_cons_of_mem _ (hc.mem_done w hw)
    · intro w hw hnot
      dsimp only
      rw [hlk]
      split
      · exact ⟨r, rfl⟩
      · next hne => exact hc.total w ((List.mem_cons.mp hw).resolve_left hne) hnot
    · intro w r' h
      dsimp only at h
      rw [hlk] at h
      split at h
      · next heq => exact heq ▸ List.mem_cons_self
      · exact List.mem_cons_of_mem _ (hc.done_of_assigned w r' h)
    · intro w r' h
      dsimp only at h
      rw [hlk] at h
      split at h
      · next heq =>
        cases h
        exact heq ▸ hmem.1
      · exact hc.available w r' h
    · intro w r' h u hu
      dsimp only at h ⊢
      rw [hlk] at h ⊢
      -- an edge at `v` was respected when `v` was coloured, every other one before
      split at h
      · next heq =>
        cases h
        subst heq
        have hne : u ≠ w := fun heq => hirr w (heq ▸ hu)
        rw [if_neg hne]
        exact hmem.2 u hu
      · split
        · next heq =>
          subst heq
          intro heq
          cases heq
          exact hmem.2 w (hsymm w u hu) h
        · exact hc.proper w r' h u hu
    · intro w hw r' hr'
      obtain ⟨u, hu, hlook⟩ := hc.blocked w hw r' hr'
      have hne : u ≠ v := fun heq => hv (heq ▸ hc.done_of_assigned u r' hlook)
      refine ⟨u, hu, ?_⟩
      dsimp only
      rw [hlk, if_neg hne]
      exact hlook
    · intro w hw
      have hne : w ≠ v := fun heq => hv (heq ▸ hc.mem_done w hw)
      dsimp only
      rw [hlk, if_neg hne]
      exact hc.unassigned w hw
  -- no register is free: the node is spilled, and the colours stay as they are
  · next hnone =>
    have hfree := choosePhysicalReg_eq_none.mp hnone
    refine ⟨?_, ?_, ?_, hc.available, hc.proper, ?_, ?_⟩
    · intro w hw
      rcases List.mem_append.mp hw with hw | hw
      · exact List.mem_cons_of_mem _ (hc.mem_done w hw)
      · exact List.mem_singleton.mp hw ▸ List.mem_cons_self
    · intro w hw hnot
      have hne : w ≠ v := fun h => hnot (List.mem_append_right _ (List.mem_singleton.mpr h))
      exact hc.total w ((List.mem_cons.mp hw).resolve_left hne)
        fun h => hnot (List.mem_append_left _ h)
    · exact fun w r h => List.mem_cons_of_mem _ (hc.done_of_assigned w r h)
    · intro w hw
      rcases List.mem_append.mp hw with hw | hw
      · exact hc.blocked w hw
      · rw [List.mem_singleton.mp hw]
        exact fun r hr => exists_of_freeRegs_nil hfree hr
    · intro w hw
      rcases List.mem_append.mp hw with hw | hw
      · exact hc.unassigned w hw
      · rw [List.mem_singleton.mp hw, Option.eq_none_iff_forall_ne_some]
        exact fun r hr => hv (hc.done_of_assigned v r hr)

/-- The loop over the stack colours its nodes or puts them among the candidates. -/
theorem colour_coloured (hsymm : ∀ v w, w ∈ g.edges v → v ∈ g.edges w)
    (hirr : ∀ v, v ∉ g.edges v) {stack : List VRegId} (hnd : stack.Nodup) :
    Coloured I g stack (colour I g movePairs stack) := by
  suffices hs : ∀ (l done : List VRegId) (c : Colouring R), (l ++ done).Nodup →
      Coloured I g done c →
      Coloured I g (l.reverse ++ done) (l.foldl (colourStep I g movePairs) c) by
    have := hs stack.reverse [] ⟨[], ∅, ∅⟩ (by simpa using hnd) coloured_nil
    rwa [List.reverse_reverse, List.append_nil] at this
  intro l
  induction l with
  | nil => exact fun _ _ _ hc => hc
  | cons v l ih =>
    intro done c hnd hc
    rw [List.cons_append, List.nodup_cons] at hnd
    have hv : v ∉ done := fun h => hnd.1 (List.mem_append_right _ h)
    have hnd' : (l ++ v :: done).Nodup :=
      (List.perm_middle.nodup_iff).mpr (List.nodup_cons.mpr hnd)
    have hstep : Coloured I g (v :: done) (colourStep I g movePairs c v) := hc.step hsymm hirr hv
    have := ih (v :: done) _ hnd' hstep
    rw [List.reverse_cons, List.append_assoc]
    exact this

end Colouring

/-- What a call of `compute_spill` that returns has found. -/
theorem computeSpill_coloured [Ord R] {f : MachineFunction R I}
    {spill : List VRegId} {assignedRegs : HashMap VRegId R}
    (h : computeSpill f = some (spill, assignedRegs)) :
    ∃ info stack used, livenessAnalysis f = some info ∧
      (∀ v, v ∈ stack ↔ v ∈ (InterferenceGraph.build f info).nodes) ∧
      Coloured I (InterferenceGraph.build f info) stack ⟨spill, assignedRegs, used⟩ := by
  simp only [computeSpill, Option.pure_def, Option.bind_eq_bind, Option.bind_eq_some_iff,
    Option.some.injEq, Prod.mk.injEq] at h
  obtain ⟨info, hinfo, weights, hweights, rfl, rfl⟩ := h
  refine ⟨info, _, _, hinfo, fun v => InterferenceGraph.mem_simplify I,
    colour_coloured ?_ ?_ ?_⟩
  · intro v w hw
    obtain ⟨hne, p, hp, h⟩ := InterferenceGraph.mem_edges_build.mp hw
    exact InterferenceGraph.mem_edges_build.mpr ⟨hne.symm, p, hp, h.symm⟩
  · exact fun v hv => (InterferenceGraph.mem_edges_build.mp hv).1 rfl
  · exact (InterferenceGraph.simplify_perm I _ _).nodup_iff.mpr (Finset.sort_nodup _ _)

end Mir
