import C0mpiler.Mir.Colouring
import C0mpiler.Mir.Rv64i
import Mathlib

/-!
# The rounds of the spill loop

What `spill_vreg` does to the virtual registers of a function, and when the loop around it ends.
A round takes the registers it spills out of the function and adds temporaries with new ids, so a
round that spills a register of the original function leaves fewer of those. Nothing keeps a
round from spilling temporaries only: the loop ends exactly when just finitely many rounds do.
-/

namespace Mir

variable {R I : Type} [LoweringTarget R I]

/-! ## One instruction -/

/-- The spilled registers among a list. -/
theorem mem_uniqueSpilledVregs {regs : List (Register R)} {spilled : List VRegId} {v : VRegId} :
    v ∈ uniqueSpilledVregs regs spilled ↔ Register.virtual v ∈ regs ∧ v ∈ spilled := by
  rw [uniqueSpilledVregs, List.mem_reverse, List.mem_dedup, List.mem_reverse, List.mem_filterMap]
  constructor
  · rintro ⟨r, hr, h⟩
    cases r with
    | physical r => cases h
    | «virtual» w =>
      dsimp only at h
      split at h
      · next hw =>
        cases h
        exact ⟨hr, hw⟩
      · cases h
  · rintro ⟨hr, hv⟩
    exact ⟨_, hr, if_pos hv⟩

/-- Each of them once. -/
theorem uniqueSpilledVregs_nodup (regs : List (Register R)) (spilled : List VRegId) :
    (uniqueSpilledVregs regs spilled).Nodup :=
  List.nodup_reverse.mpr (List.nodup_dedup _)

/-- The map from the registers `vs` to fresh ones numbered from `n`. -/
theorem lookup_freshMap {vs : List VRegId} (hvs : vs.Nodup) {n : Nat} {v : VRegId}
    {r : Register R} :
    (HashMap.collect ((vs.zipIdx n).map fun p => (p.1, Register.virtual p.2))).lookup v = some r ↔
      ∃ k, (v, k) ∈ vs.zipIdx n ∧ r = .virtual k := by
  rw [HashMap.lookup_collect]
  · simp only [List.mem_map, Prod.mk.injEq, Prod.exists]
    constructor
    · rintro ⟨a, k, h, rfl, rfl⟩
      exact ⟨k, h, rfl⟩
    · rintro ⟨k, h, rfl⟩
      exact ⟨v, k, h, rfl, rfl⟩
  · rw [List.map_map]
    have : (Prod.fst ∘ fun p : VRegId × Nat => (p.1, (Register.virtual p.2 : Register R))) =
        Prod.fst := rfl
    rw [this, List.zipIdx_map_fst]
    exact hvs

/-- The numbers that `zipIdx` gives. -/
theorem mem_zipIdx_bounds {vs : List VRegId} {n : Nat} {p : VRegId × Nat}
    (h : p ∈ vs.zipIdx n) : p.1 ∈ vs ∧ n ≤ p.2 ∧ p.2 < n + vs.length := by
  obtain ⟨h1, h2, h3⟩ := List.mem_zipIdx h
  exact ⟨h3 ▸ List.getElem_mem _, h1, h2⟩

/-- A virtual register after the rewriting was there before and is not spilled, or is fresh. -/
theorem rewrite_eq_virtual {regs : List (Register R)} {spilled : List VRegId} {n v : Nat}
    {r : Register R} (hr : r ∈ regs)
    (h : Register.rewrite (HashMap.collect (((uniqueSpilledVregs regs spilled).zipIdx n).map
      fun p => (p.1, Register.virtual p.2))) r = .virtual v) :
    (r = .virtual v ∧ v ∉ spilled) ∨
      (n ≤ v ∧ v < n + (uniqueSpilledVregs regs spilled).length) := by
  cases r with
  | physical r => cases h
  | «virtual» w =>
    by_cases hw : w ∈ spilled
    · have hmem : w ∈ uniqueSpilledVregs regs spilled := mem_uniqueSpilledVregs.mpr ⟨hr, hw⟩
      obtain ⟨i, hi, rfl⟩ := List.getElem_of_mem hmem
      have hz : ((uniqueSpilledVregs regs spilled)[i], n + i) ∈
          (uniqueSpilledVregs regs spilled).zipIdx n := by
        rw [List.mk_add_mem_zipIdx_iff_getElem?]
        exact List.getElem?_eq_getElem hi
      rw [Register.rewrite_virtual_some
        ((lookup_freshMap (uniqueSpilledVregs_nodup _ _)).mpr ⟨_, hz, rfl⟩)] at h
      cases h
      exact Or.inr ⟨Nat.le_add_right n i, Nat.add_lt_add_left hi n⟩
    · have hnone : (HashMap.collect (((uniqueSpilledVregs regs spilled).zipIdx n).map
          fun p => (p.1, (Register.virtual p.2 : Register R)))).lookup w = none := by
        rw [Option.eq_none_iff_forall_ne_some]
        intro r hr
        obtain ⟨k, hk, -⟩ := (lookup_freshMap (uniqueSpilledVregs_nodup _ _)).mp hr
        exact hw (mem_uniqueSpilledVregs.mp (mem_zipIdx_bounds hk).1).2
      rw [Register.rewrite_virtual_none hnone] at h
      cases h
      exact Or.inl ⟨rfl, hw⟩

/-- The registers of the instructions that replace `inst`: those of `inst` that are not spilled,
and fresh ones. -/
theorem mem_spillInst [DecidableEq R] [LawfulTarget R I] {slots : HashMap VRegId StackSlotId}
    {spilled : List VRegId} {n v : Nat} {inst j : I}
    (hj : j ∈ (spillInst slots spilled n inst).1)
    (hv : Register.virtual v ∈ MachineFunction.instRegs j) :
    (Register.virtual v ∈ MachineFunction.instRegs inst ∧ v ∉ spilled) ∨
      (n ≤ v ∧ v < (spillInst slots spilled n inst).2) := by
  simp only [spillInst, List.mem_append, List.mem_cons, List.mem_map] at hj ⊢
  simp only [MachineFunction.instRegs, List.mem_append] at hv ⊢
  rcases hj with ⟨p, hp, rfl⟩ | rfl | ⟨p, hp, rfl⟩
  -- a load writes one temporary
  · obtain ⟨-, hlo, hhi⟩ := mem_zipIdx_bounds hp
    obtain ⟨sp, hsp⟩ := LawfulTarget.useRegs_load (I := I) (.virtual p.2) ((slots.lookup p.1).getD 0)
    rw [hsp, LawfulTarget.defRegs_load] at hv
    simp only [List.mem_singleton, reduceCtorEq, Register.virtual.injEq, false_or] at hv
    subst hv
    right
    omega
  -- the instruction itself: a spilled register has been replaced by a fresh one
  · rw [LawfulTarget.useRegs_rewrite, LawfulTarget.defRegs_rewrite, List.mem_map,
      List.mem_map] at hv
    rcases hv with ⟨r, hr, heq⟩ | ⟨r, hr, heq⟩
    · rcases rewrite_eq_virtual hr heq with ⟨rfl, hs⟩ | hb
      · exact Or.inl ⟨Or.inl hr, hs⟩
      · right
        omega
    · rcases rewrite_eq_virtual hr heq with ⟨rfl, hs⟩ | hb
      · exact Or.inl ⟨Or.inr hr, hs⟩
      · right
        omega
  -- a store reads one temporary and may need another
  · obtain ⟨-, hlo, hhi⟩ := mem_zipIdx_bounds hp
    obtain ⟨sp, hsp⟩ := LawfulTarget.useRegs_store (I := I) (.virtual p.2)
      ((slots.lookup p.1).getD 0) (.virtual (p.2 + (uniqueSpilledVregs (defRegs inst) spilled).length))
    rw [hsp, LawfulTarget.defRegs_store] at hv
    simp only [List.mem_cons, List.not_mem_nil, or_false, reduceCtorEq, Register.virtual.injEq,
      false_or] at hv
    rcases hv with rfl | rfl
    · right
      omega
    · right
      omega

/-- The counter grows. -/
theorem le_spillInst_counter (slots : HashMap VRegId StackSlotId) (spilled : List VRegId)
    (n : Nat) (inst : I) : n ≤ (spillInst slots spilled n inst).2 := by
  simp only [spillInst]
  omega

/-- The instructions that replace `inst` keep its successors and lead nowhere else. -/
theorem getSuccessors_spillInst [DecidableEq R] [LawfulTarget R I] {slots : HashMap VRegId StackSlotId}
    {spilled : List VRegId} {n : Nat} {inst j : I} (hj : j ∈ (spillInst slots spilled n inst).1) :
    getSuccessors j = getSuccessors inst ∨ getSuccessors j = some [] := by
  simp only [spillInst, List.mem_append, List.mem_cons, List.mem_map] at hj
  rcases hj with ⟨p, hp, rfl⟩ | rfl | ⟨p, hp, rfl⟩
  · exact Or.inr (LawfulTarget.getSuccessors_load _ _)
  · exact Or.inl (LawfulTarget.getSuccessors_rewrite _ _ _)
  · exact Or.inr (LawfulTarget.getSuccessors_store _ _ _)

/-! ## The whole function -/

/-- The same for the instructions of a block. -/
theorem le_spillInsts_counter (slots : HashMap VRegId StackSlotId) (spilled : List VRegId)
    (n : Nat) (insts : List I) : n ≤ (spillInsts slots spilled n insts).2 := by
  induction insts generalizing n with
  | nil => exact le_rfl
  | cons inst rest ih => exact (le_spillInst_counter slots spilled n inst).trans (ih _)

/-- Each new instruction stands for an old one. -/
theorem mem_spillInsts {slots : HashMap VRegId StackSlotId} {spilled : List VRegId} {n : Nat}
    {insts : List I} {j : I} (hj : j ∈ (spillInsts slots spilled n insts).1) :
    ∃ inst ∈ insts, ∃ m, n ≤ m ∧ j ∈ (spillInst slots spilled m inst).1 ∧
      (spillInst slots spilled m inst).2 ≤ (spillInsts slots spilled n insts).2 := by
  induction insts generalizing n with
  | nil => cases hj
  | cons inst rest ih =>
    rcases List.mem_append.mp hj with hj | hj
    · exact ⟨inst, List.mem_cons_self, n, le_rfl, hj, le_spillInsts_counter slots spilled _ rest⟩
    · obtain ⟨i, hi, m, hm, hmem, hle⟩ := ih hj
      exact ⟨i, List.mem_cons_of_mem _ hi, m,
        (le_spillInst_counter slots spilled n inst).trans hm, hmem, hle⟩

/-- The same for the blocks. -/
theorem le_spillBlocks_counter (slots : HashMap VRegId StackSlotId) (spilled : List VRegId)
    (n : Nat) (blocks : List (MachineBlock I)) : n ≤ (spillBlocks slots spilled n blocks).2 := by
  induction blocks generalizing n with
  | nil => exact le_rfl
  | cons block rest ih =>
    exact (le_spillInsts_counter slots spilled n block.instructions).trans (ih _)

/-- Each new block is an old one with its code replaced. -/
theorem mem_spillBlocks {slots : HashMap VRegId StackSlotId} {spilled : List VRegId} {n : Nat}
    {blocks : List (MachineBlock I)} {out : MachineBlock I}
    (hout : out ∈ (spillBlocks slots spilled n blocks).1) :
    ∃ block ∈ blocks, ∃ m, n ≤ m ∧
      out = { block with instructions := (spillInsts slots spilled m block.instructions).1 } ∧
      (spillInsts slots spilled m block.instructions).2 ≤
        (spillBlocks slots spilled n blocks).2 := by
  induction blocks generalizing n with
  | nil => cases hout
  | cons block rest ih =>
    rcases List.mem_cons.mp hout with rfl | hout
    · exact ⟨block, List.mem_cons_self, n, le_rfl, rfl, le_spillBlocks_counter slots spilled _ rest⟩
    · obtain ⟨b, hb, m, hm, heq, hle⟩ := ih hout
      exact ⟨b, List.mem_cons_of_mem _ hb, m,
        (le_spillInsts_counter slots spilled n block.instructions).trans hm, heq, hle⟩

/-- The blocks keep their ids. -/
theorem spillBlocks_ids (slots : HashMap VRegId StackSlotId) (spilled : List VRegId) (n : Nat)
    (blocks : List (MachineBlock I)) :
    (spillBlocks slots spilled n blocks).1.map (·.id) = blocks.map (·.id) := by
  induction blocks generalizing n with
  | nil => rfl
  | cons block rest ih => exact congrArg (block.id :: ·) (ih _)

/-- Slots are given without touching the code. -/
theorem spillSlots_fields (f : MachineFunction R I) (vregIds : List VRegId) :
    (spillSlots f vregIds).blocks = f.blocks ∧
      (spillSlots f vregIds).vregCounter = f.vregCounter ∧
      (spillSlots f vregIds).entry = f.entry := by
  induction vregIds generalizing f with
  | nil => exact ⟨rfl, rfl, rfl⟩
  | cons v vs ih => exact ih _

section SpillVreg

variable {f : MachineFunction R I} {spill : List VRegId}

/-- A round in terms of `spillBlocks`. -/
theorem spillVreg_blocks (spill : List VRegId) (f : MachineFunction R I) :
    ((spillVreg spill f).blocks, (spillVreg spill f).vregCounter) =
      spillBlocks (HashMap.collect (spill.zipIdx f.frameInfo.stackSlots.length)) spill
        f.vregCounter f.blocks := by
  obtain ⟨h1, h2, -⟩ := spillSlots_fields f spill
  rw [spillVreg]
  dsimp only
  rw [h1, h2]

/-- An instruction of the next round stands for one of this round. -/
theorem mem_spillVreg_insts {j : I} (hj : j ∈ (spillVreg spill f).insts) :
    ∃ slots, ∃ inst ∈ f.insts, ∃ m, f.vregCounter ≤ m ∧ j ∈ (spillInst slots spill m inst).1 ∧
      (spillInst slots spill m inst).2 ≤ (spillVreg spill f).vregCounter := by
  obtain ⟨h1, h2⟩ := Prod.mk.inj (spillVreg_blocks spill f)
  obtain ⟨out, hout, hj⟩ := List.mem_flatMap.mp hj
  rw [h1] at hout
  rw [h2]
  obtain ⟨block, hb, m, hm, rfl, hle⟩ := mem_spillBlocks hout
  obtain ⟨inst, hi, k, hk, hjk, hle'⟩ := mem_spillInsts hj
  exact ⟨_, inst, List.mem_flatMap.mpr ⟨block, hb, hi⟩, k, hm.trans hk, hjk, hle'.trans hle⟩

/-- The counter grows from round to round. -/
theorem le_spillVreg_counter (spill : List VRegId) (f : MachineFunction R I) :
    f.vregCounter ≤ (spillVreg spill f).vregCounter := by
  obtain ⟨-, h2⟩ := Prod.mk.inj (spillVreg_blocks spill f)
  rw [h2]
  exact le_spillBlocks_counter _ _ _ _

variable [DecidableEq R] [LawfulTarget R I]

/-- After a round the registers of the function are those that were not spilled and new ones. -/
theorem spillVreg_occurs {v : Nat} (h : (spillVreg spill f).Occurs v) :
    (f.Occurs v ∧ v ∉ spill) ∨ (f.vregCounter ≤ v ∧ v < (spillVreg spill f).vregCounter) := by
  obtain ⟨j, hj, hv⟩ := h
  obtain ⟨slots, inst, hi, m, hm, hjm, hle⟩ := mem_spillVreg_insts hj
  rcases mem_spillInst hjm hv with ⟨hv, hs⟩ | ⟨hlo, hhi⟩
  · exact Or.inl ⟨⟨inst, hi, hv⟩, hs⟩
  · exact Or.inr ⟨hm.trans hlo, hhi.trans_le hle⟩

/-- A round keeps the function well formed. -/
theorem spillVreg_wf (hf : f.Wf) (spill : List VRegId) : (spillVreg spill f).Wf where
  vreg_lt v hv := by
    rcases spillVreg_occurs hv with ⟨hv, -⟩ | ⟨-, hv⟩
    · exact (hf.vreg_lt v hv).trans_le (le_spillVreg_counter spill f)
    · exact hv
  nodup := by
    rw [(Prod.mk.inj (spillVreg_blocks spill f)).1, spillBlocks_ids]
    exact hf.nodup
  succs j hj := by
    obtain ⟨slots, inst, hi, m, -, hjm, -⟩ := mem_spillVreg_insts hj
    rw [(Prod.mk.inj (spillVreg_blocks spill f)).1, spillBlocks_ids]
    rcases getSuccessors_spillInst hjm with h | h
    · rw [h]
      exact hf.succs inst hi
    · exact ⟨[], h, fun b hb => absurd hb List.not_mem_nil⟩

end SpillVreg

/-! ## A round of the loop -/

section Rounds

variable [DecidableEq R]

omit [DecidableEq R] in
/-- On a well-formed function the control flow graph is built, and stays within the blocks. -/
theorem computeCfg_eq_some {f : MachineFunction R I} (hf : f.Wf) :
    ∃ cfg, computeCfg f = some cfg ∧ ∀ id, ∀ b ∈ cfg.succs id, b ∈ f.blocks.map (·.id) := by
  have hinst : ∀ block ∈ f.blocks, ∀ i ∈ block.instructions, i ∈ f.insts :=
    fun block hb i hi => List.mem_flatMap.mpr ⟨block, hb, hi⟩
  have hblock : ∀ block ∈ f.blocks, ∃ l, blockSuccs block.instructions = some l ∧
      ∀ b ∈ l, b ∈ f.blocks.map (·.id) := by
    intro block hb
    have hsuccs : ∀ i ∈ block.instructions.reverse.takeWhile isTerminator,
        ∃ l, getSuccessors i = some l := fun i hi => by
      obtain ⟨l, hl, -⟩ :=
        hf.succs i (hinst block hb i (List.mem_reverse.mp (List.takeWhile_subset _ hi)))
      exact ⟨l, hl⟩
    obtain ⟨l, hl, hmem⟩ := blockSuccs_eq_some hsuccs
    refine ⟨l, hl, fun b hbl => ?_⟩
    obtain ⟨i, hi, succs, hsuccs, hin⟩ := hmem b hbl
    obtain ⟨l', hl', hall⟩ := hf.succs i (hinst block hb i hi)
    rw [hsuccs] at hl'
    cases hl'
    exact hall b hin
  obtain ⟨cfg, hcfg⟩ := computeCfg_returns fun block hb =>
    (hblock block hb).imp fun _ h => h.1
  refine ⟨cfg, hcfg, fun id b hb => ?_⟩
  obtain ⟨block, hmem, -, l, hl, hbl⟩ := (mem_succs_iff hcfg).mp hb
  obtain ⟨l', hl', hall⟩ := hblock block hmem
  rw [hl] at hl'
  cases hl'
  exact hall b hbl

omit [DecidableEq R] in
/-- every block of a well-formed function is in the graph, so no lookup fails. -/
theorem computeBlockWeights_eq_some {f : MachineFunction R I} (hf : f.Wf) :
    ∃ weights, computeBlockWeights f = some weights := by
  obtain ⟨cfg, hcfg, hin⟩ := computeCfg_eq_some hf
  have hidx : ∀ id ∈ f.blocks.map (·.id), ∃ k, (f.blocks.map (·.id)).idxOf? id = some k := by
    intro id hid
    exact Option.isSome_iff_exists.mp (by rw [List.isSome_idxOf?]; simpa using hid)
  have hedges : ∀ id ∈ f.blocks.map (·.id), ∀ succs : List BlockId,
      (∀ b ∈ succs, b ∈ f.blocks.map (·.id)) → ∃ out, (succs.filterMapM fun succ => do
        let succIndex ← (f.blocks.map (·.id)).idxOf? succ
        let blockIndex ← (f.blocks.map (·.id)).idxOf? id
        return if succIndex > blockIndex then none else some (id, succ)) = some out := by
    intro id hid succs
    obtain ⟨k, hk⟩ := hidx id hid
    induction succs with
    | nil => exact fun _ => ⟨[], rfl⟩
    | cons b succs ih =>
      intro h
      obtain ⟨m, hm⟩ := hidx b (h b List.mem_cons_self)
      obtain ⟨out, hout⟩ := ih fun c hc => h c (List.mem_cons_of_mem _ hc)
      simp only [hk, Option.bind_some, Option.pure_def, Option.bind_eq_bind] at hout ⊢
      rw [List.filterMapM_cons]
      simp only [hm, Option.bind_some, Option.pure_def, Option.bind_eq_bind]
      split
      · exact ⟨_, hout⟩
      · rw [hout]
        exact ⟨_, rfl⟩
  have hback : ∀ l : List BlockId, (∀ b ∈ l, b ∈ f.blocks.map (·.id)) →
      ∃ out, (l.mapM fun id => (cfg.succs id).filterMapM fun succ => do
        let succIndex ← (f.blocks.map (·.id)).idxOf? succ
        let blockIndex ← (f.blocks.map (·.id)).idxOf? id
        return if succIndex > blockIndex then none else some (id, succ)) = some out := by
    intro l
    induction l with
    | nil => exact fun _ => ⟨[], rfl⟩
    | cons id l ih =>
      intro h
      obtain ⟨out, hout⟩ := hedges id (h id List.mem_cons_self) (cfg.succs id) (hin id)
      obtain ⟨outs, houts⟩ := ih fun c hc => h c (List.mem_cons_of_mem _ hc)
      rw [List.mapM_cons, hout, houts]
      exact ⟨_, rfl⟩
  obtain ⟨out, hout⟩ := hback (f.blocks.map (·.id)) fun _ h => h
  rw [computeBlockWeights, hcfg]
  simp only [Option.bind_eq_bind, Option.bind_some, Option.pure_def] at hout ⊢
  rw [hout]
  exact ⟨_, rfl⟩

variable [Ord R]

/-- A round computes its colouring and what is left to spill. -/
theorem computeSpill_eq_some {f : MachineFunction R I} (hf : f.Wf) :
    ∃ spill assignedRegs, computeSpill f = some (spill, assignedRegs) := by
  obtain ⟨cfg, hcfg, -⟩ := computeCfg_eq_some hf
  obtain ⟨weights, hweights⟩ := computeBlockWeights_eq_some hf
  rw [computeSpill, livenessAnalysis, hcfg, hweights]
  exact ⟨_, _, rfl⟩

variable [LawfulTarget R I]

omit [Ord R] in
/-- The registers live after an instruction and those a definition conflicts with occur in the
function. -/
theorem occurs_of_conflicts {f : MachineFunction R I} {info : LivenessInfo R}
    (hinfo : livenessAnalysis f = some info) {p : I × Finset (Register R)}
    (hp : p ∈ f.blocks.flatMap info.liveAfter) {d : Register R} {v : VRegId}
    (h : InterferenceGraph.Conflicts p d (.virtual v)) : f.Occurs v := by
  obtain ⟨block, hb, hp⟩ := List.mem_flatMap.mp hp
  obtain ⟨pre, rest, hinsts, hlive⟩ := mem_liveAfter_iff.mp hp
  have hmem : ∀ i ∈ block.instructions, i ∈ f.insts := fun i hi =>
    List.mem_flatMap.mpr ⟨block, hb, hi⟩
  rcases Finset.mem_union.mp h.2 with hv | hv
  · -- a live register: one of the sets of the analysis
    have hsub : p.2 ⊆ f.regs := by
      rw [hlive]
      refine liveBefore_subset ((livenessAnalysis_within hinfo).liveOut _) fun i hi r hr => ?_
      refine List.mem_toFinset.mpr (List.mem_flatMap.mpr ⟨i, hmem i ?_, ?_⟩)
      · rw [hinsts]
        exact List.mem_append_right _ (List.mem_cons_of_mem _ hi)
      · exact List.mem_append_left _ hr
    exact List.mem_flatMap.mp (List.mem_toFinset.mp (hsub hv))
  · -- a register the instruction itself reads
    have hv := List.mem_toFinset.mp hv
    cases hl : (defConflictRegs p.1).lookup d with
    | none =>
      rw [hl] at hv
      exact absurd hv List.not_mem_nil
    | some l =>
      rw [hl] at hv
      refine ⟨p.1, hmem _ ?_, List.mem_append_left _ (LawfulTarget.mem_defConflictRegs hl hv)⟩
      rw [hinsts]
      exact List.mem_append_right _ List.mem_cons_self

/-- Only registers that occur are spilled. -/
theorem occurs_of_mem_spill {f : MachineFunction R I} {spill : List VRegId}
    {assignedRegs : HashMap VRegId R} (h : computeSpill f = some (spill, assignedRegs))
    {v : VRegId} (hv : v ∈ spill) : f.Occurs v := by
  obtain ⟨info, stack, used, hinfo, hstack, hc⟩ := computeSpill_coloured h
  obtain ⟨p, hp, hdef | ⟨d, hconf⟩⟩ :=
    InterferenceGraph.mem_nodes_build ((hstack v).mp (hc.mem_done v hv))
  · obtain ⟨block, hb, hp⟩ := List.mem_flatMap.mp hp
    obtain ⟨pre, rest, hinsts, -⟩ := mem_liveAfter_iff.mp hp
    refine ⟨p.1, List.mem_flatMap.mpr ⟨block, hb, ?_⟩, List.mem_append_right _ hdef⟩
    rw [hinsts]
    exact List.mem_append_right _ List.mem_cons_self
  · exact occurs_of_conflicts hinfo hp hconf

/-- A register with fewer neighbours than registers it may have is never spilled. -/
theorem not_mem_spill_of_degree_lt {f : MachineFunction R I} {info : LivenessInfo R}
    {spill : List VRegId} {assignedRegs : HashMap VRegId R}
    (hinfo : livenessAnalysis f = some info)
    (h : computeSpill f = some (spill, assignedRegs)) {v : VRegId}
    (hv : ((InterferenceGraph.build f info).edges v).card <
      ((InterferenceGraph.build f info).availableRegs I v).length) : v ∉ spill := by
  obtain ⟨info', stack, used, hinfo', -, hc⟩ := computeSpill_coloured h
  rw [hinfo] at hinfo'
  cases hinfo'
  exact fun hmem => absurd (hc.length_le hmem) (Nat.not_le.mpr hv)

/-! ## The loop -/

/-- One turn of the loop; `none` when no register is left to spill. -/
def spillRound (f : MachineFunction R I) : Option (MachineFunction R I) := do
  let (spill, _) ← computeSpill f
  if spill.isEmpty then none else some (spillVreg spill f)

/-- The function at the start of the `n`-th round; `none` when the loop has ended. -/
def roundStart (f : MachineFunction R I) : Nat → Option (MachineFunction R I)
  | 0 => some f
  | n + 1 => roundStart f n >>= spillRound

/-- The `n`-th round spills registers, none of which is one of `f`'s own. -/
def SpillsOnlyTemporaries (f : MachineFunction R I) (n : Nat) : Prop :=
  ∃ g spill assignedRegs, roundStart f n = some g ∧ computeSpill g = some (spill, assignedRegs) ∧
    spill ≠ [] ∧ ∀ v ∈ spill, f.vregCounter ≤ v

omit [LawfulTarget R I] in
/-- A round from its colouring. -/
theorem spillRound_of_computeSpill {f : MachineFunction R I} {spill : List VRegId}
    {assignedRegs : HashMap VRegId R} (h : computeSpill f = some (spill, assignedRegs)) :
    spillRound f = if spill.isEmpty then none else some (spillVreg spill f) := by
  rw [spillRound, h]
  rfl

omit [LawfulTarget R I] in
/-- The rounds, from the first one. -/
theorem roundStart_succ (f : MachineFunction R I) (n : Nat) :
    roundStart f (n + 1) = spillRound f >>= fun g => roundStart g n := by
  induction n with
  | zero => cases h : spillRound f <;> simp [roundStart, h]
  | succ n ih =>
    rw [roundStart, ih, bind_assoc]
    rfl

omit [LawfulTarget R I] in
/-- A loop that has ended stays so. -/
theorem roundStart_eq_none_of_le {f : MachineFunction R I} {m n : Nat} (hmn : m ≤ n)
    (h : roundStart f m = none) : roundStart f n = none := by
  induction n, hmn using Nat.le_induction with
  | base => exact h
  | succ n _ ih =>
    rw [roundStart, ih]
    rfl

omit [LawfulTarget R I] in
/-- The fuelled loop returns exactly when the rounds come to an end. -/
theorem spillLoop_isSome {f : MachineFunction R I} {fuel : Nat} (h : (spillLoop fuel f).isSome) :
    roundStart f fuel = none := by
  induction fuel generalizing f with
  | zero => cases h
  | succ fuel ih =>
    rw [spillLoop] at h
    cases hc : computeSpill f with
    | none =>
      rw [hc] at h
      cases h
    | some out =>
      obtain ⟨spill, assignedRegs⟩ := out
      rw [hc] at h
      rw [roundStart_succ, spillRound_of_computeSpill hc]
      simp only [Option.bind_eq_bind, Option.bind_some] at h
      split
      · rfl
      · next hne =>
        rw [if_neg hne] at h
        exact ih h

omit [LawfulTarget R I] in
/-- The loop ends at the round that leaves nothing to spill. -/
theorem spillLoop_isSome_of_round {f g : MachineFunction R I} {n : Nat}
    {assignedRegs : HashMap VRegId R} (hg : roundStart f n = some g)
    (hc : computeSpill g = some ([], assignedRegs)) : (spillLoop (n + 1) f).isSome := by
  induction n generalizing f with
  | zero =>
    cases hg
    rw [spillLoop, hc]
    rfl
  | succ n ih =>
    rw [roundStart_succ, spillRound] at hg
    rw [spillLoop]
    cases hf : computeSpill f with
    | none =>
      rw [hf] at hg
      cases hg
    | some out =>
      obtain ⟨spill, assigned⟩ := out
      rw [hf] at hg
      simp only [Option.bind_eq_bind, Option.bind_some] at hg ⊢
      by_cases hne : spill.isEmpty = true
      · rw [if_pos hne] at hg
        cases hg
      · rw [if_neg hne] at hg ⊢
        exact ih hg

/-- The registers of the original function that are still there. -/
noncomputable def remaining (c : Nat) (g : MachineFunction R I) : Finset Nat :=
  open Classical in (Finset.range c).filter g.Occurs

omit [DecidableEq R] [Ord R] [LawfulTarget R I] in
/-- The registers of the original function that a round still has. -/
theorem mem_remaining {c v : Nat} {g : MachineFunction R I} :
    v ∈ remaining c g ↔ v < c ∧ g.Occurs v := by
  simp [remaining]

omit [Ord R] in
/-- A round never brings back a register of the original function, and takes away the ones it
spills. -/
theorem remaining_spillVreg {c : Nat} {g : MachineFunction R I} (hc : c ≤ g.vregCounter)
    (spill : List VRegId) :
    remaining c (spillVreg spill g) ⊆ remaining c g \ spill.toFinset := by
  intro v hv
  obtain ⟨hlt, hocc⟩ := mem_remaining.mp hv
  rcases spillVreg_occurs hocc with ⟨hocc, hns⟩ | ⟨hlo, -⟩
  · exact Finset.mem_sdiff.mpr ⟨mem_remaining.mpr ⟨hlt, hocc⟩, fun h => hns (List.mem_toFinset.mp h)⟩
  · omega

/-- In a run that goes on, the state of every round: well formed, with a counter above that of
the original function. -/
theorem roundStart_wf {f g : MachineFunction R I} (hf : f.Wf) {n : Nat}
    (hg : roundStart f n = some g) : g.Wf ∧ f.vregCounter ≤ g.vregCounter := by
  induction n generalizing g with
  | zero =>
    cases hg
    exact ⟨hf, le_rfl⟩
  | succ n ih =>
    obtain ⟨g', hg', hround⟩ := Option.bind_eq_some_iff.mp hg
    obtain ⟨hwf, hle⟩ := ih hg'
    obtain ⟨spill, assignedRegs, hc⟩ := computeSpill_eq_some hwf
    rw [spillRound_of_computeSpill hc] at hround
    split at hround
    · cases hround
    · cases hround
      exact ⟨spillVreg_wf hwf spill, hle.trans (le_spillVreg_counter spill g')⟩

/-- When the loop does not end, every round starts with a function and spills something. -/
theorem exists_round_of_not_ends {f : MachineFunction R I} (hf : f.Wf)
    (h : ∀ fuel, spillLoop fuel f = none) (n : Nat) :
    ∃ g spill assignedRegs, roundStart f n = some g ∧
      computeSpill g = some (spill, assignedRegs) ∧ spill ≠ [] ∧
      roundStart f (n + 1) = some (spillVreg spill g) := by
  have hround : ∀ g, roundStart f n = some g → ∃ spill assignedRegs,
      computeSpill g = some (spill, assignedRegs) ∧ spill ≠ [] ∧
      roundStart f (n + 1) = some (spillVreg spill g) := by
    intro g hg
    obtain ⟨spill, assignedRegs, hc⟩ := computeSpill_eq_some (roundStart_wf hf hg).1
    have hne : spill ≠ [] := by
      rintro rfl
      have := spillLoop_isSome_of_round hg hc
      rw [h] at this
      cases this
    refine ⟨spill, assignedRegs, hc, hne, ?_⟩
    rw [roundStart, hg]
    refine (spillRound_of_computeSpill hc).trans (if_neg ?_)
    rwa [List.isEmpty_iff]
  -- the loop has not ended, so there is an `n`th round
  have hstart : ∃ g, roundStart f n = some g := by
    clear hround
    induction n with
    | zero => exact ⟨f, rfl⟩
    | succ n ih =>
      obtain ⟨g, hg⟩ := ih
      obtain ⟨spill, assignedRegs, hc⟩ := computeSpill_eq_some (roundStart_wf hf hg).1
      refine ⟨spillVreg spill g, ?_⟩
      rw [roundStart, hg]
      refine (spillRound_of_computeSpill hc).trans (if_neg fun hempty => ?_)
      have := spillLoop_isSome_of_round hg (List.isEmpty_iff.mp hempty ▸ hc)
      rw [h] at this
      cases this
  obtain ⟨g, hg⟩ := hstart
  obtain ⟨spill, assignedRegs, hc, hne, hnext⟩ := hround g hg
  exact ⟨g, spill, assignedRegs, hg, hc, hne, hnext⟩

omit [LawfulTarget R I] in
/-- Building the assembly does not fail. -/
theorem registerAllocation_isSome {f : MachineFunction R I} {fuel : Nat} :
    (registerAllocation fuel f).isSome ↔ (spillLoop fuel f).isSome := by
  rw [registerAllocation]
  cases spillLoop fuel f <;> simp

omit [LawfulTarget R I] in
/-- Where the loop ends, only finitely many rounds have run. -/
theorem finite_of_returns {f : MachineFunction R I} {fuel : Nat}
    (h : (registerAllocation fuel f).isSome) : {n | SpillsOnlyTemporaries f n}.Finite := by
  have hend := spillLoop_isSome (registerAllocation_isSome.mp h)
  refine (Set.finite_Iio fuel).subset fun n hn => ?_
  obtain ⟨g, spill, assignedRegs, hg, -⟩ := hn
  by_contra hle
  rw [roundStart_eq_none_of_le (Nat.not_lt.mp hle) hend] at hg
  cases hg

/-- A round that spills an original register makes them fewer, so only those that spill temporaries
alone can go on for ever. -/
theorem returns_of_finite {f : MachineFunction R I} (hf : f.Wf)
    (hfin : {n | SpillsOnlyTemporaries f n}.Finite) :
    ∃ fuel, (registerAllocation fuel f).isSome := by
  by_contra hcon
  have hnone : ∀ fuel, spillLoop fuel f = none := fun fuel => by
    rw [← Option.not_isSome_iff_eq_none, ← registerAllocation_isSome]
    exact fun h => hcon ⟨fuel, h⟩
  obtain ⟨N, hN⟩ := hfin.bddAbove
  -- from round `N + 1` on every round takes away a register of the original function
  have hdesc : ∀ k, ∃ g, roundStart f (N + 1 + k) = some g ∧
      (remaining f.vregCounter g).card + k ≤ f.vregCounter := by
    intro k
    induction k with
    | zero =>
      obtain ⟨g, -, -, hg, -⟩ := exists_round_of_not_ends hf hnone (N + 1)
      refine ⟨g, hg, ?_⟩
      calc (remaining f.vregCounter g).card ≤ (Finset.range f.vregCounter).card :=
            Finset.card_le_card fun v hv => Finset.mem_range.mpr (mem_remaining.mp hv).1
        _ = f.vregCounter := Finset.card_range _
    | succ k ih =>
      obtain ⟨g, hg, hcard⟩ := ih
      obtain ⟨g', spill, assignedRegs, hg', hc, hne, hnext⟩ :=
        exists_round_of_not_ends hf hnone (N + 1 + k)
      rw [hg] at hg'
      cases hg'
      refine ⟨_, hnext, ?_⟩
      have hown : ∃ v ∈ spill, v < f.vregCounter := by
        by_contra hall
        push Not at hall
        have := hN ⟨g, spill, assignedRegs, hg, hc, hne, hall⟩
        omega
      obtain ⟨v, hv, hlt⟩ := hown
      have hsub := remaining_spillVreg (roundStart_wf hf hg).2 spill
      have hmem : v ∈ remaining f.vregCounter g :=
        mem_remaining.mpr ⟨hlt, occurs_of_mem_spill hc hv⟩
      have hss : remaining f.vregCounter (spillVreg spill g) ⊂ remaining f.vregCounter g := by
        refine Finset.ssubset_iff_subset_ne.mpr ⟨hsub.trans Finset.sdiff_subset, fun heq => ?_⟩
        exact (Finset.mem_sdiff.mp (hsub (heq ▸ hmem))).2 (List.mem_toFinset.mpr hv)
      have := Finset.card_lt_card hss
      omega
  obtain ⟨g, -, hcard⟩ := hdesc (f.vregCounter + 1)
  omega

/-- `register_allocation` returns if and only if only finitely many rounds spill nothing but
registers that the loop itself has introduced. -/
theorem registerAllocation_returns_iff {f : MachineFunction R I} (hf : f.Wf) :
    (∃ fuel, (registerAllocation fuel f).isSome) ↔ {n | SpillsOnlyTemporaries f n}.Finite :=
  ⟨fun ⟨_, h⟩ => finite_of_returns h, returns_of_finite hf⟩

end Rounds

end Mir
