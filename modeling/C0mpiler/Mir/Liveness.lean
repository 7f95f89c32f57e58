import C0mpiler.Mir.Machine
import C0mpiler.Data.OptionFold
import Mathlib

/-!
# Liveness of registers

`liveness_analysis` and what it needs: the uses and definitions of a block, the control flow read
off the trailing terminators, and the round-robin iteration of `update_liveout` and
`update_livein`. The maps keyed by block are functions with the default of `entry(..).or_default`.

Starting from empty sets every update only adds registers (`Inflating`), so the loop comes to rest
within as many rounds as there are registers to add, and it ends in a solution of the liveness
equations (`Stable`).
-/

namespace Mir

variable {R I : Type} [DecidableEq R] [LoweringTarget R I]

/-! ## The control flow graph -/

/-- The successors of the blocks. -/
structure ControlFlowGraph where
  succs : BlockId → HashSet BlockId

/-- The successors of the terminators at the end of a block. -/
def blockSuccs (insts : List I) : Option (List BlockId) := do
  let succs ← (insts.reverse.takeWhile isTerminator).mapM getSuccessors
  return succs.flatten

/-- `compute_cfg`. -/
def computeCfg (f : MachineFunction R I) : Option ControlFlowGraph := do
  let succs ← f.blocks.mapM fun block => return (block.id, ← blockSuccs block.instructions)
  return { succs := fun id => ((succs.filter (·.1 = id)).flatMap (·.2)).dedup }

omit [DecidableEq R] in
/-- A block whose last instructions all have successors. -/
theorem blockSuccs_eq_some {insts : List I}
    (h : ∀ i ∈ insts.reverse.takeWhile isTerminator, ∃ l, getSuccessors i = some l) :
    ∃ l, blockSuccs insts = some l ∧
      ∀ s ∈ l, ∃ i ∈ insts, ∃ succs, getSuccessors i = some succs ∧ s ∈ succs := by
  obtain ⟨ls, hls⟩ := OptionFold.exists_mapM h
  refine ⟨ls.flatten, by rw [blockSuccs, hls]; rfl, fun s hs => ?_⟩
  obtain ⟨succs, hsuccs, hs⟩ := List.mem_flatten.mp hs
  obtain ⟨i, hi, hget⟩ := (OptionFold.mem_mapM hls).mp hsuccs
  exact ⟨i, List.mem_reverse.mp (List.takeWhile_subset _ hi), succs, hget, hs⟩

omit [DecidableEq R] in
/-- The graph of a function whose blocks have successors. -/
theorem computeCfg_returns {f : MachineFunction R I}
    (h : ∀ block ∈ f.blocks, ∃ l, blockSuccs block.instructions = some l) :
    ∃ cfg, computeCfg f = some cfg := by
  obtain ⟨ps, hps⟩ := OptionFold.exists_mapM (f := fun block : MachineBlock I =>
    (do return (block.id, ← blockSuccs block.instructions) : Option _)) (l := f.blocks)
    fun block hb => by
      obtain ⟨l, hl⟩ := h block hb
      exact ⟨(block.id, l), by rw [hl]; rfl⟩
  exact ⟨_, by rw [computeCfg, hps]; rfl⟩

omit [DecidableEq R] in
/-- The successors of a block in the graph are those of its trailing terminators. -/
theorem mem_succs_iff {f : MachineFunction R I} {cfg : ControlFlowGraph}
    (h : computeCfg f = some cfg) {id s : BlockId} :
    s ∈ cfg.succs id ↔
      ∃ block ∈ f.blocks, block.id = id ∧ ∃ l, blockSuccs block.instructions = some l ∧ s ∈ l := by
  obtain ⟨ps, hps, hcfg⟩ := Option.bind_eq_some_iff.mp h
  cases hcfg
  simp only [List.mem_dedup, List.mem_flatMap, List.mem_filter, decide_eq_true_eq]
  constructor
  · rintro ⟨p, ⟨hp, rfl⟩, hs⟩
    obtain ⟨block, hb, hp⟩ := (OptionFold.mem_mapM hps).mp hp
    obtain ⟨l, hl, hp⟩ := Option.bind_eq_some_iff.mp hp
    cases hp
    exact ⟨block, hb, rfl, l, hl, hs⟩
  · rintro ⟨block, hb, rfl, l, hl, hs⟩
    exact ⟨(block.id, l), ⟨(OptionFold.mem_mapM hps).mpr ⟨block, hb, by rw [hl]; rfl⟩, rfl⟩, hs⟩

/-! ## The liveness equations -/

/-- The sets of the analysis, by block. -/
structure LivenessInfo (R : Type) where
  uses : BlockId → Finset (Register R)
  defs : BlockId → Finset (Register R)
  liveIn : BlockId → Finset (Register R)
  liveOut : BlockId → Finset (Register R)

/-- The registers a block reads before writing them, and those it writes. -/
def blockUsesDefs (insts : List I) : Finset (Register R) × Finset (Register R) :=
  insts.foldl
    (fun acc inst =>
      (acc.1 ∪ (useRegs inst).toFinset \ acc.2, acc.2 ∪ (defRegs inst).toFinset))
    (∅, ∅)

namespace LivenessInfo

/-- `LivenessInfo::new`: what a block reads first and what it writes, and nothing live yet. -/
def new (blocks : List (MachineBlock I)) : LivenessInfo R where
  uses := blocks.foldl
    (fun m block => Function.update m block.id (blockUsesDefs block.instructions).1) fun _ => ∅
  defs := blocks.foldl
    (fun m block => Function.update m block.id (blockUsesDefs block.instructions).2) fun _ => ∅
  liveIn := fun _ => ∅
  liveOut := fun _ => ∅

/-- The set `update_livein` stores. -/
def newLiveIn (info : LivenessInfo R) (id : BlockId) : Finset (Register R) :=
  info.uses id ∪ info.liveOut id \ info.defs id

/-- The set `update_liveout` stores. -/
def newLiveOut (info : LivenessInfo R) (succs : HashSet BlockId) : Finset (Register R) :=
  succs.foldl (fun acc succ => acc ∪ info.liveIn succ) ∅

/-- `update_livein`; the flag says whether the set has changed. -/
def updateLivein (info : LivenessInfo R) (id : BlockId) : LivenessInfo R × Bool :=
  if info.newLiveIn id ≠ info.liveIn id then
    ({ info with liveIn := Function.update info.liveIn id (info.newLiveIn id) }, true)
  else
    (info, false)

/-- `update_liveout`. -/
def updateLiveout (info : LivenessInfo R) (id : BlockId) (succs : HashSet BlockId) :
    LivenessInfo R × Bool :=
  if info.newLiveOut succs ≠ info.liveOut id then
    ({ info with liveOut := Function.update info.liveOut id (info.newLiveOut succs) }, true)
  else
    (info, false)

/-- The two updates of one block. -/
def updateBlock (cfg : ControlFlowGraph) (info : LivenessInfo R) (id : BlockId) :
    LivenessInfo R × Bool :=
  let out := info.updateLiveout id (cfg.succs id)
  let inn := out.1.updateLivein id
  (inn.1, out.2 || inn.2)

/-- One turn of `while changed`, over the blocks in reverse order. -/
def round (cfg : ControlFlowGraph) (ids : List BlockId) (info : LivenessInfo R) :
    LivenessInfo R × Bool :=
  ids.reverse.foldl
    (fun acc id => let next := acc.1.updateBlock cfg id; (next.1, acc.2 || next.2))
    (info, false)

/-- `while changed`, for at most `fuel` rounds. -/
def fixpoint (cfg : ControlFlowGraph) (ids : List BlockId) :
    Nat → LivenessInfo R → LivenessInfo R
  | 0, info => info
  | fuel + 1, info =>
    let next := info.round cfg ids
    if next.2 then fixpoint cfg ids fuel next.1 else next.1

end LivenessInfo

/-- The registers that occur in the function. -/
def MachineFunction.regs (f : MachineFunction R I) : Finset (Register R) :=
  (f.insts.flatMap MachineFunction.instRegs).toFinset

/-- More rounds than can change a set (`livenessAnalysis_stable`). -/
def livenessFuel (f : MachineFunction R I) : Nat :=
  2 * f.blocks.length * f.regs.card + 1

/-- `liveness_analysis`, up to the fixpoint. -/
def livenessAnalysis (f : MachineFunction R I) : Option (LivenessInfo R) := do
  let cfg ← computeCfg f
  return (LivenessInfo.new f.blocks).fixpoint cfg (f.blocks.map (·.id)) (livenessFuel f)

/-- The registers live before `insts` when `liveOut` are live after them: the backward scan of
`compute_live_after`. -/
def liveBefore (liveOut : Finset (Register R)) : List I → Finset (Register R)
  | [] => liveOut
  | inst :: rest => (useRegs inst).toFinset ∪ liveBefore liveOut rest \ (defRegs inst).toFinset

/-- The entries of `live_after` for the instructions of a block, in their order. -/
def liveAfterEach (liveOut : Finset (Register R)) : List I → List (Finset (Register R))
  | [] => []
  | _ :: rest => liveBefore liveOut rest :: liveAfterEach liveOut rest

/-- The instructions of a block, each with the registers live after it. -/
def LivenessInfo.liveAfter (info : LivenessInfo R) (block : MachineBlock I) :
    List (I × Finset (Register R)) :=
  block.instructions.zip (liveAfterEach (info.liveOut block.id) block.instructions)

/-! ## Sets stay within the registers of the function -/

/-- The sets of a block are registers of its instructions. -/
theorem mem_blockUsesDefs {r : Register R} (insts : List I) :
    (r ∈ (blockUsesDefs insts).1 → ∃ i ∈ insts, r ∈ useRegs i) ∧
      (r ∈ (blockUsesDefs insts).2 → ∃ i ∈ insts, r ∈ defRegs i) := by
  suffices h : ∀ acc : Finset (Register R) × Finset (Register R),
      let out := insts.foldl (fun acc inst =>
        (acc.1 ∪ (useRegs inst).toFinset \ acc.2, acc.2 ∪ (defRegs inst).toFinset)) acc
      (r ∈ out.1 → r ∈ acc.1 ∨ ∃ i ∈ insts, r ∈ useRegs i) ∧
        (r ∈ out.2 → r ∈ acc.2 ∨ ∃ i ∈ insts, r ∈ defRegs i) by
    simpa [blockUsesDefs] using h (∅, ∅)
  induction insts with
  | nil => exact fun acc => ⟨Or.inl, Or.inl⟩
  | cons i insts ih =>
    intro acc
    have h := ih (acc.1 ∪ (useRegs i).toFinset \ acc.2, acc.2 ∪ (defRegs i).toFinset)
    simp only [Finset.mem_union, Finset.mem_sdiff, List.mem_toFinset] at h
    simp only [List.foldl_cons, List.mem_cons, exists_eq_or_imp]
    exact ⟨fun hr => by grind, fun hr => by grind⟩

namespace LivenessInfo

/-- A table built block by block. -/
theorem mem_foldl_update {α : Type} {r : α} {g : MachineBlock I → Finset α}
    {blocks : List (MachineBlock I)} {id : BlockId}
    (h : r ∈ (blocks.foldl (fun m block => Function.update m block.id (g block))
      (fun _ => ∅ : BlockId → Finset α)) id) :
    ∃ block ∈ blocks, r ∈ g block := by
  suffices hs : ∀ m : BlockId → Finset α,
      r ∈ (blocks.foldl (fun m block => Function.update m block.id (g block)) m) id →
      r ∈ m id ∨ ∃ block ∈ blocks, r ∈ g block by
    simpa using hs _ h
  clear h
  induction blocks with
  | nil => exact fun m h => Or.inl h
  | cons block blocks ih =>
    intro m h
    rcases ih _ h with h | ⟨b, hb, hr⟩
    · dsimp only at h
      rw [Function.update_apply] at h
      split at h
      · exact Or.inr ⟨block, List.mem_cons_self, h⟩
      · exact Or.inl h
    · exact Or.inr ⟨b, List.mem_cons_of_mem _ hb, hr⟩

/-- Every set of the analysis holds registers of `regs` only. -/
structure Within (info : LivenessInfo R) (regs : Finset (Register R)) : Prop where
  uses : ∀ id, info.uses id ⊆ regs
  liveIn : ∀ id, info.liveIn id ⊆ regs
  liveOut : ∀ id, info.liveOut id ⊆ regs

variable {info : LivenessInfo R} {regs : Finset (Register R)} {cfg : ControlFlowGraph}

/-- At the start nothing is outside. -/
theorem new_within (f : MachineFunction R I) :
    (LivenessInfo.new f.blocks : LivenessInfo R).Within f.regs where
  uses id r hr := by
    obtain ⟨block, hb, hr⟩ := mem_foldl_update hr
    obtain ⟨i, hi, hu⟩ := (mem_blockUsesDefs block.instructions).1 hr
    exact List.mem_toFinset.mpr (List.mem_flatMap.mpr
      ⟨i, List.mem_flatMap.mpr ⟨block, hb, hi⟩, List.mem_append_left _ hu⟩)
  liveIn _ := Finset.empty_subset _
  liveOut _ := Finset.empty_subset _

/-- Live at the end: live at the start of a successor. -/
theorem mem_newLiveOut {succs : HashSet BlockId} {r : Register R} :
    r ∈ info.newLiveOut succs ↔ ∃ succ ∈ succs, r ∈ info.liveIn succ := by
  suffices h : ∀ acc : Finset (Register R),
      r ∈ succs.foldl (fun acc succ => acc ∪ info.liveIn succ) acc ↔
        r ∈ acc ∨ ∃ succ ∈ succs, r ∈ info.liveIn succ by
    simpa [newLiveOut] using h ∅
  induction succs with
  | nil => simp
  | cons succ succs ih =>
    intro acc
    rw [List.foldl_cons, ih, Finset.mem_union, or_assoc]
    simp

/-- The new sets stay within. -/
theorem newLiveOut_subset (h : info.Within regs) (succs : HashSet BlockId) :
    info.newLiveOut succs ⊆ regs := by
  intro r hr
  obtain ⟨succ, -, hr⟩ := mem_newLiveOut.mp hr
  exact h.liveIn succ hr

/-- And the one at the start. -/
theorem newLiveIn_subset (h : info.Within regs) (id : BlockId) : info.newLiveIn id ⊆ regs :=
  Finset.union_subset (h.uses id) (Finset.sdiff_subset.trans (h.liveOut id))

/-- One update. -/
theorem Within.updateLiveout (h : info.Within regs) (id : BlockId) (succs : HashSet BlockId) :
    (info.updateLiveout id succs).1.Within regs := by
  rw [LivenessInfo.updateLiveout]
  split
  · refine ⟨h.uses, h.liveIn, fun id' => ?_⟩
    dsimp only
    rw [Function.update_apply]
    split
    · exact newLiveOut_subset h succs
    · exact h.liveOut id'
  · exact h

/-- The other update. -/
theorem Within.updateLivein (h : info.Within regs) (id : BlockId) :
    (info.updateLivein id).1.Within regs := by
  rw [LivenessInfo.updateLivein]
  split
  · refine ⟨h.uses, fun id' => ?_, h.liveOut⟩
    dsimp only
    rw [Function.update_apply]
    split
    · exact newLiveIn_subset h id
    · exact h.liveIn id'
  · exact h

/-- Both updates of a block. -/
theorem Within.updateBlock (h : info.Within regs) (cfg : ControlFlowGraph) (id : BlockId) :
    (info.updateBlock cfg id).1.Within regs :=
  (h.updateLiveout id _).updateLivein id

/-- What every update of a block keeps, a round keeps. -/
theorem round_induct {P : LivenessInfo R → Prop} {ids : List BlockId}
    (hstep : ∀ info id, id ∈ ids → P info → P (info.updateBlock cfg id).1) (h : P info) :
    P (info.round cfg ids).1 := by
  suffices hs : ∀ l : List BlockId, (∀ id ∈ l, id ∈ ids) →
      ∀ acc : LivenessInfo R × Bool, P acc.1 →
      P (l.foldl (fun acc id => let next := acc.1.updateBlock cfg id; (next.1, acc.2 || next.2))
        acc).1 from hs _ (fun _ => List.mem_reverse.mp) _ h
  intro l
  induction l with
  | nil => exact fun _ _ h => h
  | cons id l ih =>
    intro hl acc hacc
    exact ih (fun i hi => hl i (List.mem_cons_of_mem _ hi)) _
      (hstep acc.1 id (hl id List.mem_cons_self) hacc)

/-- What every update of a block keeps holds when the loop ends. -/
theorem fixpoint_induct {P : LivenessInfo R → Prop} {ids : List BlockId}
    (hstep : ∀ info id, id ∈ ids → P info → P (info.updateBlock cfg id).1) (fuel : Nat)
    (h : P info) : P (info.fixpoint cfg ids fuel) := by
  induction fuel generalizing info with
  | zero => exact h
  | succ fuel ih =>
    have hround := round_induct hstep h
    rw [LivenessInfo.fixpoint]
    split
    · exact ih hround
    · exact hround

/-- A round. -/
theorem Within.round (h : info.Within regs) (cfg : ControlFlowGraph) (ids : List BlockId) :
    (info.round cfg ids).1.Within regs :=
  round_induct (P := fun info => info.Within regs) (fun _ id _ h => h.updateBlock cfg id) h

/-- All rounds. -/
theorem Within.fixpoint (cfg : ControlFlowGraph) (ids : List BlockId) (fuel : Nat)
    (h : info.Within regs) : (info.fixpoint cfg ids fuel).Within regs :=
  fixpoint_induct (P := fun info => info.Within regs) (fun _ id _ h => h.updateBlock cfg id)
    fuel h

end LivenessInfo

/-! ## The loop comes to rest -/

namespace LivenessInfo

variable {info : LivenessInfo R} {regs : Finset (Register R)} {cfg : ControlFlowGraph}

/-- No update takes a register away. -/
def Inflating (info : LivenessInfo R) (cfg : ControlFlowGraph) : Prop :=
  ∀ id, info.liveOut id ⊆ info.newLiveOut (cfg.succs id) ∧ info.liveIn id ⊆ info.newLiveIn id

/-- The liveness equations hold at the block. -/
def StableAt (info : LivenessInfo R) (cfg : ControlFlowGraph) (id : BlockId) : Prop :=
  info.liveOut id = info.newLiveOut (cfg.succs id) ∧ info.liveIn id = info.newLiveIn id

/-- The entries of the sets of the blocks, counted. -/
def size (info : LivenessInfo R) (ids : List BlockId) : Nat :=
  ∑ id ∈ ids.toFinset, ((info.liveIn id).card + (info.liveOut id).card)

/-- What one update, or a run of them, does to an inflating state. -/
structure Grows (cfg : ControlFlowGraph) (ids : List BlockId) (info : LivenessInfo R)
    (next : LivenessInfo R × Bool) : Prop where
  inflating : next.1.Inflating cfg
  size_le : info.size ids ≤ next.1.size ids
  size_lt : next.2 = true → info.size ids < next.1.size ids
  same : next.2 = false → next.1 = info

theorem Grows.refl (ids : List BlockId) (h : info.Inflating cfg) :
    Grows cfg ids info (info, false) :=
  ⟨h, le_rfl, fun h => absurd h Bool.false_ne_true, fun _ => rfl⟩

theorem Grows.trans {ids : List BlockId} {a b : LivenessInfo R × Bool}
    (ha : Grows cfg ids info a) (hb : Grows cfg ids a.1 b) :
    Grows cfg ids info (b.1, a.2 || b.2) where
  inflating := hb.inflating
  size_le := ha.size_le.trans hb.size_le
  size_lt h := by
    rcases Bool.or_eq_true _ _ ▸ h with h | h
    · exact (ha.size_lt h).trans_le hb.size_le
    · exact ha.size_le.trans_lt (hb.size_lt h)
  same h := by
    obtain ⟨h1, h2⟩ := Bool.or_eq_false_iff.mp h
    rw [hb.same h2, ha.same h1]

/-- At the start every set may grow. -/
theorem new_inflating (f : MachineFunction R I) :
    (LivenessInfo.new f.blocks : LivenessInfo R).Inflating cfg :=
  fun _ => ⟨Finset.empty_subset _, Finset.empty_subset _⟩

omit [DecidableEq R] in
/-- A set that grows makes the whole larger. -/
theorem size_lt_of_ssubset {next : LivenessInfo R} {ids : List BlockId} {id : BlockId}
    (hid : id ∈ ids) (hin : ∀ id, info.liveIn id ⊆ next.liveIn id)
    (hout : ∀ id, info.liveOut id ⊆ next.liveOut id)
    (h : info.liveIn id ⊂ next.liveIn id ∨ info.liveOut id ⊂ next.liveOut id) :
    info.size ids < next.size ids := by
  refine Finset.sum_lt_sum (fun id _ => ?_) ⟨id, List.mem_toFinset.mpr hid, ?_⟩
  · exact Nat.add_le_add (Finset.card_le_card (hin id)) (Finset.card_le_card (hout id))
  · rcases h with h | h
    · exact Nat.add_lt_add_of_lt_of_le (Finset.card_lt_card h) (Finset.card_le_card (hout id))
    · exact Nat.add_lt_add_of_le_of_lt (Finset.card_le_card (hin id)) (Finset.card_lt_card h)

/-- An update changes nothing or lets the set of the block grow. -/
theorem updateLiveout_grows {ids : List BlockId} {id : BlockId} (hid : id ∈ ids)
    (h : info.Inflating cfg) : Grows cfg ids info (info.updateLiveout id (cfg.succs id)) := by
  rw [updateLiveout]
  split
  · next hne =>
    have hout : ∀ id', info.liveOut id' ⊆
        Function.update info.liveOut id (info.newLiveOut (cfg.succs id)) id' := by
      intro id'
      rw [Function.update_apply]
      split
      · next heq => rw [heq]; exact (h id).1
      · exact subset_rfl
    have hlt : info.size ids < LivenessInfo.size { info with
        liveOut := Function.update info.liveOut id (info.newLiveOut (cfg.succs id)) } ids := by
      refine size_lt_of_ssubset hid (fun _ => subset_rfl) hout (Or.inr ?_)
      dsimp only
      rw [Function.update_self]
      exact (h id).1.ssubset_of_ne (Ne.symm hne)
    refine ⟨fun id' => ⟨?_, ?_⟩, hlt.le, fun _ => hlt, fun h => absurd h (by simp)⟩
    · dsimp only
      rw [Function.update_apply]
      split
      · next heq => rw [heq]; exact subset_rfl
      · exact (h id').1
    · exact (h id').2.trans (Finset.union_subset_union_right
        (Finset.sdiff_subset_sdiff (hout id') subset_rfl))
  · exact Grows.refl ids h

/-- More at the starts, more at the ends. -/
theorem newLiveOut_mono {next : LivenessInfo R} (hin : ∀ id, info.liveIn id ⊆ next.liveIn id)
    (succs : HashSet BlockId) : info.newLiveOut succs ⊆ next.newLiveOut succs := by
  intro r hr
  obtain ⟨succ, hs, hr⟩ := mem_newLiveOut.mp hr
  exact mem_newLiveOut.mpr ⟨succ, hs, hin succ hr⟩

/-- The update at the start of a block. -/
theorem updateLivein_grows {ids : List BlockId} {id : BlockId} (hid : id ∈ ids)
    (h : info.Inflating cfg) : Grows cfg ids info (info.updateLivein id) := by
  rw [updateLivein]
  split
  · next hne =>
    have hin : ∀ id', info.liveIn id' ⊆
        Function.update info.liveIn id (info.newLiveIn id) id' := by
      intro id'
      rw [Function.update_apply]
      split
      · next heq => rw [heq]; exact (h id).2
      · exact subset_rfl
    have hlt : info.size ids < LivenessInfo.size { info with
        liveIn := Function.update info.liveIn id (info.newLiveIn id) } ids := by
      refine size_lt_of_ssubset hid hin (fun _ => subset_rfl) (Or.inl ?_)
      dsimp only
      rw [Function.update_self]
      exact (h id).2.ssubset_of_ne (Ne.symm hne)
    refine ⟨fun id' => ⟨?_, ?_⟩, hlt.le, fun _ => hlt, fun h => absurd h (by simp)⟩
    · exact (h id').1.trans (newLiveOut_mono hin _)
    · dsimp only
      rw [Function.update_apply]
      split
      · next heq => rw [heq]; exact subset_rfl
      · exact (h id').2
  · exact Grows.refl ids h

/-- Both of them. -/
theorem updateBlock_grows {ids : List BlockId} {id : BlockId} (hid : id ∈ ids)
    (h : info.Inflating cfg) : Grows cfg ids info (info.updateBlock cfg id) :=
  have hout := updateLiveout_grows hid h
  hout.trans (updateLivein_grows hid hout.inflating)

/-- A block that changes nothing is settled. -/
theorem updateBlock_stableAt {id : BlockId} (h : (info.updateBlock cfg id).2 = false) :
    info.StableAt cfg id := by
  obtain ⟨hout, hin⟩ := Bool.or_eq_false_iff.mp h
  have heq : info.newLiveOut (cfg.succs id) = info.liveOut id := by
    rw [updateLiveout] at hout
    split at hout
    · cases hout
    · next h => exact not_not.mp h
  rw [updateLiveout, if_neg (not_not.mpr heq)] at hin
  refine ⟨heq.symm, ?_⟩
  rw [updateLivein] at hin
  split at hin
  · cases hin
  · next h => exact (not_not.mp h).symm

/-- A round grows the sets, and one that changes nothing has seen the equations hold. -/
theorem round_grows (ids : List BlockId) (h : info.Inflating cfg) :
    Grows cfg ids info (info.round cfg ids) ∧
      ((info.round cfg ids).2 = false → ∀ id ∈ ids, info.StableAt cfg id) := by
  suffices hs : ∀ (l : List BlockId), (∀ id ∈ l, id ∈ ids) →
      ∀ acc : LivenessInfo R × Bool, Grows cfg ids info acc →
      let out := l.foldl (fun acc id =>
        let next := acc.1.updateBlock cfg id; (next.1, acc.2 || next.2)) acc
      Grows cfg ids info out ∧ (out.2 = false → acc.2 = false ∧ ∀ id ∈ l, info.StableAt cfg id) by
    have := hs ids.reverse (fun _ => List.mem_reverse.mp) _ (Grows.refl ids h)
    exact ⟨this.1, fun hf id hid => (this.2 hf).2 id (List.mem_reverse.mpr hid)⟩
  intro l
  induction l with
  | nil => exact fun _ acc hacc => ⟨hacc, fun hf => ⟨hf, fun _ h => absurd h List.not_mem_nil⟩⟩
  | cons id l ih =>
    intro hl acc hacc
    have hstep := updateBlock_grows (hl id List.mem_cons_self) hacc.inflating
    obtain ⟨hgrows, hstable⟩ := ih (fun i hi => hl i (List.mem_cons_of_mem _ hi)) _
      (hacc.trans hstep)
    refine ⟨hgrows, fun hf => ?_⟩
    obtain ⟨hflag, hrest⟩ := hstable hf
    obtain ⟨hacc2, hnext⟩ := Bool.or_eq_false_iff.mp hflag
    refine ⟨hacc2, fun i hi => ?_⟩
    rcases List.mem_cons.mp hi with rfl | hi
    · have := updateBlock_stableAt hnext
      rwa [hacc.same hacc2] at this
    · exact hrest i hi

omit [DecidableEq R] in
/-- There is a bound on the whole. -/
theorem size_le (ids : List BlockId) (h : info.Within regs) :
    info.size ids ≤ 2 * ids.length * regs.card := by
  have hle : info.size ids ≤ ∑ _id ∈ ids.toFinset, 2 * regs.card := by
    refine Finset.sum_le_sum fun id _ => ?_
    have := Finset.card_le_card (h.liveIn id)
    have := Finset.card_le_card (h.liveOut id)
    omega
  rw [Finset.sum_const, smul_eq_mul] at hle
  calc info.size ids ≤ ids.toFinset.card * (2 * regs.card) := hle
    _ ≤ ids.length * (2 * regs.card) := Nat.mul_le_mul_right _ ids.toFinset_card_le
    _ = 2 * ids.length * regs.card := by ring

/-- With more rounds than entries can be added, the loop ends where the equations hold. -/
theorem fixpoint_stable {ids : List BlockId} {fuel : Nat} (h : info.Inflating cfg)
    (hregs : info.Within regs) (hfuel : 2 * ids.length * regs.card < info.size ids + fuel) :
    ∀ id ∈ ids, (info.fixpoint cfg ids fuel).StableAt cfg id := by
  induction fuel generalizing info with
  | zero => exact absurd (size_le ids hregs) (by omega)
  | succ fuel ih =>
    obtain ⟨hgrows, hstable⟩ := round_grows ids h
    rw [fixpoint]
    split
    · next hchanged =>
      exact ih hgrows.inflating (hregs.round cfg ids) (by have := hgrows.size_lt hchanged; omega)
    · next hchanged =>
      have hf := Bool.eq_false_iff.mpr hchanged
      rw [hgrows.same hf]
      exact hstable hf

end LivenessInfo

/-- `while changed` comes to rest, in a solution of the liveness equations. -/
theorem livenessAnalysis_stable {f : MachineFunction R I} {info : LivenessInfo R}
    (h : livenessAnalysis f = some info) :
    ∃ cfg, computeCfg f = some cfg ∧ ∀ block ∈ f.blocks, info.StableAt cfg block.id := by
  simp only [livenessAnalysis, Option.pure_def, Option.bind_eq_bind,
    Option.bind_eq_some_iff, Option.some.injEq] at h
  obtain ⟨cfg, hcfg, rfl⟩ := h
  refine ⟨cfg, hcfg, fun block hb => ?_⟩
  refine LivenessInfo.fixpoint_stable (LivenessInfo.new_inflating f)
    (LivenessInfo.new_within f) ?_ block.id (List.mem_map_of_mem hb)
  rw [List.length_map, livenessFuel]
  omega

/-- Only registers of the function are live. -/
theorem livenessAnalysis_within {f : MachineFunction R I} {info : LivenessInfo R}
    (h : livenessAnalysis f = some info) : info.Within f.regs := by
  simp only [livenessAnalysis, Option.pure_def, Option.bind_eq_bind,
    Option.bind_eq_some_iff, Option.some.injEq] at h
  obtain ⟨cfg, -, rfl⟩ := h
  exact (LivenessInfo.new_within f).fixpoint _ _ _

/-- The same inside a block. -/
theorem liveBefore_subset {liveOut regs : Finset (Register R)} {insts : List I}
    (hout : liveOut ⊆ regs) (huse : ∀ i ∈ insts, ∀ r ∈ useRegs i, r ∈ regs) :
    liveBefore liveOut insts ⊆ regs := by
  induction insts with
  | nil => exact hout
  | cons inst rest ih =>
    refine Finset.union_subset (fun r hr => ?_) (Finset.sdiff_subset.trans (ih ?_))
    · exact huse inst List.mem_cons_self r (List.mem_toFinset.mp hr)
    · exact fun i hi => huse i (List.mem_cons_of_mem _ hi)

/-- The entries of `live_after` of a block: at every split, what the rest of the block makes
live. -/
theorem mem_liveAfter_iff {info : LivenessInfo R} {block : MachineBlock I} {inst : I}
    {live : Finset (Register R)} :
    (inst, live) ∈ info.liveAfter block ↔
      ∃ pre rest, block.instructions = pre ++ inst :: rest ∧
        live = liveBefore (info.liveOut block.id) rest := by
  rw [LivenessInfo.liveAfter]
  generalize info.liveOut block.id = liveOut
  generalize block.instructions = insts
  induction insts with
  | nil => simp [liveAfterEach]
  | cons i insts ih =>
    rw [liveAfterEach, List.zip_cons_cons, List.mem_cons, ih]
    constructor
    · rintro (h | ⟨pre, rest, rfl, rfl⟩)
      · obtain ⟨rfl, rfl⟩ := Prod.mk.inj h
        exact ⟨[], insts, rfl, rfl⟩
      · exact ⟨i :: pre, rest, rfl, rfl⟩
    · rintro ⟨pre, rest, h, rfl⟩
      cases pre with
      | nil =>
        obtain ⟨rfl, rfl⟩ := List.cons.inj h
        exact Or.inl rfl
      | cons j pre =>
        obtain ⟨rfl, rfl⟩ := List.cons.inj h
        exact Or.inr ⟨pre, rest, rfl, rfl⟩

end Mir
