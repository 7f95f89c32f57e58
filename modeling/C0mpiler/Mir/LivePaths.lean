import C0mpiler.Flow.Until
import C0mpiler.Mir.Liveness
import C0mpiler.Mir.Rv64i
import Mathlib

/-!
# Liveness along paths

What `live_after` means. A path goes from instruction to instruction of a block, and from the end
of a block to the start of one of the successors that its trailing terminators name. A register is
live at a point where a path leads to an instruction that reads it, past none that writes it.

The iteration starts from empty sets and only adds registers that are live in this sense
(`Sound`), so it ends below the path definition; the equations in which it comes to rest carry a
use backwards along any path, so it ends above it.
-/

namespace Mir

variable {R I : Type} [DecidableEq R] [LoweringTarget R I]

/-- A point of a function: before the instruction with this index, or behind the last one. -/
structure Pos where
  block : BlockId
  index : Nat

namespace MachineFunction

variable (f : MachineFunction R I)

/-- The instruction at a point. -/
def InstAt (p : Pos) (inst : I) : Prop :=
  ∃ block ∈ f.blocks, block.id = p.block ∧ block.instructions[p.index]? = some inst

/-- A step of the control flow: to the next instruction, or from the end of a block to a successor.
-/
inductive Follows : Pos → Pos → Prop
  | next {block : MachineBlock I} {index : Nat} (hb : block ∈ f.blocks)
      (hindex : index < block.instructions.length) :
      Follows ⟨block.id, index⟩ ⟨block.id, index + 1⟩
  | leave {block : MachineBlock I} {succs : List BlockId} {succ : BlockId} (hb : block ∈ f.blocks)
      (hsuccs : blockSuccs block.instructions = some succs) (hmem : succ ∈ succs) :
      Follows ⟨block.id, block.instructions.length⟩ ⟨succ, 0⟩

/-- The instruction at the place reads the register. -/
def Reads (r : Register R) (p : Pos) : Prop :=
  ∃ inst, f.InstAt p inst ∧ r ∈ useRegs inst

/-- The point is passed without a write to the register. -/
def Keeps (r : Register R) (p : Pos) : Prop :=
  ∀ inst, f.InstAt p inst → r ∉ defRegs inst

/-- Some path from the point reaches a use of the register before any definition of it. -/
def LiveAt (r : Register R) (p : Pos) : Prop :=
  Flow.Until f.Follows (f.Keeps r) (f.Reads r) p

end MachineFunction

/-- The terminators at the end of a block. -/
def trailingTerminators (insts : List I) : List I :=
  insts.reverse.takeWhile isTerminator

/-! ## The loop, run until nothing changes -/

/-- `while changed`; `none` where the loop has not ended after `fuel` rounds. -/
def LivenessInfo.whileChanged (cfg : ControlFlowGraph) (ids : List BlockId) :
    Nat → LivenessInfo R → Option (LivenessInfo R)
  | 0, _ => none
  | fuel + 1, info =>
    let next := info.round cfg ids
    if next.2 then whileChanged cfg ids fuel next.1 else some next.1

/-- `compute_live_after`: the entries of `live_after`, by the location of the instruction. -/
def LivenessInfo.computeLiveAfter (info : LivenessInfo R) (f : MachineFunction R I) :
    HashMap (BlockId × Nat) (Finset (Register R)) :=
  HashMap.collect <| f.blocks.flatMap fun block =>
    (info.liveAfter block).mapIdx fun index entry => ((block.id, index), entry.2)

/-- `liveness_analysis`, with at most `fuel` rounds: the table of `get_live_after`. -/
def livenessLoop (f : MachineFunction R I) (fuel : Nat) :
    Option (HashMap (BlockId × Nat) (Finset (Register R))) := do
  let cfg ← computeCfg f
  let info ← (LivenessInfo.new f.blocks).whileChanged cfg (f.blocks.map (·.id)) fuel
  return info.computeLiveAfter f

namespace LivenessInfo

variable {info : LivenessInfo R} {cfg : ControlFlowGraph}

/-- The bound on the rounds is never reached: the loop ends with what the bounded one gives. -/
theorem whileChanged_eq_fixpoint {regs : Finset (Register R)} {ids : List BlockId} {fuel : Nat}
    (h : info.Inflating cfg) (hregs : info.Within regs)
    (hfuel : 2 * ids.length * regs.card < info.size ids + fuel) :
    info.whileChanged cfg ids fuel = some (info.fixpoint cfg ids fuel) := by
  induction fuel generalizing info with
  | zero => exact absurd (size_le ids hregs) (by omega)
  | succ fuel ih =>
    obtain ⟨hgrows, -⟩ := round_grows ids h
    rw [fixpoint, whileChanged]
    split
    · next hchanged =>
      exact ih hgrows.inflating (hregs.round cfg ids) (by have := hgrows.size_lt hchanged; omega)
    · rfl

/-- More fuel, the same result. -/
theorem whileChanged_mono {ids : List BlockId} {fuel fuel' : Nat} {out : LivenessInfo R}
    (hle : fuel ≤ fuel') (h : info.whileChanged cfg ids fuel = some out) :
    info.whileChanged cfg ids fuel' = some out := by
  induction fuel generalizing info fuel' with
  | zero => cases h
  | succ fuel ih =>
    obtain ⟨fuel', rfl⟩ : ∃ n, fuel' = n + 1 := ⟨fuel' - 1, by omega⟩
    rw [whileChanged] at h ⊢
    split at h
    · next hchanged =>
      rw [if_pos hchanged]
      exact ih (by omega) h
    · next hchanged =>
      rw [if_neg hchanged]
      exact h

/-! ## The summaries of a block and its backward scan -/

/-- The registers live at the start of a block, from the summary of its uses and definitions. -/
theorem liveBefore_eq (out : Finset (Register R)) (insts : List I) :
    liveBefore out insts = (blockUsesDefs insts).1 ∪ out \ (blockUsesDefs insts).2 := by
  suffices h : ∀ acc : Finset (Register R) × Finset (Register R),
      let sum := insts.foldl (fun acc inst =>
        (acc.1 ∪ (useRegs inst).toFinset \ acc.2, acc.2 ∪ (defRegs inst).toFinset)) acc
      acc.1 ∪ liveBefore out insts \ acc.2 = sum.1 ∪ out \ sum.2 by
    simpa [blockUsesDefs] using h (∅, ∅)
  induction insts with
  | nil => exact fun acc => rfl
  | cons inst insts ih =>
    intro acc
    rw [List.foldl_cons]
    refine Eq.trans ?_
      (ih (acc.1 ∪ (useRegs inst).toFinset \ acc.2, acc.2 ∪ (defRegs inst).toFinset))
    ext r
    simp only [liveBefore, Finset.mem_union, Finset.mem_sdiff]
    tauto

/-- A table with one entry for each block. -/
theorem foldl_update_of_nodup {α : Type} {g : MachineBlock I → Finset α}
    {blocks : List (MachineBlock I)} (hids : (blocks.map (·.id)).Nodup) {block : MachineBlock I}
    (hb : block ∈ blocks) (m : BlockId → Finset α) :
    blocks.foldl (fun m block => Function.update m block.id (g block)) m block.id = g block := by
  induction blocks generalizing m with
  | nil => cases hb
  | cons b blocks ih =>
    obtain ⟨hnot, hids⟩ := List.nodup_cons.mp hids
    rcases List.mem_cons.mp hb with rfl | hb
    · -- the later blocks have other ids
      have hkeep : ∀ (l : List (MachineBlock I)) (m : BlockId → Finset α),
          block.id ∉ l.map (·.id) →
          l.foldl (fun m block => Function.update m block.id (g block)) m block.id =
            m block.id := by
        intro l
        induction l with
        | nil => exact fun _ _ => rfl
        | cons c l ihl =>
          intro m hc
          rw [List.map_cons, List.mem_cons, not_or] at hc
          rw [List.foldl_cons, ihl _ hc.2, Function.update_of_ne hc.1]
      rw [List.foldl_cons, hkeep _ _ hnot, Function.update_self]
    · exact ih hids hb _

/-- The uses and definitions recorded for the blocks are those of their instructions. -/
def Summarised (info : LivenessInfo R) (f : MachineFunction R I) : Prop :=
  ∀ block ∈ f.blocks, info.uses block.id = (blockUsesDefs block.instructions).1 ∧
    info.defs block.id = (blockUsesDefs block.instructions).2

/-- The sets at the start sum up the blocks. -/
theorem new_summarised {f : MachineFunction R I} (hids : (f.blocks.map (·.id)).Nodup) :
    (LivenessInfo.new f.blocks : LivenessInfo R).Summarised f :=
  fun _ hb => ⟨foldl_update_of_nodup hids hb _, foldl_update_of_nodup hids hb _⟩

variable {f : MachineFunction R I}

/-- The new set at the start is the block run backwards. -/
theorem Summarised.newLiveIn (h : info.Summarised f) {block : MachineBlock I}
    (hb : block ∈ f.blocks) :
    info.newLiveIn block.id = liveBefore (info.liveOut block.id) block.instructions := by
  obtain ⟨huses, hdefs⟩ := h block hb
  rw [liveBefore_eq, LivenessInfo.newLiveIn, huses, hdefs]

end LivenessInfo

/-! ## No register is live without a path -/

variable {f : MachineFunction R I}

section Sound

omit [DecidableEq R] [LoweringTarget R I] in
/-- There is one instruction at a place. -/
theorem instAt_unique (hids : (f.blocks.map (·.id)).Nodup) {block : MachineBlock I}
    (hb : block ∈ f.blocks) {index : Nat} {inst : I} (h : f.InstAt ⟨block.id, index⟩ inst) :
    block.instructions[index]? = some inst := by
  obtain ⟨block', hb', hid, hinst⟩ := h
  obtain rfl := List.inj_on_of_nodup_map hids hb' hb hid
  exact hinst

/-- The backward scan finds a path, once the registers live behind the block have one. -/
theorem liveAt_of_mem_liveBefore (hids : (f.blocks.map (·.id)).Nodup) {block : MachineBlock I}
    (hb : block ∈ f.blocks) {out : Finset (Register R)} {r : Register R}
    (hout : r ∈ out → f.LiveAt r ⟨block.id, block.instructions.length⟩) {pre rest : List I}
    (hsplit : block.instructions = pre ++ rest) (hr : r ∈ liveBefore out rest) :
    f.LiveAt r ⟨block.id, pre.length⟩ := by
  induction rest generalizing pre with
  | nil =>
    rw [hsplit, List.append_nil] at hout
    exact hout hr
  | cons inst rest ih =>
    have hinst : block.instructions[pre.length]? = some inst := by simp [hsplit]
    rcases Finset.mem_union.mp hr with huse | hlive
    · exact .here ⟨inst, ⟨block, hb, rfl, hinst⟩, List.mem_toFinset.mp huse⟩
    · obtain ⟨hlive, hdef⟩ := Finset.mem_sdiff.mp hlive
      have hnext : f.LiveAt r ⟨block.id, (pre ++ [inst]).length⟩ := ih (by simp [hsplit]) hlive
      rw [List.length_append, List.length_singleton] at hnext
      refine .step (fun inst' hat => ?_) (.next hb (by simp [hsplit])) hnext
      have hsame := instAt_unique hids hb hat
      rw [hinst] at hsame
      cases hsame
      exact fun h => hdef (List.mem_toFinset.mpr h)

/-- Every register of the sets is live along some path. -/
structure LivenessInfo.Sound (info : LivenessInfo R) (f : MachineFunction R I) : Prop where
  summarised : info.Summarised f
  liveIn : ∀ id, ∀ r ∈ info.liveIn id, f.LiveAt r ⟨id, 0⟩
  liveOut : ∀ block ∈ f.blocks, ∀ r ∈ info.liveOut block.id,
    f.LiveAt r ⟨block.id, block.instructions.length⟩

namespace LivenessInfo

variable {info : LivenessInfo R} {cfg : ControlFlowGraph}

/-- At the start nothing is claimed live. -/
theorem new_sound (hids : (f.blocks.map (·.id)).Nodup) :
    (LivenessInfo.new f.blocks : LivenessInfo R).Sound f :=
  ⟨new_summarised hids, fun _ r hr => absurd hr (Finset.notMem_empty r),
    fun _ _ r hr => absurd hr (Finset.notMem_empty r)⟩

/-- An update adds only what a path from the block reads. -/
theorem Sound.updateLiveout (h : info.Sound f) (hids : (f.blocks.map (·.id)).Nodup)
    (hcfg : computeCfg f = some cfg) (id : BlockId) :
    (info.updateLiveout id (cfg.succs id)).1.Sound f := by
  rw [LivenessInfo.updateLiveout]
  split
  · refine ⟨h.summarised, h.liveIn, fun block hb r hr => ?_⟩
    dsimp only at hr
    rw [Function.update_apply] at hr
    split at hr
    · next hid =>
      obtain ⟨succ, hsucc, hr⟩ := mem_newLiveOut.mp hr
      obtain ⟨block', hb', hid', succs, hsuccs, hmem⟩ := (mem_succs_iff hcfg).mp hsucc
      obtain rfl := List.inj_on_of_nodup_map hids hb' hb (hid'.trans hid.symm)
      -- behind the last instruction there is none that could write the register
      refine .step (fun inst hat => ?_) (.leave hb hsuccs hmem) (h.liveIn succ r hr)
      have hend := instAt_unique hids hb hat
      rw [List.getElem?_eq_none le_rfl] at hend
      cases hend
    · exact h.liveOut block hb r hr
  · exact h

/-- The same at the start of the block. -/
theorem Sound.updateLivein (h : info.Sound f) (hids : (f.blocks.map (·.id)).Nodup)
    {block : MachineBlock I} (hb : block ∈ f.blocks) :
    (info.updateLivein block.id).1.Sound f := by
  rw [LivenessInfo.updateLivein]
  split
  · refine ⟨h.summarised, fun id r hr => ?_, h.liveOut⟩
    dsimp only at hr
    rw [Function.update_apply] at hr
    split at hr
    · next hid =>
      rw [h.summarised.newLiveIn hb] at hr
      rw [hid]
      exact liveAt_of_mem_liveBefore hids hb (h.liveOut block hb r) (List.nil_append _).symm hr
    · exact h.liveIn id r hr
  · exact h

/-- So does the whole fixpoint. -/
theorem Sound.fixpoint (hids : (f.blocks.map (·.id)).Nodup) (hcfg : computeCfg f = some cfg)
    (fuel : Nat) (h : info.Sound f) :
    (info.fixpoint cfg (f.blocks.map (·.id)) fuel).Sound f := by
  refine fixpoint_induct (P := fun info => info.Sound f) (fun info id hid h => ?_) fuel h
  obtain ⟨block, hb, rfl⟩ := List.mem_map.mp hid
  exact (h.updateLiveout hids hcfg _).updateLivein hids hb

end LivenessInfo

/-- What the analysis finds live is live along a path. -/
theorem livenessAnalysis_sound (hids : (f.blocks.map (·.id)).Nodup) {info : LivenessInfo R}
    (h : livenessAnalysis f = some info) : info.Sound f := by
  obtain ⟨cfg, hcfg, heq⟩ := Option.bind_eq_some_iff.mp h
  cases heq
  exact (LivenessInfo.new_sound hids).fixpoint hids hcfg (livenessFuel f)

end Sound

/-! ## Every path is seen -/

section Complete

variable {info : LivenessInfo R} {cfg : ControlFlowGraph}

/-- Where the equations hold, a use is carried backwards along every path. -/
theorem mem_liveBefore_of_liveAt (hids : (f.blocks.map (·.id)).Nodup)
    (hcfg : computeCfg f = some cfg) (hsum : info.Summarised f)
    (hstable : ∀ block ∈ f.blocks, info.StableAt cfg block.id) {r : Register R} {p : Pos}
    (h : f.LiveAt r p) {block : MachineBlock I} (hb : block ∈ f.blocks) (hid : block.id = p.block) :
    r ∈ liveBefore (info.liveOut block.id) (block.instructions.drop p.index) := by
  suffices hex : ∃ block ∈ f.blocks, block.id = p.block ∧
      r ∈ liveBefore (info.liveOut block.id) (block.instructions.drop p.index) by
    obtain ⟨block', hb', hid', hr⟩ := hex
    obtain rfl := List.inj_on_of_nodup_map hids hb' hb (hid'.trans hid.symm)
    exact hr
  clear hb hid block
  refine Flow.Until.induct (P := fun p => ∃ block ∈ f.blocks, block.id = p.block ∧
    r ∈ liveBefore (info.liveOut block.id) (block.instructions.drop p.index)) h ?_ ?_
  -- the register is read here
  · rintro u ⟨inst, ⟨block, hb, hid, hinst⟩, huse⟩
    refine ⟨block, hb, hid, ?_⟩
    obtain ⟨hlt, hget⟩ := List.getElem?_eq_some_iff.mp hinst
    rw [List.drop_eq_getElem_cons hlt, hget]
    exact Finset.mem_union_left _ (List.mem_toFinset.mpr huse)
  -- it is read later and not written here, so the step behind decides
  · rintro u v hkeep hstep ⟨block', hb', hid', hr⟩
    cases hstep with
    | @next block index hb hindex =>
      obtain rfl := List.inj_on_of_nodup_map hids hb' hb hid'
      refine ⟨block', hb', rfl, ?_⟩
      dsimp only at hr ⊢
      rw [List.drop_eq_getElem_cons hindex]
      refine Finset.mem_union_right _ (Finset.mem_sdiff.mpr ⟨hr, fun hdef => ?_⟩)
      have hat : f.InstAt ⟨block'.id, index⟩ block'.instructions[index] :=
        ⟨block', hb', rfl, List.getElem?_eq_getElem hindex⟩
      exact hkeep _ hat (List.mem_toFinset.mp hdef)
    | @leave block succs succ hb hsuccs hmem =>
      refine ⟨block, hb, rfl, ?_⟩
      dsimp only at hid' hr ⊢
      subst hid'
      rw [List.drop_length, liveBefore, (hstable block hb).1]
      refine LivenessInfo.mem_newLiveOut.mpr
        ⟨block'.id, (mem_succs_iff hcfg).mpr ⟨block, hb, rfl, succs, hsuccs, hmem⟩, ?_⟩
      rw [List.drop_zero] at hr
      rw [(hstable block' hb').2, hsum.newLiveIn hb']
      exact hr

end Complete

/-! ## The table of `live_after` -/

/-- The set behind each instruction. -/
theorem getElem?_liveAfterEach (out : Finset (Register R)) (insts : List I) {index : Nat}
    (h : index < insts.length) :
    (liveAfterEach out insts)[index]? = some (liveBefore out (insts.drop (index + 1))) := by
  induction insts generalizing index with
  | nil => exact absurd h (Nat.not_lt_zero _)
  | cons inst insts ih =>
    cases index with
    | zero => rfl
    | succ index => exact ih (Nat.lt_of_succ_lt_succ h)

/-- The entry of an instruction is what the rest of its block makes live. -/
theorem lookup_computeLiveAfter (info : LivenessInfo R) (hids : (f.blocks.map (·.id)).Nodup)
    {block : MachineBlock I} (hb : block ∈ f.blocks) {index : Nat}
    (h : index < block.instructions.length) :
    (info.computeLiveAfter f).lookup (block.id, index) =
      some (liveBefore (info.liveOut block.id) (block.instructions.drop (index + 1))) := by
  have hnodup : ((f.blocks.flatMap fun block => (info.liveAfter block).mapIdx
      fun index entry => ((block.id, index), entry.2)).map Prod.fst).Nodup := by
    rw [List.map_flatMap, List.nodup_flatMap]
    refine ⟨fun block _ => ?_, ?_⟩
    · rw [List.nodup_iff_getElem?_ne_getElem?]
      intro i j hij hj
      rw [List.length_map, List.length_mapIdx] at hj
      simp only [List.getElem?_map, List.getElem?_mapIdx, List.getElem?_eq_getElem hj,
        List.getElem?_eq_getElem (hij.trans hj), Option.map_some]
      intro heq
      cases heq
      exact lt_irrefl _ hij
    · refine (List.pairwise_map.mp hids).imp fun {a b} hne => ?_
      intro k ha hb
      simp only [List.mem_map, List.mem_mapIdx] at ha hb
      obtain ⟨-, ⟨i, hi, rfl⟩, rfl⟩ := ha
      obtain ⟨-, ⟨j, hj, rfl⟩, heq⟩ := hb
      exact hne (Prod.mk.inj heq).1.symm
  rw [LivenessInfo.computeLiveAfter, HashMap.lookup_collect hnodup]
  have hentry : (info.liveAfter block)[index]? = some (block.instructions[index],
      liveBefore (info.liveOut block.id) (block.instructions.drop (index + 1))) :=
    List.getElem?_zip_eq_some.mpr ⟨List.getElem?_eq_getElem h, getElem?_liveAfterEach _ _ h⟩
  refine List.mem_flatMap.mpr ⟨block, hb, List.mem_iff_getElem?.mpr ⟨index, ?_⟩⟩
  rw [List.getElem?_mapIdx, hentry]
  rfl

/-- **`live_after` is liveness along paths**: for a function whose blocks have ids of their own and
trailing terminators with known successors, `while changed` ends, and the entry of every
instruction holds exactly the registers that some path behind it reads before writing them. -/
theorem livenessLoop_paths (f : MachineFunction R I) (hids : (f.blocks.map (·.id)).Nodup)
    (hsuccs : ∀ block ∈ f.blocks, ∀ i ∈ trailingTerminators block.instructions,
      ∃ succs, getSuccessors i = some succs) :
    ∃ liveAfter, (∀ fuel, livenessFuel f ≤ fuel → livenessLoop f fuel = some liveAfter) ∧
      ∀ block ∈ f.blocks, ∀ i < block.instructions.length, ∃ live,
        liveAfter.lookup (block.id, i) = some live ∧
          ∀ r, r ∈ live ↔ f.LiveAt r ⟨block.id, i + 1⟩ := by
  obtain ⟨cfg, hcfg⟩ := computeCfg_returns fun block hb =>
    (blockSuccs_eq_some (hsuccs block hb)).imp fun _ h => h.1
  have hfuel : 2 * (f.blocks.map (·.id)).length * f.regs.card <
      LivenessInfo.size (LivenessInfo.new f.blocks) (f.blocks.map (·.id)) + livenessFuel f := by
    rw [List.length_map, livenessFuel]
    omega
  have hinflating : (LivenessInfo.new f.blocks : LivenessInfo R).Inflating cfg :=
    LivenessInfo.new_inflating f
  have hwithin : (LivenessInfo.new f.blocks : LivenessInfo R).Within f.regs :=
    LivenessInfo.new_within f
  have hloop := LivenessInfo.whileChanged_eq_fixpoint hinflating hwithin hfuel
  have hstable := LivenessInfo.fixpoint_stable hinflating hwithin hfuel
  have hsound := (LivenessInfo.new_sound hids).fixpoint hids hcfg (livenessFuel f)
  generalize LivenessInfo.fixpoint (R := R) cfg _ _ _ = info at hloop hstable hsound
  refine ⟨info.computeLiveAfter f, fun fuel hle => ?_, fun block hb i hi =>
    ⟨_, lookup_computeLiveAfter _ hids hb hi, fun r => ⟨fun hr => ?_, fun h => ?_⟩⟩⟩
  · have hrun := LivenessInfo.whileChanged_mono hle hloop
    exact Option.bind_eq_some_iff.mpr
      ⟨cfg, hcfg, Option.bind_eq_some_iff.mpr ⟨info, hrun, rfl⟩⟩
  · have hlen : (block.instructions.take (i + 1)).length = i + 1 := by
      rw [List.length_take]
      omega
    have hlive := liveAt_of_mem_liveBefore hids hb (hsound.liveOut block hb r)
      (List.take_append_drop (i + 1) block.instructions).symm hr
    rwa [hlen] at hlive
  · exact mem_liveBefore_of_liveAt hids hcfg hsound.summarised
      (fun block hb => hstable block.id (List.mem_map_of_mem hb)) h hb rfl

/-! ## A loop, and a jump to an unknown place -/

/-- A counter that is decremented until it is zero. -/
def countdownFn : MachineFunction RV64Reg RV64Inst where
  blocks :=
    [⟨0, [.li (.virtual 0) 9, .jal (.physical .zero) 1]⟩,
     ⟨1, [.addi (.virtual 0) (.virtual 0) (-1), .bne (.virtual 0) (.physical .zero) 1,
        .jal (.physical .zero) 2]⟩,
     ⟨2, [.ret]⟩]
  vregCounter := 1
  entry := 0
  frameInfo := ⟨[], 0, [], false⟩

theorem livenessLoop_paths_countdown :
    ∃ liveAfter,
      (∀ fuel, livenessFuel countdownFn ≤ fuel → livenessLoop countdownFn fuel = some liveAfter) ∧
      ∀ block ∈ countdownFn.blocks, ∀ i < block.instructions.length, ∃ live,
        liveAfter.lookup (block.id, i) = some live ∧
          ∀ r, r ∈ live ↔ countdownFn.LiveAt r ⟨block.id, i + 1⟩ := by
  refine livenessLoop_paths countdownFn (by decide) ?_
  have hall : ∀ block ∈ countdownFn.blocks, ∀ i ∈ trailingTerminators block.instructions,
      (getSuccessors i).isSome := by decide
  exact fun block hb i hi => Option.isSome_iff_exists.mp (hall block hb i hi)

/-- A block that ends in an indirect jump. -/
def jalrFn : MachineFunction RV64Reg RV64Inst where
  blocks := [⟨0, [.jalr (.physical .zero) (.physical .a0) 0]⟩]
  vregCounter := 0
  entry := 0
  frameInfo := ⟨[], 0, [], false⟩

/-- The analysis does not return on a function with an indirect jump. -/
theorem livenessLoop_not_returns :
    ¬ ∀ f : MachineFunction RV64Reg RV64Inst, ∃ fuel liveAfter,
      livenessLoop f fuel = some liveAfter := by
  intro h
  obtain ⟨fuel, liveAfter, hrun⟩ := h jalrFn
  cases hrun

end Mir
