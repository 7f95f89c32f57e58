import C0mpiler.Mir.BlockRuns
import Mathlib

/-!
# Branch relaxation is sound

A round that changes a function puts a springboard behind the block of a branch. So the blocks
stay grouped into clusters, a block of the input with the springboards of its own branches behind
it (`Cluster`). A branch that stands near the end of its block reaches its springboard, so each
branch is rewritten once at most and the loop ends; the springboards are the only new stops of a
run, and what is removed afterwards only brings blocks closer together.
-/

namespace Mir

variable {R I σ : Type} [RelaxTarget R I]

/-- A conditional branch. -/
def isBranch (inst : I) : Bool :=
  (getBranchTarget inst).isSome

/-- How many of them. -/
def branchCount (insts : List I) : Nat :=
  insts.countP isBranch

/-- Every branch of the block stands so near to its end that it reaches over the springboards of
the other branches of the block. -/
def MachineBlock.ShortTails (block : MachineBlock I) : Prop :=
  ∀ before inst after, block.instructions = before ++ inst :: after → isBranch inst = true →
    codeSize sizeInBytes (inst :: after) + 4 * (branchCount block.instructions - 1) ≤ 4095

/-! ## What a round leaves as it is -/

section Round

variable [LawfulRelax R I] {f g : MachineFunction R I}

/-- A branch stays one. -/
theorem isBranch_set {inst : I} (h : isBranch inst = true) (l : BlockId) :
    isBranch (setBranchTarget l inst) = true := by
  obtain ⟨t, ht⟩ := Option.isSome_iff_exists.mp h
  rw [isBranch, LawfulRelax.getBranchTarget_set ht]
  rfl

omit [LawfulRelax R I] in
/-- The blocks after a round: the old ones, one of them with another branch label, and a new one
with the next id. -/
theorem MachineFunction.Springs.ids (h : f.Springs g) :
    (g.blocks.map (·.id)).Perm (f.blocks.length :: f.blocks.map (·.id)) := by
  obtain ⟨pre, block, post, before, inst, after, -, target, -, hsplit, -, -, -, -, rfl⟩ := h
  rw [hsplit]
  simp only [List.map_append, List.map_cons]
  exact (List.perm_middle.trans ((List.perm_middle.trans (List.Perm.refl _)).cons block.id)).trans
    (((List.Perm.swap _ _ _).trans (List.perm_middle.symm.cons _)))

/-- A springboard keeps the labels in order. -/
theorem MachineFunction.Labelled.springs (hf : f.Labelled) (h : f.Springs g) : g.Labelled := by
  have hids := h.ids
  have hfresh : f.blocks.length ∉ f.blocks.map (·.id) := by
    intro hmem
    obtain ⟨block, hb, hid⟩ := List.mem_map.mp hmem
    exact (hf.id_lt block hb).ne hid
  have hlength : g.blocks.length = f.blocks.length + 1 := by
    simpa using hids.length_eq
  refine ⟨hids.nodup_iff.mpr (List.nodup_cons.mpr ⟨hfresh, hf.nodup⟩), fun b hb => ?_, ?_⟩
  · rw [hlength]
    rcases List.mem_cons.mp (hids.mem_iff.mp (List.mem_map_of_mem hb)) with hid | hmem
    · exact Nat.lt_succ_of_le hid.le
    · obtain ⟨b', hb', hid⟩ := List.mem_map.mp hmem
      exact Nat.lt_succ_of_lt (hid.symm.trans_lt (hf.id_lt b' hb'))
  · intro b hb i hi succs hsuccs label hlabel
    refine hids.mem_iff.mpr ?_
    obtain ⟨pre, block, post, before, inst, after, pre', target, post', hsplit, hinsts, htarget,
      ht, -, rfl⟩ := h
    have hold : ∀ b ∈ f.blocks, i ∈ b.instructions →
        label ∈ f.blocks.length :: f.blocks.map (·.id) :=
      fun b hb hi => List.mem_cons_of_mem _ (hf.labels b hb i hi succs hsuccs label hlabel)
    rcases List.mem_append.mp hb with hb | hb
    · exact hold b (by rw [hsplit]; exact List.mem_append_left _ hb) hi
    rcases List.mem_cons.mp hb with rfl | hb
    · have hblock : block ∈ f.blocks := by rw [hsplit]; simp
      rcases List.mem_append.mp hi with hi | hi
      · exact hold block hblock (by rw [hinsts]; exact List.mem_append_left _ hi)
      rcases List.mem_cons.mp hi with rfl | hi
      · -- the branch now names the springboard
        rw [LawfulRelax.getSuccessors_branch (LawfulRelax.getBranchTarget_set ht _)] at hsuccs
        cases hsuccs
        obtain rfl := List.mem_singleton.mp hlabel
        exact List.mem_cons_self
      · exact hold block hblock (by rw [hinsts]; simp [hi])
    rcases List.mem_cons.mp hb with rfl | hb
    · -- the springboard names the old label
      obtain rfl := List.mem_singleton.mp hi
      rw [LawfulRelax.getSuccessors_jump (LawfulRelax.isJumpTo_jump _)] at hsuccs
      cases hsuccs
      obtain rfl := List.mem_singleton.mp hlabel
      exact List.mem_cons_of_mem _ (List.mem_map_of_mem (by rw [htarget]; simp))
    · exact hold b (by rw [hsplit]; simp [hb]) hi

/-- And the ends of the blocks closed. -/
theorem MachineFunction.Closed.springs (hf : f.Closed) (h : f.Springs g) : g.Closed := by
  obtain ⟨pre, block, post, before, inst, after, -, target, -, hsplit, hinsts, -, ht, -, rfl⟩ := h
  have hold : ∀ b ∈ f.blocks, ∃ init inst, b.instructions = init ++ [inst] ∧
      (LoweringTarget.isRet inst = true ∨ ∃ label, isJumpTo inst label = true) := hf
  intro b hb
  rcases List.mem_append.mp hb with hb | hb
  · exact hf b (by rw [hsplit]; simp [hb])
  rcases List.mem_cons.mp hb with rfl | hb
  · obtain ⟨init, last, hlast, hend⟩ := hf block (by rw [hsplit]; simp)
    rcases List.eq_nil_or_concat' after with rfl | ⟨after, i, rfl⟩
    · -- a branch is not the last instruction of its block
      rw [hinsts] at hlast
      obtain ⟨-, hlast⟩ := List.append_inj' hlast rfl
      cases hlast
      obtain hret | ⟨label, hjump⟩ := hend
      · rw [LawfulRelax.isRet_branch ht] at hret
        cases hret
      · rw [LawfulRelax.isJumpTo_branch ht] at hjump
        cases hjump
    · rw [hinsts, ← List.cons_append, ← List.append_assoc] at hlast
      obtain ⟨-, hlast⟩ := List.append_inj' hlast rfl
      cases hlast
      exact ⟨before ++ setBranchTarget f.blocks.length inst :: after, last,
        by simp only [List.append_assoc, List.cons_append], hend⟩
  rcases List.mem_cons.mp hb with rfl | hb
  · exact ⟨[], emitJump target.id, rfl, Or.inr ⟨_, LawfulRelax.isJumpTo_jump _⟩⟩
  · exact hf b (by rw [hsplit]; simp [hb])

/-! ## A round is a detour -/

/-- The run through the block whose branch was rewritten. -/
theorem InstSemantics.runInsts_retarget (sem : InstSemantics I σ) (before after : List I) {inst : I}
    {t : BlockId} (ht : getBranchTarget inst = some t) (n : BlockId) (s : σ) :
    sem.runInsts (before ++ setBranchTarget n inst :: after) s =
        sem.runInsts (before ++ inst :: after) s ∨
      ∃ s', sem.runInsts (before ++ inst :: after) s = .goto t s' ∧
        sem.runInsts (before ++ setBranchTarget n inst :: after) s = .goto n s' := by
  rw [sem.runInsts_append, sem.runInsts_append]
  cases sem.runInsts before s with
  | goto label s' => exact Or.inl rfl
  | leave s' => exact Or.inl rfl
  | next s' =>
    simp only [runInsts]
    rcases sem.outcome_setBranchTarget ht s' with ⟨hgoto, hset⟩ | ⟨hnext, hset⟩
    · rw [hgoto, hset n]
      exact Or.inr ⟨s', rfl, rfl⟩
    · rw [hnext, hset n]
      exact Or.inl rfl

/-- A block that both functions have does the same in both. -/
theorem step_eq_of_mem (sem : InstSemantics I σ) (hf : f.Labelled) (hg : g.Labelled)
    (hclosed : f.Closed) {block : MachineBlock I} (hb : block ∈ f.blocks) (hb' : block ∈ g.blocks)
    (s : σ) : sem.step g (some block.id, s) = sem.step f (some block.id, s) := by
  obtain ⟨pre, post, hsplit⟩ := List.append_of_mem hb
  obtain ⟨pre', post', hsplit'⟩ := List.append_of_mem hb'
  rw [sem.step_split hf.nodup hsplit, sem.step_split hg.nodup hsplit']
  exact sem.runBlock_closed hclosed hb _ _ s

/-- A round against the function before it: the springboard is a step that the old function does not
see. -/
theorem MachineFunction.Springs.detours (sem : InstSemantics I σ) (hf : f.Labelled)
    (hclosed : f.Closed) (h : f.Springs g) {c : Control σ} (hc : f.sees c) :
    Flow.Detours f.sees (sem.step f) (sem.step g) c := by
  have hg := hf.springs h
  obtain ⟨_ | id, s⟩ := c
  · exact rfl
  have hmem : id ∈ f.blocks.map (·.id) := of_decide_eq_true hc
  obtain ⟨b, hb, rfl⟩ := List.mem_map.mp hmem
  obtain ⟨bpre, bpost, hbsplit⟩ := List.append_of_mem hb
  have hf_step : sem.step f (some b.id, s) = sem.runBlock b bpost s :=
    sem.step_split hf.nodup hbsplit s
  have hsees : ∀ d, sem.step f (some b.id, s) = some d → f.sees d := fun d hd =>
    sem.runBlock_sees hf hclosed hb (hf_step ▸ hd)
  obtain ⟨pre, block, post, before, inst, after, pre', target, post', hsplit, hinsts, htarget, ht,
    -, rfl⟩ := h
  have hkept : b ≠ block → b ∈ pre ∨ b ∈ post := by
    intro hne
    rw [hsplit] at hb
    rcases List.mem_append.mp hb with hb | hb
    · exact Or.inl hb
    · exact Or.inr ((List.mem_cons.mp hb).resolve_left hne)
  by_cases hne : b = block
  · subst hne
    -- the block with the branch: its springboard is the only detour
    have hg_step := @InstSemantics.step_split _ _ _ _ sem _ hg.nodup pre _
      { b with instructions := before ++ setBranchTarget f.blocks.length inst :: after } rfl s
    rcases sem.runInsts_retarget before after ht f.blocks.length s with heq | ⟨s', hgoto, hset⟩
    · refine Flow.Detours.of_eq ?_ hsees
      rw [hg_step, hf_step, sem.runBlock_closed hclosed hb bpost
        ({ id := f.blocks.length, instructions := [emitJump target.id] } :: post),
        InstSemantics.runBlock, InstSemantics.runBlock, hinsts, heq]
    · have hf_goto : sem.step f (some b.id, s) = some (some target.id, s') := by
        rw [hf_step, InstSemantics.runBlock, hinsts, hgoto]
      have hhidden : f.sees ((some f.blocks.length, s') : Control σ) = false := by
        refine decide_eq_false fun hmem => ?_
        obtain ⟨block, hb, hid⟩ := List.mem_map.mp hmem
        exact (hf.id_lt block hb).ne hid
      rw [Flow.Detours, hf_goto]
      refine ⟨hsees _ hf_goto, Or.inr ⟨(some f.blocks.length, s'), hhidden, ?_, ?_⟩⟩
      · rw [hg_step, InstSemantics.runBlock, hset]
      · have hboard := @InstSemantics.step_split _ _ _ _ sem _ hg.nodup
          (pre ++ [{ b with instructions := before ++ setBranchTarget f.blocks.length inst :: after }])
          post { id := f.blocks.length, instructions := [emitJump target.id] } (by simp) s'
        rw [hboard, InstSemantics.runBlock, InstSemantics.runInsts,
          sem.outcome_jump (LawfulRelax.isJumpTo_jump _)]
  -- a block without the branch is the same in both
  · refine Flow.Detours.of_eq (step_eq_of_mem sem hf hg hclosed hb ?_ s) hsees
    rcases hkept hne with hb | hb <;> simp [hb]

/-! ## The springboards of a block -/

omit [RelaxTarget R I] [LawfulRelax R I] in
/-- A block stands at one place. -/
theorem split_unique {blocks pre post pre' post' : List (MachineBlock I)}
    {block block' : MachineBlock I} (h : (blocks.map (·.id)).Nodup)
    (hsplit : blocks = pre ++ block :: post) (hsplit' : blocks = pre' ++ block' :: post')
    (hid : block.id = block'.id) : pre = pre' := by
  have hclash : ∀ {pre mid post : List (MachineBlock I)} {b b' : MachineBlock I},
      blocks = pre ++ b :: (mid ++ b' :: post) → b.id ≠ b'.id := by
    rintro pre mid post b b' rfl heq
    rw [List.map_append, List.map_cons, List.map_append, List.map_cons, heq] at h
    exact (List.nodup_middle.mp h).notMem (by simp)
  rcases List.append_eq_append_iff.mp (hsplit.symm.trans hsplit') with
    ⟨mid, hpre, hrest⟩ | ⟨mid, hpre, hrest⟩
  · cases mid with
    | nil => rw [hpre, List.append_nil]
    | cons b mid =>
      obtain ⟨rfl, hpost⟩ := List.cons.inj hrest
      exact absurd hid (hclash (hsplit.trans (by rw [hpost]; rfl)))
  · cases mid with
    | nil => rw [hpre, List.append_nil]
    | cons b mid =>
      obtain ⟨rfl, hpost⟩ := List.cons.inj hrest
      exact absurd hid.symm (hclash (hsplit'.trans (by rw [hpost]; rfl)))

end Round

/-- A block of the input and the springboards behind it. -/
structure Cluster (I : Type) where
  head : MachineBlock I
  boards : List (MachineBlock I)

namespace Cluster

/-- A block with the springboards behind it. -/
def blocks (c : Cluster I) : List (MachineBlock I) :=
  c.head :: c.boards

/-- The branch goes to a springboard of its own block. -/
def owns (c : Cluster I) (inst : I) : Bool :=
  (getBranchTarget inst).any fun t => t ∈ c.boards.map (·.id)

/-- The cluster with these instructions in its head and a new springboard. -/
def spring (c : Cluster I) (insts : List I) (newBlockId oldTarget : BlockId) : Cluster I where
  head := { c.head with instructions := insts }
  boards := { id := newBlockId, instructions := [emitJump oldTarget] } :: c.boards

/-- Each springboard behind a block is there for a branch of the block. -/
structure Wf (c : Cluster I) : Prop where
  boards : ∀ board ∈ c.boards, ∃ label, board.instructions = [emitJump label]
  owned : c.boards.length ≤ c.head.instructions.countP c.owns
  short : c.head.ShortTails

end Cluster

/-- The layout of a function in clusters. -/
def MachineFunction.Clustered (f : MachineFunction R I) (cs : List (Cluster I)) : Prop :=
  f.blocks = cs.flatMap Cluster.blocks ∧ ∀ c ∈ cs, c.Wf

/-- A block of the layout is the head of a cluster or one of its springboards. -/
theorem locate_cluster {cs : List (Cluster I)} {pre post : List (MachineBlock I)}
    {block : MachineBlock I} (h : cs.flatMap Cluster.blocks = pre ++ block :: post) :
    ∃ cs₁ c cs₂, cs = cs₁ ++ c :: cs₂ ∧
      (block ∈ c.boards ∨ pre = cs₁.flatMap Cluster.blocks ∧ block = c.head ∧
        post = c.boards ++ cs₂.flatMap Cluster.blocks) := by
  induction cs generalizing pre with
  | nil => simp at h
  | cons c cs ih =>
    rw [List.flatMap_cons, Cluster.blocks, List.cons_append] at h
    cases pre with
    | nil =>
      obtain ⟨rfl, rfl⟩ := List.cons.inj h
      exact ⟨[], c, cs, rfl, Or.inr ⟨rfl, rfl, rfl⟩⟩
    | cons b pre =>
      obtain ⟨rfl, htail⟩ := List.cons.inj h
      rcases List.append_eq_append_iff.mp htail with ⟨mid, rfl, hrest⟩ | ⟨mid, hboards, hrest⟩
      · -- behind the cluster
        obtain ⟨cs₁, c', cs₂, rfl, hblock⟩ := ih hrest
        refine ⟨c :: cs₁, c', cs₂, rfl, hblock.imp_right fun ⟨hpre, hhead, hpost⟩ => ?_⟩
        exact ⟨by rw [hpre, List.flatMap_cons]; rfl, hhead, hpost⟩
      · cases mid with
        | nil =>
          have hnext : cs.flatMap Cluster.blocks = [] ++ block :: post := hrest.symm
          obtain ⟨cs₁, c', cs₂, rfl, hblock⟩ := ih hnext
          refine ⟨c :: cs₁, c', cs₂, rfl, hblock.imp_right fun ⟨hpre, hhead, hpost⟩ => ?_⟩
          refine ⟨?_, hhead, hpost⟩
          rw [List.flatMap_cons, ← hpre, List.append_nil, Cluster.blocks, hboards, List.append_nil]
        | cons b mid =>
          obtain ⟨rfl, -⟩ := List.cons.inj hrest
          exact ⟨[], c, cs, rfl, Or.inl (by rw [hboards]; simp)⟩

section Clusters

variable [LawfulRelax R I] {f g : MachineFunction R I}

/-- A springboard is one jump. -/
theorem codeSize_boards {boards : List (MachineBlock I)}
    (h : ∀ board ∈ boards, ∃ label, board.instructions = [emitJump label]) :
    blocksSize sizeInBytes boards = 4 * boards.length := by
  induction boards with
  | nil => rfl
  | cons board boards ih =>
    obtain ⟨label, hlabel⟩ := h board List.mem_cons_self
    rw [blocksSize_cons, hlabel, codeSize_cons, codeSize_nil, LawfulRelax.sizeInBytes_jump,
      ih fun b hb => h b (List.mem_cons_of_mem _ hb), List.length_cons]
    omega

omit [LawfulRelax R I] in
/-- What a springboard belongs to is a branch. -/
theorem Cluster.owns_branch {c : Cluster I} {inst : I} (h : c.owns inst = true) :
    isBranch inst = true := by
  rw [Cluster.owns] at h
  rw [isBranch]
  cases ht : getBranchTarget inst with
  | none => rw [ht] at h; cases h
  | some t => rfl

/-- A branch reaches the springboards of its own block. -/
theorem Cluster.Wf.own_inRange {c : Cluster I} (hc : c.Wf) {before after : List I} {inst : I}
    (hinsts : c.head.instructions = before ++ inst :: after) (hbranch : isBranch inst = true)
    {near far : List (MachineBlock I)} {board : MachineBlock I}
    (hboards : c.boards = near ++ board :: far) (start : Nat) :
    InBranchRange I
      ((start + blocksSize sizeInBytes (c.head :: near) : Nat) -
        (start + codeSize sizeInBytes before : Nat)) := by
  have hnear : blocksSize sizeInBytes near = 4 * near.length :=
    codeSize_boards fun b hb => hc.boards b (by rw [hboards]; simp [hb])
  have hlen : near.length + 1 ≤ branchCount c.head.instructions := by
    calc near.length + 1 ≤ c.boards.length := by rw [hboards]; simp
      _ ≤ c.head.instructions.countP c.owns := hc.owned
      _ ≤ branchCount c.head.instructions :=
        List.countP_mono_left fun inst _ howns => owns_branch howns
  have hshort := hc.short before inst after hinsts hbranch
  rw [blocksSize_cons, hinsts, codeSize_append, InBranchRange, LawfulRelax.offsetMin,
    LawfulRelax.offsetMax, hnear]
  omega

omit [LawfulRelax R I] in
/-- Whether the branches of a block are near its end is a matter of sizes and kinds. -/
theorem MachineBlock.ShortTails.congr {b b' : MachineBlock I} (h : b.ShortTails)
    (hshape : b'.instructions.map (fun i => (sizeInBytes i, isBranch i)) =
      b.instructions.map fun i => (sizeInBytes i, isBranch i)) : b'.ShortTails := by
  have hsize : ∀ l : List I, codeSize sizeInBytes l =
      ((l.map fun i => (sizeInBytes i, isBranch i)).map Prod.fst).sum := by
    intro l
    rw [List.map_map]
    rfl
  have hcount : ∀ l : List I, branchCount l =
      (l.map fun i => (sizeInBytes i, isBranch i)).countP Prod.snd := by
    intro l
    rw [List.countP_map]
    rfl
  intro before inst after hinsts hbranch
  have hsplit := hshape.symm
  rw [hinsts, List.map_append, List.map_cons] at hsplit
  obtain ⟨before', rest, hinsts', -, hrest⟩ := List.map_eq_append_iff.mp hsplit
  obtain ⟨inst', after', rfl, hinst, -⟩ := List.map_eq_cons_iff.mp hrest
  have hsame : (inst' :: after').map (fun i => (sizeInBytes i, isBranch i)) =
      (inst :: after).map fun i => (sizeInBytes i, isBranch i) := hrest
  have hnear := h before' inst' after' hinsts' ((congrArg Prod.snd hinst).trans hbranch)
  rwa [hsize, hcount, hsame, ← hshape, ← hsize, ← hcount] at hnear

/-- The cluster of a rewritten branch: one more springboard. -/
theorem Cluster.Wf.spring {c : Cluster I} (hc : c.Wf) {before after : List I} {inst : I}
    (hinsts : c.head.instructions = before ++ inst :: after) {t : BlockId}
    (ht : getBranchTarget inst = some t) (hown : c.owns inst = false) (n : BlockId) :
    (c.spring (before ++ setBranchTarget n inst :: after) n t).Wf := by
  have hbranch : isBranch inst = true := by rw [isBranch, ht]; rfl
  refine ⟨fun board hb => ?_, ?_, hc.short.congr ?_⟩
  · rcases List.mem_cons.mp hb with rfl | hb
    · exact ⟨t, rfl⟩
    · exact hc.boards board hb
  · -- the branch is owned now, and the others as before
    have hmono : ∀ l : List I, l.countP c.owns ≤
        l.countP (c.spring (before ++ setBranchTarget n inst :: after) n t).owns := by
      intro l
      refine List.countP_mono_left fun i _ howns => ?_
      rw [owns] at howns ⊢
      cases hi : getBranchTarget i with
      | none => rw [hi] at howns; cases howns
      | some t' =>
        rw [hi] at howns
        exact decide_eq_true (List.mem_cons_of_mem _ (of_decide_eq_true howns))
    have howned := hc.owned
    rw [hinsts, List.countP_append, List.countP_cons_of_neg (by rw [hown]; exact nofun)] at howned
    change c.boards.length + 1 ≤ (before ++ setBranchTarget n inst :: after).countP
      (c.spring (before ++ setBranchTarget n inst :: after) n t).owns
    rw [List.countP_append, List.countP_cons_of_pos]
    · have := hmono before
      have := hmono after
      omega
    · rw [owns, LawfulRelax.getBranchTarget_set ht]
      exact decide_eq_true List.mem_cons_self
  · simp only [Cluster.spring, hinsts, List.map_append, List.map_cons, LawfulRelax.sizeInBytes_set,
      isBranch_set hbranch, hbranch]

/-- The branches that may still get a springboard. -/
def pending (cs : List (Cluster I)) : Nat :=
  (cs.map fun c => branchCount c.head.instructions - c.boards.length).sum

/-- Each round leaves fewer branches without a springboard. -/
theorem MachineFunction.Clustered.springs {cs : List (Cluster I)} (hcs : f.Clustered cs)
    (hf : f.Labelled) (h : f.Springs g) : ∃ cs', g.Clustered cs' ∧ pending cs' < pending cs := by
  obtain ⟨pre, block, post, before, inst, after, pre', target, post', hsplit, hinsts, htarget, ht,
    hfar, rfl⟩ := h
  obtain ⟨hblocks, hwf⟩ := hcs
  obtain ⟨cs₁, c, cs₂, rfl, hboard | ⟨rfl, rfl, rfl⟩⟩ := locate_cluster (hblocks.symm.trans hsplit)
  · -- a springboard has no branch
    obtain ⟨label, hjump⟩ := (hwf c (by simp)).boards block hboard
    obtain rfl : inst = emitJump label := by
      have hmem : inst ∈ block.instructions := by rw [hinsts]; simp
      rw [hjump] at hmem
      exact List.mem_singleton.mp hmem
    rw [InstSemantics.getBranchTarget_jump (LawfulRelax.isJumpTo_jump label)] at ht
    cases ht
  -- a branch that has a springboard reaches it, so the far one has none
  have hc := hwf c (by simp)
  have hown : c.owns inst = false := by
    rw [Cluster.owns, ht]
    refine decide_eq_false fun hmem => hfar ?_
    obtain ⟨board, hboard, hid⟩ := List.mem_map.mp hmem
    obtain ⟨near, far, hboards⟩ := List.append_of_mem hboard
    have hplace : f.blocks = (cs₁.flatMap Cluster.blocks ++ c.head :: near) ++
        board :: (far ++ cs₂.flatMap Cluster.blocks) := by
      rw [hsplit, hboards]
      simp only [List.append_assoc, List.cons_append]
    rw [split_unique hf.nodup htarget hplace hid.symm, blocksSize_append]
    exact hc.own_inRange hinsts (by rw [isBranch, ht]; rfl) hboards _
  have hc' := hc.spring hinsts ht hown f.blocks.length
  refine ⟨cs₁ ++ c.spring (before ++ setBranchTarget f.blocks.length inst :: after)
    f.blocks.length target.id :: cs₂, ⟨?_, fun d hd => ?_⟩, ?_⟩
  · simp only [List.flatMap_append, List.flatMap_cons, Cluster.blocks, Cluster.spring,
      List.cons_append]
  · rcases List.mem_append.mp hd with hd | hd
    · exact hwf d (by simp [hd])
    rcases List.mem_cons.mp hd with rfl | hd
    · exact hc'
    · exact hwf d (by simp [hd])
  · have hbound : c.boards.length + 1 ≤
        branchCount (before ++ setBranchTarget f.blocks.length inst :: after) :=
      hc'.owned.trans (List.countP_mono_left fun i _ howns => Cluster.owns_branch howns)
    have hcount : branchCount (before ++ setBranchTarget f.blocks.length inst :: after) =
        branchCount c.head.instructions := by
      have hbranch : isBranch inst = true := by rw [isBranch, ht]; rfl
      simp only [branchCount, hinsts, List.countP_append,
        List.countP_cons_of_pos (isBranch_set hbranch _), List.countP_cons_of_pos hbranch]
    simp only [pending, Cluster.spring, List.map_append, List.map_cons, List.sum_append,
      List.sum_cons, List.length_cons]
    omega

end Clusters

/-! ## Smaller code -/

section Shrink

/-- The block has lost instructions at its end. -/
def MachineBlock.Shrunk (block' block : MachineBlock I) : Prop :=
  block'.id = block.id ∧ block'.instructions <+: block.instructions

omit [RelaxTarget R I] in
/-- Two lists, side by side. -/
theorem forall₂_append {r : MachineBlock I → MachineBlock I → Prop}
    {l₁ l₂ l : List (MachineBlock I)} (h : List.Forall₂ r (l₁ ++ l₂) l) :
    ∃ m₁ m₂, l = m₁ ++ m₂ ∧ List.Forall₂ r l₁ m₁ ∧ List.Forall₂ r l₂ m₂ := by
  induction l₁ generalizing l with
  | nil => exact ⟨[], l, rfl, .nil, h⟩
  | cons b l₁ ih =>
    obtain ⟨b', l', hb, hl, rfl⟩ := List.forall₂_cons_left_iff.mp h
    obtain ⟨m₁, m₂, rfl, h₁, h₂⟩ := ih hl
    exact ⟨b' :: m₁, m₂, rfl, .cons hb h₁, h₂⟩

variable {size : I → Nat} (hsize : ∀ inst, size inst ≤ sizeInBytes inst)
include hsize

/-- Fewer instructions, less code. -/
theorem codeSize_mono {l' l : List I} (h : l' <+: l) :
    codeSize size l' ≤ codeSize sizeInBytes l := by
  obtain ⟨rest, rfl⟩ := h
  rw [codeSize_append]
  exact Nat.le_add_right_of_le (List.sum_le_sum fun inst _ => hsize inst)

/-- The same for blocks. -/
theorem blocksSize_le_of_shrunk {l' l : List (MachineBlock I)}
    (h : List.Forall₂ MachineBlock.Shrunk l' l) :
    blocksSize size l' ≤ blocksSize sizeInBytes l := by
  induction h with
  | nil => rfl
  | cons hb _ ih =>
    rw [blocksSize_cons, blocksSize_cons]
    exact Nat.add_le_add (codeSize_mono hsize hb.2) ih

/-- Blocks only come closer together when code is removed. -/
theorem MachineFunction.BranchesReach.shrink {f g : MachineFunction R I}
    (h : f.BranchesReach sizeInBytes)
    (hshrunk : List.Forall₂ MachineBlock.Shrunk g.blocks f.blocks) : g.BranchesReach size := by
  intro pre block post hsplit before inst after hinsts pre' target post' hsplit' ht
  rw [hsplit] at hshrunk
  obtain ⟨preF, restF, hsplitF, hpre, hrest⟩ := forall₂_append hshrunk
  obtain ⟨blockF, postF, hblock, hpost, rfl⟩ := List.forall₂_cons_left_iff.mp hrest
  obtain ⟨removed, hremoved⟩ := hblock.2
  have hinstsF : blockF.instructions = before ++ inst :: (after ++ removed) := by
    rw [← hremoved, hinsts, List.append_assoc, List.cons_append]
  have hreach := fun pre'F targetF post'F hsplitF' htF =>
    h preF blockF postF hsplitF before inst (after ++ removed) hinstsF pre'F targetF post'F
      hsplitF' htF
  have hbefore : codeSize size before ≤ codeSize sizeInBytes before :=
    codeSize_mono hsize (List.prefix_refl _)
  -- a branch back to its own block or an earlier one
  have hback : ∀ mid, pre = pre' ++ mid → target :: post' = mid ++ block :: post →
      -4096 ≤ (blocksSize size pre' : Int) - (blocksSize size pre + codeSize size before : Nat) ∧
      (blocksSize size pre' : Int) - (blocksSize size pre + codeSize size before : Nat) ≤ 4095 := by
    rintro mid rfl hmid
    obtain ⟨pre'F, midF, rfl, -, hmidF⟩ := forall₂_append hpre
    have hall : List.Forall₂ MachineBlock.Shrunk (target :: post') (midF ++ blockF :: postF) :=
      hmid ▸ List.rel_append hmidF (List.Forall₂.cons hblock hpost)
    obtain ⟨targetF, post'F, htarget, -, htailF⟩ := List.forall₂_cons_left_iff.mp hall
    have hnear := hreach pre'F targetF post'F
      (by rw [hsplitF, List.append_assoc, htailF]) (by rw [ht, htarget.1])
    have hmidle := blocksSize_le_of_shrunk hsize hmidF
    rw [blocksSize_append] at hnear ⊢
    omega
  rcases List.append_eq_append_iff.mp (hsplit.symm.trans hsplit') with
    ⟨mid, hpre', hmid⟩ | ⟨mid, hpre', hmid⟩
  · cases mid with
    | nil => exact hback [] (by rw [hpre', List.append_nil, List.append_nil]) hmid.symm
    | cons b mid =>
      -- a branch to a later block
      obtain ⟨rfl, hpost'⟩ := List.cons.inj hmid
      have hlater : List.Forall₂ MachineBlock.Shrunk (mid ++ target :: post') postF := by
        rw [hpost'] at hpost
        exact hpost
      obtain ⟨midF, restF, hpostF, hmidF, hrest⟩ := forall₂_append hlater
      obtain ⟨targetF, post'F, htarget, -, rfl⟩ := List.forall₂_cons_left_iff.mp hrest
      have hnear := hreach (preF ++ blockF :: midF) targetF post'F
        (by rw [hsplitF, hpostF, List.append_assoc, List.cons_append]) (by rw [ht, htarget.1])
      have hmidle := blocksSize_le_of_shrunk hsize hmidF
      have hafter : codeSize size (inst :: after) ≤
          codeSize sizeInBytes (inst :: (after ++ removed)) :=
        codeSize_mono hsize ⟨removed, by rw [List.cons_append]⟩
      rw [blocksSize_append, blocksSize_cons, hinstsF, codeSize_append] at hnear
      rw [hpre', blocksSize_append, blocksSize_cons, hinsts, codeSize_append]
      omega
  · exact hback mid hpre' hmid

end Shrink

/-- A block without its jump. -/
theorem popJumpTo_shrunk (next : BlockId) (block : MachineBlock I) :
    (popJumpTo next block).Shrunk block := by
  refine ⟨InstSemantics.popJumpTo_id next block, ?_⟩
  rw [popJumpTo]
  split
  · split
    · exact List.dropLast_prefix _
    · exact List.prefix_refl _
  · exact List.prefix_refl _

/-- All of them. -/
theorem popJumps_shrunk (blocks : List (MachineBlock I)) (order : List BlockId) :
    List.Forall₂ MachineBlock.Shrunk (popJumps blocks order) blocks := by
  have hrefl : ∀ blocks : List (MachineBlock I), List.Forall₂ MachineBlock.Shrunk blocks blocks :=
    fun blocks => List.forall₂_same.mpr fun block _ => ⟨rfl, List.prefix_refl _⟩
  induction blocks generalizing order with
  | nil => exact .nil
  | cons block blocks ih =>
    cases order with
    | nil => exact hrefl _
    | cons next order => exact .cons (popJumpTo_shrunk next block) (ih order)

/-! ## The loop -/

variable [LawfulRelax R I] {f g : MachineFunction R I}

/-- The loop ends: each branch gets one springboard at most. -/
theorem relaxBranches_returns {cs : List (Cluster I)} (hf : f.Labelled) (hcs : f.Clustered cs)
    {fuel : Nat} (hfuel : pending cs < fuel) : ∃ g, relaxBranches fuel f = some g := by
  induction fuel generalizing f cs with
  | zero => cases hfuel
  | succ fuel ih =>
    rw [relaxBranches]
    rcases hf.relaxRound_cases with ⟨hround, -⟩ | ⟨g, hround, hspring⟩
    · exact ⟨f, by rw [hround]; rfl⟩
    · obtain ⟨cs', hcs', hlt⟩ := hcs.springs hf hspring
      rw [hround]
      exact ih (hf.springs hspring) hcs' (by omega)

/-- What the loop ends with: every branch reaches its label, and runs pass springboards only. -/
theorem relaxBranches_spec (sem : InstSemantics I σ) (hf : f.Labelled) (hclosed : f.Closed)
    {fuel : Nat} (h : relaxBranches fuel f = some g) :
    g.BranchesReach sizeInBytes ∧ f.SameBlocks sem g := by
  induction fuel generalizing f with
  | zero => cases h
  | succ fuel ih =>
    rw [relaxBranches] at h
    rcases hf.relaxRound_cases with ⟨hround, hreach⟩ | ⟨g', hround, hspring⟩
    · rw [hround] at h
      obtain rfl : f = g := Option.some.inj h
      refine ⟨hreach, fun c hc => Flow.sameSeen_of_detour (fun a ha => ?_) hc⟩
      refine Flow.Detours.of_eq rfl fun d hd => ?_
      obtain ⟨_ | id, s⟩ := a
      · cases hd
      have hmem : id ∈ f.blocks.map (·.id) := of_decide_eq_true ha
      obtain ⟨b, hb, rfl⟩ := List.mem_map.mp hmem
      obtain ⟨pre, post, hsplit⟩ := List.append_of_mem hb
      rw [sem.step_split hf.nodup hsplit] at hd
      exact sem.runBlock_sees hf hclosed hb hd
    · rw [hround] at h
      obtain ⟨hreach, hsame⟩ := ih (hf.springs hspring) (hclosed.springs hspring) h
      have hsees : ∀ c : Control σ, f.sees c → g'.sees c := by
        rintro ⟨_ | id, s⟩ hc
        · rfl
        · exact decide_eq_true (hspring.ids.mem_iff.mpr
            (List.mem_cons_of_mem _ (of_decide_eq_true hc)))
      refine ⟨hreach, fun c hc => ?_⟩
      exact (Flow.sameSeen_of_detour (fun a ha => hspring.detours sem hf hclosed ha) hc).trans
        hsees (hsame c (hsees c hc))

/-- `relax_branches` ends on a function whose branches stand near the ends of their blocks. Then
every conditional branch reaches its label, before and behind the removal of the jumps that fall
through, for all instruction sizes up to those the pass counts with; and from every state both
results go through the blocks of the function in the same order and with the same states. -/
theorem relaxBranches_sound (sem : InstSemantics I σ) (hf : f.Labelled) (hclosed : f.Closed)
    (hshort : ∀ block ∈ f.blocks, block.ShortTails) :
    ∃ fuel g, relaxBranches fuel f = some g ∧
      (∀ size : I → Nat, (∀ inst, size inst ≤ sizeInBytes inst) →
        g.BranchesReach size ∧ (optimizeFallthroughs g).BranchesReach size) ∧
      f.SameBlocks sem g ∧ f.SameBlocks sem (optimizeFallthroughs g) := by
  have hcs : f.Clustered (f.blocks.map fun block => { head := block, boards := [] }) := by
    refine ⟨?_, fun c hc => ?_⟩
    · rw [List.flatMap_map]
      exact (List.flatMap_singleton' _).symm
    · obtain ⟨block, hb, rfl⟩ := List.mem_map.mp hc
      exact ⟨nofun, Nat.zero_le _, hshort block hb⟩
  obtain ⟨g, hg⟩ := relaxBranches_returns hf hcs (Nat.lt_succ_self _)
  obtain ⟨hreach, hsame⟩ := relaxBranches_spec sem hf hclosed hg
  refine ⟨_, g, hg, fun size hsize => ⟨?_, ?_⟩, hsame, ?_⟩
  · exact hreach.shrink hsize (List.forall₂_same.mpr fun b _ => ⟨rfl, List.prefix_refl _⟩)
  · exact hreach.shrink hsize (popJumps_shrunk _ _)
  · intro c hc
    rw [InstSemantics.optimizeFallthroughs_step]
    exact hsame c hc

omit [LawfulRelax R I] in
/-- Every branch of a small block stands near its end. -/
theorem MachineBlock.shortTails_of_small {block : MachineBlock I}
    (h : codeSize sizeInBytes block.instructions + 4 * (branchCount block.instructions - 1) ≤ 4095) :
    block.ShortTails := by
  intro before inst after hinsts _
  have hsize := congrArg (codeSize sizeInBytes) hinsts
  rw [codeSize_append] at hsize
  omega

omit [LawfulRelax R I] in
/-- A block without branches. -/
theorem MachineBlock.shortTails_of_no_branch {block : MachineBlock I}
    (h : ∀ inst ∈ block.instructions, isBranch inst = false) : block.ShortTails := by
  intro before inst after hinsts hbranch
  rw [h inst (by rw [hinsts]; simp)] at hbranch
  cases hbranch

/-- A branch over a block of more than four kilobytes. -/
def skipFn : MachineFunction RV64Reg RV64Inst where
  blocks :=
    [⟨0, [.beq (.physical .a0) (.physical .zero) 2, .jal (.physical .zero) 1]⟩,
     ⟨1, List.replicate 1100 .nop ++ [.jal (.physical .zero) 2]⟩,
     ⟨2, [.ret]⟩]
  vregCounter := 0
  entry := 0
  frameInfo := ⟨[], 0, [], false⟩

/-- Whether `a0` is zero. -/
def isZeroSem : InstSemantics RV64Inst Bool where
  exec := fun _ s => s
  taken := fun _ s => s
  leaves := fun _ _ => false

omit [LawfulRelax R I] in
/-- The conditions, block by block. -/
theorem MachineFunction.Labelled.of_all (hnodup : (f.blocks.map (·.id)).Nodup)
    (hlt : ∀ block ∈ f.blocks, block.id < f.blocks.length)
    (h : ∀ block ∈ f.blocks, ∀ inst ∈ block.instructions,
      ∀ label ∈ (getSuccessors inst).getD [], label ∈ f.blocks.map (·.id)) : f.Labelled :=
  ⟨hnodup, hlt, fun block hb inst hinst succs hsuccs label hlabel =>
    h block hb inst hinst label (by rw [hsuccs]; exact hlabel)⟩

theorem relaxBranches_sound_skip :
    ∃ fuel g, relaxBranches fuel skipFn = some g ∧
      (∀ size : RV64Inst → Nat, (∀ inst, size inst ≤ sizeInBytes inst) →
        g.BranchesReach size ∧ (optimizeFallthroughs g).BranchesReach size) ∧
      skipFn.SameBlocks isZeroSem g ∧ skipFn.SameBlocks isZeroSem (optimizeFallthroughs g) := by
  refine relaxBranches_sound isZeroSem ?_ ?_ ?_
  · exact .of_all (by decide) (by decide) (by decide +kernel)
  · intro block hb
    simp only [skipFn, List.mem_cons, List.not_mem_nil, or_false] at hb
    rcases hb with rfl | rfl | rfl
    · exact ⟨[.beq (.physical .a0) (.physical .zero) 2], _, rfl, Or.inr ⟨1, rfl⟩⟩
    · exact ⟨List.replicate 1100 .nop, _, rfl, Or.inr ⟨2, rfl⟩⟩
    · exact ⟨[], _, rfl, Or.inl rfl⟩
  · intro block hb
    simp only [skipFn, List.mem_cons, List.not_mem_nil, or_false] at hb
    rcases hb with rfl | rfl | rfl
    · exact MachineBlock.shortTails_of_small (by decide)
    · exact MachineBlock.shortTails_of_no_branch (by decide +kernel)
    · exact MachineBlock.shortTails_of_small (by decide)

/-! ## A branch far from the end of its block -/

/-- While the first branch of the function is too far from the end of its block, it is out of
range of its newest springboard too. -/
theorem relaxBranches_far (hf : f.Labelled) {block target : MachineBlock I}
    {rest : List (MachineBlock I)} (hblocks : f.blocks = block :: target :: rest) {inst : I}
    {insts : List I} (hinsts : block.instructions = inst :: insts)
    (ht : getBranchTarget inst = some target.id)
    (hfar : 4095 < codeSize sizeInBytes block.instructions) (fuel : Nat) :
    relaxBranches fuel f = none := by
  induction fuel generalizing f block target rest inst with
  | zero => rfl
  | succ fuel ih =>
    have hout : ¬ InBranchRange I
        (codeSize sizeInBytes block.instructions - (0 + codeSize sizeInBytes ([] : List I) : Nat)) := by
      -- the branch is out of range
      rw [InBranchRange, LawfulRelax.offsetMax, codeSize_nil]
      omega
    have hstart : (computeBlockOffsets f).lookup block.id = some 0 :=
      lookup_computeBlockOffsets hf.nodup (show f.blocks = [] ++ block :: target :: rest from hblocks)
    have htarget : (computeBlockOffsets f).lookup target.id =
        some (codeSize sizeInBytes block.instructions) := by
      rw [lookup_computeBlockOffsets hf.nodup (show f.blocks = [block] ++ target :: rest from hblocks),
        blocksSize_cons, blocksSize_nil, Nat.add_zero]
    have hfind : findInBlock (computeBlockOffsets f) 0 0 block.instructions =
        some (some (0, target.id)) := by
      rw [hinsts, findInBlock, ht]
      simp only [htarget, Option.bind_eq_bind, Option.bind_some]
      exact if_neg (by simpa using hout)
    -- so the round puts a springboard behind the same block, which does not bring it nearer
    have hround : relaxRound f = some (some (f.insertSpringboard 0 0 target.id)) := by
      rw [relaxRound, hblocks, findRewrite, hstart]
      simp only [Option.bind_eq_bind, Option.bind_some, hfind]
      rfl
    have hg := insertSpringboard_eq (show f.blocks = [] ++ block :: target :: rest from hblocks)
      (show block.instructions = [] ++ inst :: insts from hinsts) target.id
    have hspring : f.Springs (f.insertSpringboard 0 0 target.id) := by
      refine ⟨[], block, target :: rest, [], inst, insts, [block], target, rest, hblocks, hinsts,
        hblocks, ht, ?_, hg⟩
      rw [blocksSize_cons, blocksSize_nil, Nat.add_zero]
      exact hout
    rw [relaxBranches, hround]
    have hfar' : 4095 < codeSize sizeInBytes (setBranchTarget f.blocks.length inst :: insts) := by
      rwa [hinsts, codeSize_cons, ← LawfulRelax.sizeInBytes_set inst f.blocks.length,
        ← codeSize_cons] at hfar
    exact ih (hf.springs hspring) (congrArg MachineFunction.blocks hg) rfl
      (LawfulRelax.getBranchTarget_set ht _) hfar'

/-- A branch at the start of a block of more than four kilobytes. -/
def farFn : MachineFunction RV64Reg RV64Inst where
  blocks :=
    [⟨0, .beq (.physical .a0) (.physical .zero) 1 ::
        (List.replicate 1100 .nop ++ [.jal (.physical .zero) 1])⟩,
     ⟨1, [.ret]⟩]
  vregCounter := 0
  entry := 0
  frameInfo := ⟨[], 0, [], false⟩

/-- The loop does not end on every function whose blocks end in a jump or a return. -/
theorem relaxBranches_not_ends :
    ¬ ∀ f : MachineFunction RV64Reg RV64Inst, f.Labelled → f.Closed →
      ∃ fuel g, relaxBranches fuel f = some g := by
  intro h
  have hlabelled : farFn.Labelled := .of_all (by decide) (by decide) (by decide +kernel)
  have hclosed : farFn.Closed := by
    intro block hb
    simp only [farFn, List.mem_cons, List.not_mem_nil, or_false] at hb
    rcases hb with rfl | rfl
    · exact ⟨.beq (.physical .a0) (.physical .zero) 1 :: List.replicate 1100 .nop, _, rfl,
        Or.inr ⟨1, rfl⟩⟩
    · exact ⟨[], _, rfl, Or.inl rfl⟩
  obtain ⟨fuel, g, hg⟩ := h farFn hlabelled hclosed
  rw [relaxBranches_far hlabelled rfl rfl rfl (by decide +kernel) fuel] at hg
  cases hg

end Mir
