import C0mpiler.Flow.Stutter
import C0mpiler.Mir.BranchRelax
import Mathlib

/-!
# Running a function block by block

Where control goes in a laid-out function: through the instructions of a block, to the label of a
jump or of a branch that is taken, behind the last instruction into the next block of the layout,
or out of the function. What the other instructions do to the state, and which branches are taken,
is a parameter; a branch does not see its own label.

The jump to the next block that `optimize_fallthroughs` removes changes no step
(`optimizeFallthroughs_step`).
-/

namespace Mir

variable {R I σ : Type} [RelaxTarget R I]

/-- What instructions do to a state of type `σ`. -/
structure InstSemantics (I σ : Type) where
  exec : I → σ → σ
  taken : I → σ → Bool
  /-- Control leaves the function behind the instruction. -/
  leaves : I → σ → Bool

/-- What an instruction, or a stretch of them, leads to. -/
inductive Outcome (σ : Type) where
  | next (s : σ)
  | goto (label : BlockId) (s : σ)
  | leave (s : σ)

/-- The block that is entered next and the state there, or no block where control has left the
function. -/
abbrev Control (σ : Type) := Option BlockId × σ

/-- The label an instruction goes to if it is no branch. -/
def jumpLabel (inst : I) : Option BlockId :=
  (getSuccessors inst).bind List.head?

namespace InstSemantics

variable (sem : InstSemantics I σ)

/-- One instruction. -/
def outcome (inst : I) (s : σ) : Outcome σ :=
  match getBranchTarget inst with
  | some label => if sem.taken (setBranchTarget 0 inst) s then .goto label s else .next s
  | none =>
    match jumpLabel inst with
    | some label => .goto label (if isJumpTo inst label then s else sem.exec inst s)
    | none =>
      if LoweringTarget.isRet inst || sem.leaves inst s then .leave (sem.exec inst s)
      else .next (sem.exec inst s)

/-- The instructions of a block, up to the first that goes elsewhere. -/
def runInsts : List I → σ → Outcome σ
  | [], s => .next s
  | inst :: insts, s =>
    match sem.outcome inst s with
    | .next s' => runInsts insts s'
    | .goto label s' => .goto label s'
    | .leave s' => .leave s'

/-- From the start of a block with these blocks behind it. -/
def runBlock (block : MachineBlock I) (rest : List (MachineBlock I)) (s : σ) :
    Option (Control σ) :=
  match sem.runInsts block.instructions s with
  | .next s' => rest.head?.map fun next => (some next.id, s')
  | .goto label s' => some (some label, s')
  | .leave s' => some (none, s')

/-- The first block with this id is run. -/
def enter : List (MachineBlock I) → BlockId → σ → Option (Control σ)
  | [], _, _ => none
  | block :: blocks, id, s =>
    if block.id = id then sem.runBlock block blocks s else enter blocks id s

/-- A step of the control: one block. -/
def step (f : MachineFunction R I) : Control σ → Option (Control σ)
  | (none, _) => none
  | (some id, s) => sem.enter f.blocks id s

end InstSemantics

namespace MachineFunction

/-- Control is in a block of the function, or outside. -/
def sees (f : MachineFunction R I) (c : Control σ) : Bool :=
  c.1.all fun id => id ∈ f.blocks.map (·.id)

/-- From every state, the second function goes through the blocks of the first one in the same
order and with the same states, apart from its own blocks in between. -/
def SameBlocks (sem : InstSemantics I σ) (f g : MachineFunction R I) : Prop :=
  ∀ c : Control σ, f.sees c → Flow.SameSeen f.sees (sem.step f) (sem.step g) c

/-- Every block ends in an unconditional jump or a return. -/
def Closed (f : MachineFunction R I) : Prop :=
  ∀ block ∈ f.blocks, ∃ init inst, block.instructions = init ++ [inst] ∧
    (LoweringTarget.isRet inst = true ∨ ∃ label, isJumpTo inst label = true)

end MachineFunction

/-! ## Runs inside a block -/

namespace InstSemantics

variable [LawfulRelax R I] (sem : InstSemantics I σ)

omit [LawfulRelax R I] in
/-- Two stretches of code. -/
theorem runInsts_append (l l' : List I) (s : σ) :
    sem.runInsts (l ++ l') s =
      match sem.runInsts l s with
      | .next s' => sem.runInsts l' s'
      | .goto label s' => .goto label s'
      | .leave s' => .leave s' := by
  induction l generalizing s with
  | nil => rfl
  | cons inst l ih =>
    rw [List.cons_append, runInsts, runInsts]
    cases sem.outcome inst s with
    | next s' => exact ih s'
    | goto label s' => rfl
    | leave s' => rfl

/-- A jump is no branch. -/
theorem getBranchTarget_jump {inst : I} {label : BlockId} (h : isJumpTo inst label = true) :
    getBranchTarget inst = none := by
  cases ht : getBranchTarget inst with
  | none => rfl
  | some t => rw [LawfulRelax.isJumpTo_branch ht] at h; cases h

/-- A jump goes to its label. -/
theorem outcome_jump {inst : I} {label : BlockId} (h : isJumpTo inst label = true) (s : σ) :
    sem.outcome inst s = .goto label s := by
  simp only [outcome, getBranchTarget_jump h, jumpLabel,
    LawfulRelax.getSuccessors_jump h, Option.bind_some, List.head?_cons, if_pos h]

/-- A branch with another label is taken in the same states. -/
theorem outcome_setBranchTarget {inst : I} {t : BlockId} (h : getBranchTarget inst = some t)
    (s : σ) : (sem.outcome inst s = .goto t s ∧
        ∀ l, sem.outcome (setBranchTarget l inst) s = .goto l s) ∨
      (sem.outcome inst s = .next s ∧ ∀ l, sem.outcome (setBranchTarget l inst) s = .next s) := by
  simp only [outcome, h, LawfulRelax.getBranchTarget_set h,
    LawfulRelax.setBranchTarget_set]
  cases sem.taken (setBranchTarget 0 inst) s with
  | true => exact Or.inl ⟨rfl, fun _ => rfl⟩
  | false => exact Or.inr ⟨rfl, fun _ => rfl⟩

/-- Control goes to labels only. -/
theorem outcome_goto {inst : I} {s s' : σ} {label : BlockId}
    (h : sem.outcome inst s = .goto label s') :
    ∃ succs, getSuccessors inst = some succs ∧ label ∈ succs := by
  rw [outcome] at h
  split at h
  · next t ht =>
    split at h
    · cases h
      exact ⟨[label], LawfulRelax.getSuccessors_branch ht, List.mem_cons_self⟩
    · cases h
  · split at h
    · next l hl =>
      cases h
      obtain ⟨succs, hsuccs, hhead⟩ := Option.bind_eq_some_iff.mp hl
      exact ⟨succs, hsuccs, List.mem_of_head? hhead⟩
    · split at h <;> cases h

/-- A label that is reached is one of the successors. -/
theorem runInsts_goto {insts : List I} {s s' : σ} {label : BlockId}
    (h : sem.runInsts insts s = .goto label s') :
    ∃ inst ∈ insts, ∃ succs, getSuccessors inst = some succs ∧ label ∈ succs := by
  induction insts generalizing s with
  | nil => cases h
  | cons inst insts ih =>
    rw [runInsts] at h
    split at h
    · obtain ⟨inst', hinst, hlabel⟩ := ih h
      exact ⟨inst', List.mem_cons_of_mem _ hinst, hlabel⟩
    · next hgoto =>
      cases h
      exact ⟨inst, List.mem_cons_self, outcome_goto sem hgoto⟩
    · cases h

/-- Nothing falls through a return or a jump. -/
theorem outcome_end {inst : I}
    (h : LoweringTarget.isRet inst = true ∨ ∃ label, isJumpTo inst label = true) (s s' : σ) :
    sem.outcome inst s ≠ .next s' := by
  obtain hret | ⟨label, hjump⟩ := h
  · rw [outcome]
    split
    · next ht => rw [LawfulRelax.isRet_branch ht] at hret; cases hret
    · split
      · exact nofun
      · rw [hret, Bool.true_or, if_pos rfl]
        exact nofun
  · rw [outcome_jump sem hjump]
    exact nofun

/-- Behind a return or a jump nothing is run. -/
theorem runInsts_closed {init : List I} {inst : I}
    (h : LoweringTarget.isRet inst = true ∨ ∃ label, isJumpTo inst label = true) (s s' : σ) :
    sem.runInsts (init ++ [inst]) s ≠ .next s' := by
  rw [runInsts_append]
  split
  · next s₁ _ =>
    rw [runInsts]
    split
    · next s₂ hnext => exact absurd hnext (outcome_end sem h s₁ s₂)
    · exact nofun
    · exact nofun
  · exact nofun
  · exact nofun

/-! ## Runs from block to block -/

omit [LawfulRelax R I] in
/-- The block with the id. -/
theorem enter_split {pre post : List (MachineBlock I)} {block : MachineBlock I}
    (h : block.id ∉ pre.map (·.id)) (s : σ) :
    sem.enter (pre ++ block :: post) block.id s = sem.runBlock block post s := by
  induction pre with
  | nil => exact if_pos rfl
  | cons b pre ih =>
    rw [List.map_cons, List.mem_cons, not_or] at h
    rw [List.cons_append, enter, if_neg (Ne.symm h.1), ih h.2]

omit [LawfulRelax R I] in
/-- The step at a block, and what it falls through to. -/
theorem step_split {f : MachineFunction R I} (h : (f.blocks.map (·.id)).Nodup)
    {pre post : List (MachineBlock I)} {block : MachineBlock I}
    (hsplit : f.blocks = pre ++ block :: post) (s : σ) :
    sem.step f (some block.id, s) = sem.runBlock block post s := by
  rw [hsplit, List.map_append, List.map_cons] at h
  have hnot : block.id ∉ pre.map (·.id) := fun hmem =>
    (List.nodup_middle.mp h).notMem (List.mem_append_left _ hmem)
  rw [step, hsplit, enter_split sem hnot]

/-- A step from a block of the function leads to a block of the function, or out of it. -/
theorem runBlock_sees {f : MachineFunction R I} (hf : f.Labelled) (hclosed : f.Closed)
    {block : MachineBlock I} (hb : block ∈ f.blocks) {rest : List (MachineBlock I)} {s : σ}
    {c : Control σ} (h : sem.runBlock block rest s = some c) : f.sees c := by
  rw [runBlock] at h
  split at h
  · next hnext =>
    obtain ⟨init, inst, hinsts, hend⟩ := hclosed block hb
    rw [hinsts] at hnext
    exact absurd hnext (runInsts_closed sem hend s _)
  · next hgoto =>
    cases h
    obtain ⟨inst, hinst, succs, hsuccs, hmem⟩ := runInsts_goto sem hgoto
    exact decide_eq_true (hf.labels block hb inst hinst succs hsuccs _ hmem)
  · cases h
    rfl

/-- What a closed block does does not depend on the block behind it. -/
theorem runBlock_closed {f : MachineFunction R I} (hclosed : f.Closed) {block : MachineBlock I}
    (hb : block ∈ f.blocks) (rest rest' : List (MachineBlock I)) (s : σ) :
    sem.runBlock block rest s = sem.runBlock block rest' s := by
  rw [runBlock, runBlock]
  split
  · next hnext =>
    obtain ⟨init, inst, hinsts, hend⟩ := hclosed block hb
    rw [hinsts] at hnext
    exact absurd hnext (runInsts_closed sem hend s _)
  · rfl
  · rfl

/-! ## Fallthroughs -/

omit [LawfulRelax R I] in
/-- Removing a jump keeps the id. -/
theorem popJumpTo_id (next : BlockId) (block : MachineBlock I) :
    (popJumpTo next block).id = block.id := by
  rw [popJumpTo]
  split
  · split <;> rfl
  · rfl

/-- The removed jump went where the block now falls through to. -/
theorem runBlock_popJumpTo {block next next' : MachineBlock I} (hid : next'.id = next.id)
    (rest rest' : List (MachineBlock I)) (s : σ) :
    sem.runBlock (popJumpTo next.id block) (next' :: rest') s =
      sem.runBlock block (next :: rest) s := by
  rw [popJumpTo]
  split
  · next lastInst hlast =>
    obtain ⟨init, hinit⟩ := List.getLast?_eq_some_iff.mp hlast
    split
    · next hjump =>
      rw [runBlock, runBlock, hinit, List.dropLast_concat,
        runInsts_append]
      cases sem.runInsts init s with
      | next s' => simp [runInsts, outcome_jump sem hjump, hid]
      | goto label s' => rfl
      | leave s' => rfl
    · simp [runBlock, hid]
  · simp [runBlock, hid]

/-- Removing the jumps to the next block changes no run. -/
theorem enter_popJumps (blocks : List (MachineBlock I)) (id : BlockId) (s : σ) :
    sem.enter (popJumps blocks ((blocks.map (·.id)).drop 1)) id s = sem.enter blocks id s := by
  induction blocks with
  | nil => rfl
  | cons block blocks ih =>
    cases blocks with
    | nil => rfl
    | cons next blocks =>
      obtain ⟨next', rest', hrest, hid⟩ : ∃ next' rest',
          popJumps (next :: blocks) (blocks.map (·.id)) = next' :: rest' ∧ next'.id = next.id := by
        cases blocks with
        | nil => exact ⟨next, [], rfl, rfl⟩
        | cons b blocks => exact ⟨popJumpTo b.id next, _, rfl, popJumpTo_id _ _⟩
      simp only [List.map_cons, List.drop_succ_cons, List.drop_zero] at ih ⊢
      rw [popJumps, enter, enter, popJumpTo_id, ih, hrest,
        runBlock_popJumpTo sem hid blocks rest' s]

/-- `optimize_fallthroughs` changes no step. -/
theorem optimizeFallthroughs_step (f : MachineFunction R I) :
    sem.step (optimizeFallthroughs f) = sem.step f := by
  funext c
  obtain ⟨_ | id, s⟩ := c
  · rfl
  · exact enter_popJumps sem f.blocks id s

end InstSemantics

end Mir
