import C0mpiler.Mir.TargetExec
import Mathlib

/-!
# Branch relaxation and fallthroughs

`compute_block_offsets`, `relax_branches` and `optimize_fallthroughs`. A conditional branch that
is too far from its block gets a springboard: a new block right behind its own one that jumps to
the old label. One round of the loop looks for the first such branch in the order of the layout.
-/

namespace Mir

/-- What the two passes use of `TargetInst` and `LoweringTarget`. `get_branch_target` hands out a
mutable label; here it is read by `getBranchTarget` and written by `setBranchTarget`. -/
class RelaxTarget (R : outParam Type) (I : Type) extends EmitTarget R I where
  sizeInBytes : I → Nat
  getBranchTarget : I → Option BlockId
  setBranchTarget (label : BlockId) : I → I
  isJumpTo (inst : I) (target : BlockId) : Bool
  branchOffsetMin : Int
  branchOffsetMax : Int

export RelaxTarget (sizeInBytes getBranchTarget setBranchTarget isJumpTo)

namespace RV64Inst

/-- `size_in_bytes`: pseudo instructions take two words. -/
def sizeInBytes : RV64Inst → Nat
  | .call _ _ | .tail _ _ | .la _ _ => 8
  | .lbs _ _ | .lhs _ _ | .lws _ _ | .lds _ _ | .sbs _ _ _ | .shs _ _ _ | .sws _ _ _
  | .sds _ _ _ => 8
  | .li _ imm => if -2048 ≤ imm ∧ imm ≤ 2047 then 4 else 8
  | _ => 4

/-- `get_branch_target`. -/
def getBranchTarget : RV64Inst → Option BlockId
  | .beq _ _ label | .bne _ _ label | .blt _ _ label | .bge _ _ label | .bltu _ _ label
  | .bgeu _ _ label => some label
  | _ => none

/-- `set_branch_target`. -/
def setBranchTarget (label : BlockId) : RV64Inst → RV64Inst
  | .beq rs1 rs2 _ => .beq rs1 rs2 label
  | .bne rs1 rs2 _ => .bne rs1 rs2 label
  | .blt rs1 rs2 _ => .blt rs1 rs2 label
  | .bge rs1 rs2 _ => .bge rs1 rs2 label
  | .bltu rs1 rs2 _ => .bltu rs1 rs2 label
  | .bgeu rs1 rs2 _ => .bgeu rs1 rs2 label
  | inst => inst

/-- `is_jump_to`. -/
def isJumpTo (inst : RV64Inst) (target : BlockId) : Bool :=
  match inst with
  | .jal (.physical .zero) label => label = target
  | _ => false

instance : RelaxTarget RV64Reg RV64Inst where
  sizeInBytes := sizeInBytes
  getBranchTarget := getBranchTarget
  setBranchTarget := setBranchTarget
  isJumpTo := isJumpTo
  branchOffsetMin := -4096
  branchOffsetMax := 4095

end RV64Inst

namespace RV32Inst

/-- The same for RV32. -/
def sizeInBytes : RV32Inst → Nat
  | .call _ _ | .tail _ _ | .la _ _ => 8
  | .lbs _ _ | .lhs _ _ | .lws _ _ | .sbs _ _ _ | .shs _ _ _ | .sws _ _ _ => 8
  | .li _ imm => if -2048 ≤ imm ∧ imm ≤ 2047 then 4 else 8
  | _ => 4

/-- `get_branch_target`. -/
def getBranchTarget : RV32Inst → Option BlockId
  | .beq _ _ label | .bne _ _ label | .blt _ _ label | .bge _ _ label | .bltu _ _ label
  | .bgeu _ _ label => some label
  | _ => none

/-- `set_branch_target`. -/
def setBranchTarget (label : BlockId) : RV32Inst → RV32Inst
  | .beq rs1 rs2 _ => .beq rs1 rs2 label
  | .bne rs1 rs2 _ => .bne rs1 rs2 label
  | .blt rs1 rs2 _ => .blt rs1 rs2 label
  | .bge rs1 rs2 _ => .bge rs1 rs2 label
  | .bltu rs1 rs2 _ => .bltu rs1 rs2 label
  | .bgeu rs1 rs2 _ => .bgeu rs1 rs2 label
  | inst => inst

/-- `is_jump_to`. -/
def isJumpTo (inst : RV32Inst) (target : BlockId) : Bool :=
  match inst with
  | .jal (.physical .zero) label => label = target
  | _ => false

instance : RelaxTarget RV32Reg RV32Inst where
  sizeInBytes := sizeInBytes
  getBranchTarget := getBranchTarget
  setBranchTarget := setBranchTarget
  isJumpTo := isJumpTo
  branchOffsetMin := -4096
  branchOffsetMax := 4095

end RV32Inst

/-- What the targets of the source satisfy: a branch keeps its size and its kind with another
label, a jump takes four bytes and is no branch, and an instruction jumps to one block at most. -/
class LawfulRelax (R : outParam Type) (I : Type) [RelaxTarget R I] : Prop where
  getBranchTarget_set {i : I} {t : BlockId} (h : getBranchTarget i = some t) (l : BlockId) :
    getBranchTarget (setBranchTarget l i) = some l
  setBranchTarget_set (i : I) (l l' : BlockId) :
    setBranchTarget l' (setBranchTarget l i) = setBranchTarget l' i
  sizeInBytes_set (i : I) (l : BlockId) : sizeInBytes (setBranchTarget l i) = sizeInBytes i
  isJumpTo_branch {i : I} {t : BlockId} (h : getBranchTarget i = some t) (l : BlockId) :
    isJumpTo i l = false
  isRet_branch {i : I} {t : BlockId} (h : getBranchTarget i = some t) :
    LoweringTarget.isRet i = false
  getSuccessors_branch {i : I} {t : BlockId} (h : getBranchTarget i = some t) :
    getSuccessors i = some [t]
  getSuccessors_jump {i : I} {t : BlockId} (h : isJumpTo i t = true) : getSuccessors i = some [t]
  isJumpTo_jump (l : BlockId) : isJumpTo (emitJump l : I) l = true
  sizeInBytes_jump (l : BlockId) : sizeInBytes (emitJump l : I) = 4
  offsetMin : RelaxTarget.branchOffsetMin I = -4096
  offsetMax : RelaxTarget.branchOffsetMax I = 4095

instance : LawfulRelax RV64Reg RV64Inst where
  getBranchTarget_set {i t} h l := by
    cases i with
    | beq | bne | blt | bge | bltu | bgeu => rfl
    | _ => cases h
  setBranchTarget_set i l l' := by cases i <;> rfl
  sizeInBytes_set i l := by cases i <;> rfl
  isJumpTo_branch {i t} h l := by
    cases i with
    | beq | bne | blt | bge | bltu | bgeu => rfl
    | _ => cases h
  isRet_branch {i t} h := by
    cases i with
    | beq | bne | blt | bge | bltu | bgeu => rfl
    | _ => cases h
  getSuccessors_branch {i t} h := by
    cases i with
    | beq | bne | blt | bge | bltu | bgeu => cases h; rfl
    | _ => cases h
  getSuccessors_jump {i t} h := by
    cases i with
    | jal rd label =>
      obtain ⟨rfl, rfl⟩ : rd = .physical .zero ∧ label = t := by
        change RV64Inst.isJumpTo (.jal rd label) t = true at h
        unfold RV64Inst.isJumpTo at h
        split at h
        · next heq => cases heq; exact ⟨rfl, of_decide_eq_true h⟩
        · cases h
      rfl
    | _ => cases h
  isJumpTo_jump l := decide_eq_true rfl
  sizeInBytes_jump _ := rfl
  offsetMin := rfl
  offsetMax := rfl

instance : LawfulRelax RV32Reg RV32Inst where
  getBranchTarget_set {i t} h l := by
    cases i with
    | beq | bne | blt | bge | bltu | bgeu => rfl
    | _ => cases h
  setBranchTarget_set i l l' := by cases i <;> rfl
  sizeInBytes_set i l := by cases i <;> rfl
  isJumpTo_branch {i t} h l := by
    cases i with
    | beq | bne | blt | bge | bltu | bgeu => rfl
    | _ => cases h
  isRet_branch {i t} h := by
    cases i with
    | beq | bne | blt | bge | bltu | bgeu => rfl
    | _ => cases h
  getSuccessors_branch {i t} h := by
    cases i with
    | beq | bne | blt | bge | bltu | bgeu => cases h; rfl
    | _ => cases h
  getSuccessors_jump {i t} h := by
    cases i with
    | jal rd label =>
      obtain ⟨rfl, rfl⟩ : rd = .physical .zero ∧ label = t := by
        change RV32Inst.isJumpTo (.jal rd label) t = true at h
        unfold RV32Inst.isJumpTo at h
        split at h
        · next heq => cases heq; exact ⟨rfl, of_decide_eq_true h⟩
        · cases h
      rfl
    | _ => cases h
  isJumpTo_jump l := decide_eq_true rfl
  sizeInBytes_jump _ := rfl
  offsetMin := rfl
  offsetMax := rfl

variable {R I : Type} [RelaxTarget R I]

/-- The bytes of some instructions, each of the size given for it. -/
def codeSize (size : I → Nat) (insts : List I) : Nat :=
  (insts.map size).sum

/-- The size of several blocks. -/
def blocksSize (size : I → Nat) (blocks : List (MachineBlock I)) : Nat :=
  (blocks.map fun block => codeSize size block.instructions).sum

/-! ## The passes -/

/-- The entries `compute_block_offsets` inserts for these blocks. -/
def offsetEntries : Nat → List (MachineBlock I) → List (BlockId × Nat)
  | _, [] => []
  | offset, block :: blocks =>
    (block.id, offset) :: offsetEntries (offset + codeSize sizeInBytes block.instructions) blocks

/-- `compute_block_offsets`. -/
def computeBlockOffsets (f : MachineFunction R I) : HashMap BlockId Nat :=
  .collect (offsetEntries 0 f.blocks)

/-- `range.contains`. -/
def InBranchRange (I : Type) [RelaxTarget R I] (offset : Int) : Prop :=
  RelaxTarget.branchOffsetMin I ≤ offset ∧ offset ≤ RelaxTarget.branchOffsetMax I

instance (offset : Int) : Decidable (InBranchRange I offset) :=
  inferInstanceAs (Decidable (_ ∧ _))

/-- The loop over the instructions of a block: the index and the label of the first branch out of
range. `none` where a label is not in the map, on which the source panics. -/
def findInBlock (offsets : HashMap BlockId Nat) :
    Nat → Nat → List I → Option (Option (Nat × BlockId))
  | _, _, [] => some none
  | index, offset, inst :: insts =>
    match getBranchTarget inst with
    | none => findInBlock offsets (index + 1) (offset + sizeInBytes inst) insts
    | some target => do
      let start ← offsets.lookup target
      if InBranchRange I (start - offset) then
        findInBlock offsets (index + 1) (offset + sizeInBytes inst) insts
      else
        return some (index, target)

/-- The loop over the blocks. -/
def findRewrite (offsets : HashMap BlockId Nat) :
    Nat → List (MachineBlock I) → Option (Option (Nat × Nat × BlockId))
  | _, [] => some none
  | blockIndex, block :: blocks => do
    let offset ← offsets.lookup block.id
    match ← findInBlock offsets 0 offset block.instructions with
    | some (instIndex, target) => return some (blockIndex, instIndex, target)
    | none => findRewrite offsets (blockIndex + 1) blocks

/-- The rewrite of a round: the branch goes to a new block, which jumps to the old label. -/
def MachineFunction.insertSpringboard (f : MachineFunction R I) (blockIndex instIndex : Nat)
    (oldTarget : BlockId) : MachineFunction R I :=
  let newBlockId := f.blocks.length
  let retargeted := f.blocks.modify blockIndex fun block =>
    { block with instructions := block.instructions.modify instIndex (setBranchTarget newBlockId) }
  { f with
    blocks := retargeted.insertIdx (blockIndex + 1)
      { id := newBlockId, instructions := [emitJump oldTarget] } }

/-- One turn of `while changed`, with the function where it changed. -/
def relaxRound (f : MachineFunction R I) : Option (Option (MachineFunction R I)) := do
  match ← findRewrite (computeBlockOffsets f) 0 f.blocks with
  | none => return none
  | some (blockIndex, instIndex, oldTarget) =>
    return some (f.insertSpringboard blockIndex instIndex oldTarget)

/-- `relax_branches`; `none` where the loop has not ended after `fuel` rounds. -/
def relaxBranches : Nat → MachineFunction R I → Option (MachineFunction R I)
  | 0, _ => none
  | fuel + 1, f => do
    match ← relaxRound f with
    | none => return f
    | some f' => relaxBranches fuel f'

/-- The body of the loop of `optimize_fallthroughs`. -/
def popJumpTo (next : BlockId) (block : MachineBlock I) : MachineBlock I :=
  match block.instructions.getLast? with
  | some lastInst =>
    if isJumpTo lastInst next then { block with instructions := block.instructions.dropLast }
    else block
  | none => block

/-- The loop over the blocks, each zipped with the id of the next one. -/
def popJumps : List (MachineBlock I) → List BlockId → List (MachineBlock I)
  | block :: blocks, next :: order => popJumpTo next block :: popJumps blocks order
  | blocks, _ => blocks

/-- `optimize_fallthroughs`. -/
def optimizeFallthroughs (f : MachineFunction R I) : MachineFunction R I :=
  { f with blocks := popJumps f.blocks ((f.blocks.map (·.id)).drop 1) }

/-! ## Functions with known labels -/

namespace MachineFunction

/-- Block ids are distinct and come from the number of blocks, as the lowering allocates them, and
every label is the id of a block. -/
structure Labelled (f : MachineFunction R I) : Prop where
  nodup : (f.blocks.map (·.id)).Nodup
  id_lt : ∀ block ∈ f.blocks, block.id < f.blocks.length
  labels : ∀ block ∈ f.blocks, ∀ inst ∈ block.instructions, ∀ succs,
    getSuccessors inst = some succs → ∀ label ∈ succs, label ∈ f.blocks.map (·.id)

/-- Every conditional branch reaches its label: from the branch to the block it names, it is at
most as far as the encoding allows. -/
def BranchesReach (size : I → Nat) (f : MachineFunction R I) : Prop :=
  ∀ pre block post, f.blocks = pre ++ block :: post →
    ∀ before inst after, block.instructions = before ++ inst :: after →
      ∀ pre' target post', f.blocks = pre' ++ target :: post' →
        getBranchTarget inst = some target.id →
          -4096 ≤ (blocksSize size pre' : Int) - (blocksSize size pre + codeSize size before : Nat) ∧
          (blocksSize size pre' : Int) - (blocksSize size pre + codeSize size before : Nat) ≤ 4095

/-- The second function is the first one after a round that changed it: a branch that is too far
from its label goes through a springboard. -/
def Springs (f g : MachineFunction R I) : Prop :=
  ∃ pre block post before inst after pre' target post',
    f.blocks = pre ++ block :: post ∧ block.instructions = before ++ inst :: after ∧
    f.blocks = pre' ++ target :: post' ∧ getBranchTarget inst = some target.id ∧
    ¬ InBranchRange I
      (blocksSize sizeInBytes pre' - (blocksSize sizeInBytes pre + codeSize sizeInBytes before : Nat)) ∧
    g = { f with
      blocks := pre ++
        { block with instructions := before ++ setBranchTarget f.blocks.length inst :: after } ::
        { id := f.blocks.length, instructions := [emitJump target.id] } :: post }

end MachineFunction

/-! ## Offsets -/

omit [RelaxTarget R I] in
@[simp] theorem codeSize_nil (size : I → Nat) : codeSize size [] = 0 := rfl

omit [RelaxTarget R I] in
@[simp] theorem codeSize_cons (size : I → Nat) (inst : I) (insts : List I) :
    codeSize size (inst :: insts) = size inst + codeSize size insts :=
  List.sum_cons

omit [RelaxTarget R I] in
@[simp] theorem codeSize_append (size : I → Nat) (l l' : List I) :
    codeSize size (l ++ l') = codeSize size l + codeSize size l' := by
  simp [codeSize]

omit [RelaxTarget R I] in
@[simp] theorem blocksSize_nil (size : I → Nat) : blocksSize size [] = 0 := rfl

omit [RelaxTarget R I] in
@[simp] theorem blocksSize_cons (size : I → Nat) (block : MachineBlock I)
    (blocks : List (MachineBlock I)) :
    blocksSize size (block :: blocks) =
      codeSize size block.instructions + blocksSize size blocks :=
  List.sum_cons

omit [RelaxTarget R I] in
@[simp] theorem blocksSize_append (size : I → Nat) (l l' : List (MachineBlock I)) :
    blocksSize size (l ++ l') = blocksSize size l + blocksSize size l' := by
  simp [blocksSize]

/-- Every block has an offset. -/
theorem offsetEntries_ids (offset : Nat) (blocks : List (MachineBlock I)) :
    (offsetEntries offset blocks).map Prod.fst = blocks.map (·.id) := by
  induction blocks generalizing offset with
  | nil => rfl
  | cons block blocks ih => rw [offsetEntries, List.map_cons, List.map_cons, ih]

/-- The offset of a block is the size of what is in front of it. -/
theorem mem_offsetEntries (offset : Nat) (pre : List (MachineBlock I)) (block : MachineBlock I)
    (post : List (MachineBlock I)) :
    (block.id, offset + blocksSize sizeInBytes pre) ∈
      offsetEntries offset (pre ++ block :: post) := by
  induction pre generalizing offset with
  | nil => exact List.mem_cons_self
  | cons b pre ih =>
    rw [List.cons_append, offsetEntries, blocksSize_cons, ← Nat.add_assoc]
    exact List.mem_cons_of_mem _ (ih _)

/-- `compute_block_offsets` gives the bytes in front of a block. -/
theorem lookup_computeBlockOffsets {f : MachineFunction R I} (h : (f.blocks.map (·.id)).Nodup)
    {pre post : List (MachineBlock I)} {block : MachineBlock I}
    (hsplit : f.blocks = pre ++ block :: post) :
    (computeBlockOffsets f).lookup block.id = some (blocksSize sizeInBytes pre) := by
  rw [computeBlockOffsets, HashMap.lookup_collect (by rw [offsetEntries_ids]; exact h), hsplit]
  have hmem := mem_offsetEntries 0 pre block post
  rwa [Nat.zero_add] at hmem

/-! ## One round -/

/-- The inner loop ends where every branch of the block is in range. -/
theorem findInBlock_none {offsets : HashMap BlockId Nat} {index offset : Nat} {insts : List I}
    (h : findInBlock offsets index offset insts = some none) {before after : List I} {inst : I}
    (hsplit : insts = before ++ inst :: after) {t : BlockId} (ht : getBranchTarget inst = some t) :
    ∃ start, offsets.lookup t = some start ∧
      InBranchRange I (start - (offset + codeSize sizeInBytes before : Nat)) := by
  induction insts generalizing index offset before with
  | nil => simp at hsplit
  | cons i insts ih =>
    -- the branch is the first instruction, or the rest of the loop passes it
    have hrest : ∀ {before'}, insts = before' ++ inst :: after →
        findInBlock offsets (index + 1) (offset + sizeInBytes i) insts = some none →
        ∃ start, offsets.lookup t = some start ∧ InBranchRange I
          (start - (offset + codeSize sizeInBytes (i :: before') : Nat)) := by
      intro before' hsplit h
      rw [codeSize_cons, ← Nat.add_assoc]
      exact ih h hsplit
    rw [findInBlock] at h
    cases before with
    | nil =>
      obtain ⟨rfl, -⟩ := List.cons.inj hsplit
      rw [ht] at h
      obtain ⟨start, hstart, h⟩ := Option.bind_eq_some_iff.mp h
      split at h
      · next hin => exact ⟨start, hstart, hin⟩
      · cases h
    | cons b before =>
      obtain ⟨rfl, htail⟩ := List.cons.inj hsplit
      split at h
      · exact hrest htail h
      · obtain ⟨start, hstart, h⟩ := Option.bind_eq_some_iff.mp h
        split at h
        · exact hrest htail h
        · cases h

/-- The inner loop leaves at a branch that is out of range. -/
theorem findInBlock_some {offsets : HashMap BlockId Nat} {index offset : Nat} {insts : List I}
    {k : Nat} {t : BlockId} (h : findInBlock offsets index offset insts = some (some (k, t))) :
    ∃ before inst after start, insts = before ++ inst :: after ∧ k = index + before.length ∧
      getBranchTarget inst = some t ∧ offsets.lookup t = some start ∧
      ¬ InBranchRange I (start - (offset + codeSize sizeInBytes before : Nat)) := by
  induction insts generalizing index offset with
  | nil => cases h
  | cons i insts ih =>
    have hrest : findInBlock offsets (index + 1) (offset + sizeInBytes i) insts = some (some (k, t)) →
        ∃ before inst after start, i :: insts = before ++ inst :: after ∧
          k = index + before.length ∧ getBranchTarget inst = some t ∧
          offsets.lookup t = some start ∧
          ¬ InBranchRange I (start - (offset + codeSize sizeInBytes before : Nat)) := by
      intro h
      obtain ⟨before, inst, after, start, rfl, rfl, ht, hstart, hfar⟩ := ih h
      refine ⟨i :: before, inst, after, start, rfl, by rw [List.length_cons]; omega, ht, hstart, ?_⟩
      rwa [codeSize_cons, ← Nat.add_assoc]
    rw [findInBlock] at h
    split at h
    · exact hrest h
    · next t' ht' =>
      obtain ⟨start, hstart, h⟩ := Option.bind_eq_some_iff.mp h
      split at h
      · exact hrest h
      · next hfar =>
        cases h
        exact ⟨[], i, insts, start, rfl, rfl, ht', hstart, hfar⟩

/-- The inner loop does not panic where every label is in the map. -/
theorem findInBlock_returns {offsets : HashMap BlockId Nat} {insts : List I}
    (h : ∀ inst ∈ insts, ∀ t, getBranchTarget inst = some t → ∃ start, offsets.lookup t = some start)
    (index offset : Nat) : ∃ r, findInBlock offsets index offset insts = some r := by
  induction insts generalizing index offset with
  | nil => exact ⟨none, rfl⟩
  | cons i insts ih =>
    have hrest := ih (fun inst hinst => h inst (List.mem_cons_of_mem _ hinst)) (index + 1)
      (offset + sizeInBytes i)
    rw [findInBlock]
    split
    · exact hrest
    · next t ht =>
      obtain ⟨start, hstart⟩ := h i List.mem_cons_self t ht
      simp only [hstart, Option.bind_eq_bind, Option.bind_some]
      split
      · exact hrest
      · exact ⟨_, rfl⟩

/-- The same for the outer loop. -/
theorem findRewrite_none {offsets : HashMap BlockId Nat} {k : Nat} {blocks : List (MachineBlock I)}
    (h : findRewrite offsets k blocks = some none) {block : MachineBlock I} (hb : block ∈ blocks) :
    ∃ offset, offsets.lookup block.id = some offset ∧
      findInBlock offsets 0 offset block.instructions = some none := by
  induction blocks generalizing k with
  | nil => cases hb
  | cons b blocks ih =>
    obtain ⟨offset, hoffset, h⟩ := Option.bind_eq_some_iff.mp h
    obtain ⟨r, hr, h⟩ := Option.bind_eq_some_iff.mp h
    cases r with
    | some r => cases h
    | none =>
      rcases List.mem_cons.mp hb with rfl | hb
      · exact ⟨offset, hoffset, hr⟩
      · exact ih h hb

/-- A rewrite is asked for in some block. -/
theorem findRewrite_some {offsets : HashMap BlockId Nat} {k : Nat}
    {blocks : List (MachineBlock I)} {blockIndex instIndex : Nat} {t : BlockId}
    (h : findRewrite offsets k blocks = some (some (blockIndex, instIndex, t))) :
    ∃ pre block post offset, blocks = pre ++ block :: post ∧ blockIndex = k + pre.length ∧
      offsets.lookup block.id = some offset ∧
      findInBlock offsets 0 offset block.instructions = some (some (instIndex, t)) := by
  induction blocks generalizing k with
  | nil => cases h
  | cons b blocks ih =>
    obtain ⟨offset, hoffset, h⟩ := Option.bind_eq_some_iff.mp h
    obtain ⟨r, hr, h⟩ := Option.bind_eq_some_iff.mp h
    cases r with
    | some r =>
      cases h
      exact ⟨[], b, blocks, offset, rfl, rfl, hoffset, hr⟩
    | none =>
      obtain ⟨pre, block, post, offset, rfl, rfl, hoffset, hr⟩ := ih h
      exact ⟨b :: pre, block, post, offset, rfl, by rw [List.length_cons]; omega, hoffset, hr⟩

/-- The search meets no unknown label. -/
theorem findRewrite_returns {offsets : HashMap BlockId Nat} {blocks : List (MachineBlock I)}
    (h : ∀ block ∈ blocks, (∃ start, offsets.lookup block.id = some start) ∧
      ∀ inst ∈ block.instructions, ∀ t, getBranchTarget inst = some t →
        ∃ start, offsets.lookup t = some start) (k : Nat) :
    ∃ r, findRewrite offsets k blocks = some r := by
  induction blocks generalizing k with
  | nil => exact ⟨none, rfl⟩
  | cons b blocks ih =>
    obtain ⟨⟨offset, hoffset⟩, htargets⟩ := h b List.mem_cons_self
    obtain ⟨r, hr⟩ := findInBlock_returns htargets 0 offset
    simp only [findRewrite, hoffset, hr, Option.bind_eq_bind, Option.bind_some]
    cases r with
    | some r => exact ⟨_, rfl⟩
    | none => exact ih (fun block hb => h block (List.mem_cons_of_mem _ hb)) (k + 1)

/-- The springboard goes behind the block of the branch. -/
theorem insertSpringboard_eq {f : MachineFunction R I} {pre post : List (MachineBlock I)}
    {block : MachineBlock I} (hsplit : f.blocks = pre ++ block :: post) {before after : List I}
    {inst : I} (hinsts : block.instructions = before ++ inst :: after) (t : BlockId) :
    f.insertSpringboard pre.length before.length t =
      { f with
        blocks := pre ++
          { block with instructions := before ++ setBranchTarget f.blocks.length inst :: after } ::
          { id := f.blocks.length, instructions := [emitJump t] } :: post } := by
  have hmodify : ∀ {α : Type} (g : α → α) (l l' : List α) (a : α),
      (l ++ a :: l').modify l.length g = l ++ g a :: l' := by
    intro α g l l' a
    induction l with
    | nil => rfl
    | cons b l ih => rw [List.cons_append, List.length_cons, List.modify_succ_cons, ih]; rfl
  have hinsert : ∀ {α : Type} (l l' : List α) (a b : α),
      (l ++ a :: l').insertIdx (l.length + 1) b = l ++ a :: b :: l' := by
    intro α l l' a b
    induction l with
    | nil => rfl
    | cons c l ih => rw [List.cons_append, List.length_cons, List.insertIdx_succ_cons, ih]; rfl
  rw [MachineFunction.insertSpringboard, hsplit, hmodify, hinsert, hinsts, hmodify]

namespace MachineFunction.Labelled

variable [LawfulRelax R I] {f : MachineFunction R I}

/-- A branch names a block. -/
theorem branch_label (hf : f.Labelled) {block : MachineBlock I} (hb : block ∈ f.blocks) {inst : I}
    (hinst : inst ∈ block.instructions) {t : BlockId} (ht : getBranchTarget inst = some t) :
    ∃ pre target post, f.blocks = pre ++ target :: post ∧ target.id = t := by
  obtain ⟨target, htarget, rfl⟩ := List.mem_map.mp
    (hf.labels block hb inst hinst [t] (LawfulRelax.getSuccessors_branch ht) t
      List.mem_cons_self)
  obtain ⟨pre, post, hsplit⟩ := List.append_of_mem htarget
  exact ⟨pre, target, post, hsplit, rfl⟩

/-- One round either finds every branch in range or inserts a springboard. -/
theorem relaxRound_cases (hf : f.Labelled) :
    relaxRound f = some none ∧ f.BranchesReach sizeInBytes ∨
      ∃ g, relaxRound f = some (some g) ∧ f.Springs g := by
  have hlookup : ∀ {pre block post}, f.blocks = pre ++ block :: post → _ :=
    fun hsplit => lookup_computeBlockOffsets hf.nodup hsplit
  have hstarts : ∀ block ∈ f.blocks,
      (∃ start, (computeBlockOffsets f).lookup block.id = some start) ∧
        ∀ inst ∈ block.instructions, ∀ t, getBranchTarget inst = some t →
          ∃ start, (computeBlockOffsets f).lookup t = some start := by
    intro block hb
    obtain ⟨pre, post, hsplit⟩ := List.append_of_mem hb
    refine ⟨⟨_, hlookup hsplit⟩, fun inst hinst t ht => ?_⟩
    obtain ⟨pre', target, post', hsplit', rfl⟩ := hf.branch_label hb hinst ht
    exact ⟨_, hlookup hsplit'⟩
  obtain ⟨r, hr⟩ := findRewrite_returns hstarts 0
  cases r with
  -- no branch is out of range
  | none =>
    refine Or.inl ⟨by rw [relaxRound, hr]; rfl, ?_⟩
    intro pre block post hsplit before inst after hinsts pre' target post' hsplit' ht
    have hb : block ∈ f.blocks := by rw [hsplit]; simp
    obtain ⟨offset, hoffset, hblock⟩ := findRewrite_none hr hb
    rw [hlookup hsplit] at hoffset
    cases hoffset
    obtain ⟨start, hstart, hin⟩ := findInBlock_none hblock hinsts ht
    rw [hlookup hsplit'] at hstart
    cases hstart
    rwa [InBranchRange, LawfulRelax.offsetMin, LawfulRelax.offsetMax] at hin
  -- one is: its block is rewritten, with a springboard behind it
  | some r =>
    obtain ⟨blockIndex, instIndex, t⟩ := r
    obtain ⟨pre, block, post, offset, hsplit, rfl, hoffset, hblock⟩ := findRewrite_some hr
    rw [hlookup hsplit] at hoffset
    cases hoffset
    obtain ⟨before, inst, after, start, hinsts, rfl, ht, hstart, hfar⟩ := findInBlock_some hblock
    have hb : block ∈ f.blocks := by rw [hsplit]; simp
    obtain ⟨pre', target, post', hsplit', rfl⟩ := hf.branch_label hb (by rw [hinsts]; simp) ht
    rw [hlookup hsplit'] at hstart
    cases hstart
    refine Or.inr ⟨_, ?_, pre, block, post, before, inst, after, pre', target, post', hsplit,
      hinsts, hsplit', ht, hfar, rfl⟩
    rw [relaxRound, hr, ← insertSpringboard_eq hsplit hinsts]
    simp only [Nat.zero_add]
    rfl

end MachineFunction.Labelled

end Mir
