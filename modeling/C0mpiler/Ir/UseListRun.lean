import C0mpiler.Ir.UseListErase
import Mathlib

/-!
# Use lists over whole runs

`Edit` is one call of a public editing operation, `Reachable` what a sequence of calls leads to
from an empty module. `Edit.Ok` singles out the calls that keep the use lists exact: it asks
nothing of most edits, and of `overwriteInst` that the new instruction has no operand. Every
module reached by such calls has exact use lists. `overwriteInst` with a branch leaves the target
of the new branch without an entry.
-/

namespace Ir

open ModuleCore

/-- One call of a public editing operation. -/
inductive Edit where
  | defineFunction (name : String) (ty : FunctionType)
  | declareFunction (name : String) (ty : FunctionType)
  | createFunction (name : String) (ty : FunctionType)
  | appendBlock (f : FunctionId) (name : Option String)
  | appendArg (f : FunctionId) (ty : Ty) (name : Option String)
  | addGlobal (name : String) (ty : Ty) (kind : GlobalKind)
  | addConst (ty : Ty) (kind : ConstKind)
  | newInst (f : FunctionId) (ty : Ty) (kind : InstKind) (name : Option String)
  | appendInst (block : BlockRef) (inst : InstRef)
  | pushFrontInst (block : BlockRef) (inst : InstRef)
  | insertBefore (anchor inst : InstRef)
  | insertAfter (anchor inst : InstRef)
  | appendPhi (block : BlockRef) (inst : InstRef)
  | setTerminator (block : BlockRef) (inst : InstRef)
  | appendToBlock (block : BlockRef) (inst : InstRef)
  | detachInst (inst : InstRef)
  | eraseInstFromParent (inst : InstRef)
  | eraseInstFromParentForcely (inst : InstRef)
  | eraseBlocksFromParent (blocks : List BlockRef)
  | replaceInstOperand (inst : InstRef) (slot : OperandSlot) (newValue : ValueId)
  | replaceAllUsesWith (old new : ValueId)
  | replaceBlockOperand (inst : InstRef) (slot : BlockOperandSlot) (newBlock : BlockRef)
  | replaceAllBlockUsesWith (old new : BlockRef)
  | overwriteInst (old new : InstRef)
  | phiAddIncoming (phi : InstRef) (block : BlockRef) (value : ValueId)
  | phiRemoveIncomingFrom (phi : InstRef) (incomingIndex : Nat)
  | splitBlockAt (inst : InstRef) (addTerminator : Bool)

namespace Edit

/-- The module after the call; `none` when it panics. -/
def apply (m : ModuleCore) : Edit → Option ModuleCore
  | defineFunction name ty => some (m.defineFunction name ty).2
  | declareFunction name ty => some (m.declareFunction name ty).2
  | createFunction name ty => (m.createFunction name ty).map Prod.snd
  | appendBlock f name => (m.appendBlock f name).map Prod.snd
  | appendArg f ty name => (m.appendArg f ty name).map Prod.snd
  | addGlobal name ty kind => some (m.addGlobal name ty kind).2
  | addConst ty kind => some (m.addConst ty kind).2
  | newInst f ty kind name => (m.newInst f ty kind name).map Prod.snd
  | appendInst block inst => m.appendInst block inst
  | pushFrontInst block inst => m.pushFrontInst block inst
  | insertBefore anchor inst => m.insertBefore anchor inst
  | insertAfter anchor inst => m.insertAfter anchor inst
  | appendPhi block inst => m.appendPhi block inst
  | setTerminator block inst => m.setTerminator block inst
  | appendToBlock block inst => m.appendToBlock block inst
  | detachInst inst => m.detachInst inst
  | eraseInstFromParent inst => m.eraseInstFromParent inst
  | eraseInstFromParentForcely inst => m.eraseInstFromParentForcely inst
  | eraseBlocksFromParent blocks => m.eraseBlocksFromParent blocks
  | replaceInstOperand inst slot newValue => m.replaceInstOperand inst slot newValue
  | replaceAllUsesWith old new => m.replaceAllUsesWith old new
  | replaceBlockOperand inst slot newBlock => m.replaceBlockOperand inst slot newBlock
  | replaceAllBlockUsesWith old new => m.replaceAllBlockUsesWith old new
  | overwriteInst old new => m.overwriteInst old new
  | phiAddIncoming phi block value => m.phiAddIncoming phi block value
  | phiRemoveIncomingFrom phi incomingIndex => m.phiRemoveIncomingFrom phi incomingIndex
  | splitBlockAt inst addTerminator => (m.splitBlockAt inst addTerminator).map Prod.snd

/-- The calls that keep the use lists exact. Operands may be replaced and incomings added only in
an instruction that stands in a block (one that does not is registered when it is inserted), and
the index a phi hands out next must be free. -/
def Ok (m : ModuleCore) : Edit → Prop
  | replaceInstOperand inst _ _ => m.Inserted inst
  | replaceBlockOperand inst _ _ => m.Inserted inst
  | overwriteInst _ new => ∀ k, m.kindOf new = some k → k.valueOperands = [] ∧ k.blockOperands = []
  | phiAddIncoming phi _ _ => m.Inserted phi ∧
      ∀ incomings idx, m.kindOf phi = some (.phi incomings idx) → incomings.lookup idx = none
  | _ => True

end Edit

/-- The modules that calls meeting `Edit.Ok` lead to. -/
inductive Reachable : ModuleCore → Prop
  | new : Reachable ModuleCore.new
  | step {m m' : ModuleCore} (e : Edit) (h : Reachable m) (hok : e.Ok m)
      (hrun : e.apply m = some m') : Reachable m'

/-- The modules that any calls lead to. -/
def runEdits (edits : List Edit) : Option ModuleCore := edits.foldlM Edit.apply ModuleCore.new

/-- The empty module is indexed. -/
theorem indexed_new : ModuleCore.new.Indexed := by
  constructor
  · constructor
    · intro v l hv
      cases v <;> cases hv
    · rintro u v ⟨⟨d, hd, -⟩, -⟩
      cases hd
  · constructor
    · intro b l hb
      cases hb
    · rintro u b ⟨⟨d, hd, -⟩, -⟩
      cases hd

/-- Instructions that keep their parents stay the registered ones. -/
theorem indexed_of_parents {m m' : ModuleCore} (h : m'.Registered m.Inserted)
    (hp : m'.parentOf = m.parentOf) : m'.Indexed :=
  h.congr rfl rfl (fun r => by rw [inserted_iff, inserted_iff, hp]) fun _ _ => rfl

/-- The step lemma: every call that meets `Ok` keeps the invariant. -/
theorem Edit.apply_indexed {m m' : ModuleCore} (h : m.Indexed) (e : Edit) (hok : e.Ok m)
    (hrun : e.apply m = some m') : m'.Indexed := by
  -- one case for each edit, and its own lemma says what it does
  cases e with
  -- what makes a key: functions, blocks, arguments, globals, constants
  | defineFunction name ty =>
    cases hrun
    exact (insertFunction_spec rfl rfl rfl).indexed h
  | declareFunction name ty =>
    cases hrun
    exact (insertFunction_spec rfl rfl rfl).indexed h
  | createFunction name ty =>
    obtain ⟨⟨f, m₁⟩, hcreate, rfl⟩ := Option.map_eq_some_iff.mp hrun
    exact (createFunction_spec hcreate).indexed h
  | appendBlock f name =>
    obtain ⟨⟨b, m₁⟩, happend, rfl⟩ := Option.map_eq_some_iff.mp hrun
    exact (appendBlock_spec happend).1.indexed h
  | appendArg f ty name =>
    obtain ⟨⟨a, m₁⟩, happend, rfl⟩ := Option.map_eq_some_iff.mp hrun
    exact (appendArg_spec happend).indexed h
  | addGlobal name ty kind =>
    cases hrun
    exact (addGlobal_spec name ty kind).indexed h
  | addConst ty kind =>
    cases hrun
    exact (addConst_spec ty kind).indexed h
  -- what places an instruction
  | newInst f ty kind name =>
    obtain ⟨⟨r, m₁⟩, hnew, rfl⟩ := Option.map_eq_some_iff.mp hrun
    exact (newInst_spec h hnew).1
  | appendInst block inst => exact (appendInst_spec h hrun).1.indexed
  | pushFrontInst block inst => exact (pushFrontInst_spec h hrun).indexed
  | insertBefore anchor inst =>
    obtain ⟨block, hinto⟩ := insertBefore_spec h hrun
    exact hinto.indexed
  | insertAfter anchor inst =>
    obtain ⟨block, hinto⟩ := insertAfter_spec h hrun
    exact hinto.indexed
  | appendPhi block inst => exact (appendPhi_spec h hrun).indexed
  | setTerminator block inst => exact (setTerminator_spec h hrun).1.indexed
  | appendToBlock block inst => exact (appendToBlock_spec h hrun).indexed
  -- what takes one out
  | detachInst inst =>
    obtain ⟨hreg, -, hparents⟩ := detachInst_spec h hrun
    exact hreg.congr rfl rfl (inserted_update_none hparents) fun _ _ => rfl
  | eraseInstFromParent inst =>
    obtain ⟨hreg, -, hparents⟩ := eraseInstFromParent_spec h hrun
    exact hreg.congr rfl rfl (inserted_update_none hparents) fun _ _ => rfl
  | eraseInstFromParentForcely inst => exact eraseInstFromParentForcely_indexed h hrun
  | eraseBlocksFromParent blocks => exact eraseBlocksFromParent_indexed h hrun
  -- what rewrites operands
  | replaceInstOperand inst slot newValue =>
    obtain ⟨hreg, hrw⟩ := replaceInstOperand_spec h hok hrun
    exact indexed_of_parents hreg hrw.parents
  | replaceAllUsesWith old new =>
    obtain ⟨hreg, hparents, -⟩ := replaceAllUsesWith_spec h hrun
    exact indexed_of_parents hreg hparents
  | replaceBlockOperand inst slot newBlock =>
    obtain ⟨hreg, hrw⟩ := replaceBlockOperand_spec h hok hrun
    exact indexed_of_parents hreg hrw.parents
  | replaceAllBlockUsesWith old new =>
    obtain ⟨hreg, hparents⟩ := replaceAllBlockUsesWith_spec h hrun
    exact indexed_of_parents hreg hparents
  -- the new instruction takes over kind and uses
  | overwriteInst old new =>
    have hnew : ∃ k, m.kindOf new = some k := by
      obtain ⟨m₂, hreplace, -⟩ := Option.bind_eq_some_iff.mp hrun
      obtain ⟨_, _, nd, _, -, -, hnd, -⟩ := replaceInst_eq_some hreplace
      exact ⟨nd.kind, kindOf_of_inst hnd⟩
    obtain ⟨k, hk⟩ := hnew
    exact overwriteInst_indexed h hk (hok k hk).1 (hok k hk).2 hrun
  | phiAddIncoming phi block value =>
    obtain ⟨hreg, hrw⟩ := phiAddIncoming_spec h hok.1 hok.2 hrun
    exact indexed_of_parents hreg hrw.parents
  | phiRemoveIncomingFrom phi incomingIndex =>
    obtain ⟨hreg, hrw, -⟩ := phiRemoveIncomingFrom_spec h hrun
    exact indexed_of_parents hreg hrw.parents
  | splitBlockAt inst addTerminator =>
    obtain ⟨⟨b, m₁⟩, hsplit, rfl⟩ := Option.map_eq_some_iff.mp hrun
    exact splitBlockAt_indexed h hsplit

/-- The run lemma. -/
theorem Reachable.indexed {m : ModuleCore} (h : Reachable m) : m.Indexed := by
  induction h with
  | new => exact indexed_new
  | step e _ hok hrun ih => exact e.apply_indexed ih hok hrun

/-- In every module that calls meeting `Edit.Ok` lead to, the use lists are exact. -/
theorem useListsExact_of_reachable {m : ModuleCore} (h : Reachable m) : m.UseListsExact :=
  h.indexed.exact

/-- The calls that meet `Edit.Ok` in every state. -/
def Edit.plain : Edit → Bool
  | replaceInstOperand _ _ _ | replaceBlockOperand _ _ _ | overwriteInst _ _ | phiAddIncoming _ _ _ =>
    false
  | _ => true

/-- A plain edit has no condition. -/
theorem Edit.ok_of_plain {e : Edit} (h : e.plain = true) (m : ModuleCore) : e.Ok m := by
  cases e <;> first | exact trivial | cases h

/-- A run of plain edits reaches a module of the kind considered. -/
theorem reachable_of_plain {edits : List Edit} {m : ModuleCore}
    (hplain : ∀ e ∈ edits, e.plain = true) (hrun : runEdits edits = some m) : Reachable m :=
  OptionFold.preserves Reachable
    (fun e he _ _ hs hstep => .step e hs (Edit.ok_of_plain (hplain e he) _) hstep) .new hrun

/-! ## Two runs -/

/-- A function with a loop: the entry block branches to a second block, which branches to
itself. -/
def loopEdits : List Edit :=
  [.createFunction "main" ⟨.void, []⟩, .appendBlock 1 none,
    .newInst 1 .void (.branch 2 none) none, .setTerminator ⟨1, 1⟩ ⟨1, 1⟩,
    .newInst 1 .void (.branch 2 none) none, .setTerminator ⟨1, 2⟩ ⟨1, 2⟩]

/-- The run of the example reaches a module. -/
theorem reachable_loopEdits : ∃ m, runEdits loopEdits = some m ∧ Reachable m :=
  ⟨_, rfl, reachable_of_plain (show ∀ e ∈ loopEdits, e.plain = true by decide) rfl⟩

/-- The lists of the module that the example builds are exact. -/
theorem useListsExact_loopEdits : ∃ m, runEdits loopEdits = some m ∧ m.UseListsExact := by
  obtain ⟨m, hrun, h⟩ := reachable_loopEdits
  exact ⟨m, hrun, useListsExact_of_reachable h⟩

/-- The branch of the entry block is overwritten by another branch to the same block. -/
def overwriteEdits : List Edit :=
  [.createFunction "main" ⟨.void, []⟩, .appendBlock 1 none,
    .newInst 1 .void (.branch 2 none) none, .setTerminator ⟨1, 1⟩ ⟨1, 1⟩,
    .newInst 1 .void (.branch 2 none) none, .overwriteInst ⟨1, 1⟩ ⟨1, 2⟩]

/-- Some sequence of calls leads to a module whose use lists are not exact: the branch that
overwrites another is in no use list. -/
theorem useLists_not_exact : ¬ ∀ edits m, runEdits edits = some m → m.UseListsExact := by
  intro hall
  have hrun : (runEdits overwriteEdits).map (fun m => (m.blockUses ⟨1, 2⟩, m.parentOf ⟨1, 2⟩,
      (m.kindOf ⟨1, 2⟩).map InstKind.blockOperands)) =
      some (some [], some ⟨1, 1⟩, some [(2, .branchThen)]) := by decide
  obtain ⟨m, hm, heq⟩ := Option.map_eq_some_iff.mp hrun
  simp only [Prod.mk.injEq] at heq
  obtain ⟨huses, hparent, hops⟩ := heq
  obtain ⟨k, hk, hops⟩ := Option.map_eq_some_iff.mp hops
  have hmem := ((hall overwriteEdits m hm).blocks ⟨1, 2⟩ [] huses).mem_iff
    ⟨⟨1, 2⟩, .branchThen⟩
  refine List.not_mem_nil (hmem.mpr ⟨?_, ?_⟩)
  · rw [inserted_iff, hparent]
    rfl
  · rw [blockOperandOf_iff]
    exact ⟨k, hk, rfl, by rw [hops]; exact List.mem_cons_self⟩

end Ir
