import C0mpiler.Ir.Cfg
import C0mpiler.Ir.UseListEdits
import Mathlib

/-!
# Creating, erasing and moving

The edits that make or remove a key (new instructions, blocks, arguments and constants; erased
instructions and blocks) and the edits built from several others: erasing a set of blocks,
overwriting an instruction and splitting a block.
-/

namespace Ir

namespace ModuleCore

variable {m m' : ModuleCore} {P : InstRef → Prop}

/-! ## New keys -/

/-- The instructions after one has been added to the arena. -/
theorem inst_insertInst {f : FunctionId} {fd : FunctionData} (hf : m.func f = some fd)
    (d : InstData) (r : InstRef) :
    (m.updFunc f fun fd => { fd with insts := fd.insts.insert d }).inst r =
      if r = ⟨f, fd.insts.next⟩ then some d else m.inst r := by
  rw [inst_updFunc]
  by_cases hr : r.func = f
  · obtain ⟨rf, ri⟩ := r
    simp only at hr
    subst hr
    simp only [if_true, hf, Option.bind_some, SlotMap.get?_insert, InstRef.mk.injEq, true_and]
    split
    · rfl
    · simp [inst, hf]
  · rw [if_neg hr, if_neg fun h => hr (congrArg InstRef.func h)]

/-- Nothing is at the next key. -/
theorem inst_fresh {f : FunctionId} {fd : FunctionData} (hf : m.func f = some fd) :
    m.inst ⟨f, fd.insts.next⟩ = none := by
  simp [inst, hf, SlotMap.get?_next]

/-- The rule for an edit that makes a value. -/
theorem Registered.create_value (h : m.Registered P) {v : ValueId} (hv : m.valueUses v = none)
    (hvals : m'.valueUses = Function.update m.valueUses v (some []))
    (hblocks : m'.blockUses = m.blockUses) (hk : ∀ r, P r → m'.kindOf r = m.kindOf r) :
    m'.Registered P := by
  constructor
  · refine (h.values.create hv hvals).congr fun u w => and_congr_right fun hu => ?_
    rw [operandOf_iff, operandOf_iff, hk _ hu]
  · rw [hblocks]
    refine h.blocks.congr fun u b => and_congr_right fun hu => ?_
    rw [blockOperandOf_iff, blockOperandOf_iff, hk _ hu]

/-- The rule for an edit that makes a block. -/
theorem Registered.create_block (h : m.Registered P) {b : BlockRef} (hb : m.blockUses b = none)
    (hvals : m'.valueUses = m.valueUses)
    (hblocks : m'.blockUses = Function.update m.blockUses b (some []))
    (hk : m'.kindOf = m.kindOf) : m'.Registered P := by
  constructor
  · rw [hvals]
    refine h.values.congr fun u w => ?_
    rw [operandOf_iff, operandOf_iff, hk]
  · refine (h.blocks.create hb hblocks).congr fun u c => ?_
    rw [blockOperandOf_iff, blockOperandOf_iff, hk]

/-- The effect of an edit that makes a key other than an instruction: it keeps the registered
instructions, the parents and the kinds. -/
structure MadeKey (m m' : ModuleCore) : Prop where
  registered : ∀ P, m.Registered P → m'.Registered P
  parents : m'.parentOf = m.parentOf
  kinds : m'.kindOf = m.kindOf

/-- A module with a key more is indexed if it was. -/
theorem MadeKey.indexed (h : MadeKey m m') (hm : m.Indexed) : m'.Indexed :=
  (h.registered _ hm).congr rfl rfl
    (fun r => by rw [inserted_iff, inserted_iff, h.parents]) fun _ _ => rfl

/-- Adding a constant makes a key. -/
theorem addConst_spec (ty : Ty) (kind : ConstKind) : MadeKey m (m.addConst ty kind).2 where
  registered P h := by
    refine h.create_value (v := .const m.consts.next) ?_ ?_ rfl fun _ _ => rfl
    · simp [valueUses, constData, SlotMap.get?_next]
    · funext w
      by_cases hw : w = .const m.consts.next
      · subst hw; simp [valueUses, constData, addConst]
      · rw [Function.update_of_ne hw]
        cases w with
        | const c =>
          have hc : c ≠ m.consts.next := fun h => hw (congrArg ValueId.const h)
          simp [valueUses, constData, addConst, SlotMap.get?_insert, hc]
        | _ => rfl
  parents := rfl
  kinds := rfl

/-- Adding a global makes a key. -/
theorem addGlobal_spec (name : String) (ty : Ty) (kind : GlobalKind) :
    MadeKey m (m.addGlobal name ty kind).2 := by
  have hglobals : (m.addGlobal name ty kind).2.globals = m.globals.insert ⟨name, ty, kind, []⟩ := by
    cases kind <;> rfl
  have hfunctions : (m.addGlobal name ty kind).2.functions = m.functions := by
    cases kind <;> rfl
  have hconsts : (m.addGlobal name ty kind).2.consts = m.consts := by
    cases kind <;> rfl
  have hinst : (m.addGlobal name ty kind).2.inst = m.inst := by
    funext r; simp [inst, func, hfunctions]
  have hkinds : (m.addGlobal name ty kind).2.kindOf = m.kindOf := by
    funext r; simp [kindOf, hinst]
  refine ⟨fun P h => ?_, by funext r; simp [parentOf, hinst], hkinds⟩
  refine h.create_value (v := .global m.globals.next) ?_ ?_ ?_ fun r _ => by rw [hkinds]
  · simp [valueUses, global, SlotMap.get?_next]
  · funext w
    by_cases hw : w = .global m.globals.next
    · subst hw; simp [valueUses, global, hglobals]
    · rw [Function.update_of_ne hw]
      cases w with
      | global c =>
        have hc : c ≠ m.globals.next := fun h => hw (congrArg ValueId.global h)
        simp [valueUses, global, hglobals, SlotMap.get?_insert, hc]
      | inst r => simp [valueUses, hinst]
      | arg a => simp [valueUses, arg, func, hfunctions]
      | const c => simp [valueUses, constData, hconsts]
  · funext b
    simp [blockUses, block, func, hfunctions]

/-- Appending an argument makes a key. -/
theorem appendArg_spec {f : FunctionId} {ty : Ty} {name : Option String} {a : ArgRef}
    (hrun : m.appendArg f ty name = some (a, m')) : MadeKey m m' := by
  obtain ⟨fd, hf, heq⟩ := Option.bind_eq_some_iff.mp hrun
  cases heq
  have hinst : ∀ r, (m.updFunc f fun fd =>
      { fd with args := fd.args.insert ⟨name, ty, f, []⟩ }).inst r = m.inst r :=
    m.inst_updFunc_of_insts (by intro; rfl)
  have hkinds : (m.updFunc f fun fd =>
      { fd with args := fd.args.insert ⟨name, ty, f, []⟩ }).kindOf = m.kindOf := by
    funext r; simp [kindOf, hinst]
  refine ⟨fun P h => ?_, by funext r; simp [parentOf, hinst], hkinds⟩
  refine h.create_value (v := .arg ⟨f, fd.args.next⟩) ?_ ?_ ?_ fun r _ => by rw [hkinds]
  -- the new argument is unused
  · simp [valueUses, arg, hf, SlotMap.get?_next]
  -- other lists are as they were
  · funext w
    by_cases hw : w = .arg ⟨f, fd.args.next⟩
    · subst hw; simp [valueUses, arg_updFunc, hf]
    · rw [Function.update_of_ne hw]
      cases w with
      | arg a =>
        obtain ⟨af, ai⟩ := a
        simp only [valueUses, arg_updFunc]
        split
        · next haf =>
          obtain rfl : af = f := haf
          have hne : ai ≠ fd.args.next := by rintro rfl; exact hw rfl
          simp [hf, SlotMap.get?_insert, hne, arg]
        · rfl
      | inst r => simp [valueUses, hinst]
      | global c => simp [valueUses]
      | const c => simp [valueUses]
  · funext b
    simp [blockUses, m.block_updFunc_of_blocks]

/-- Appending a block makes a key. -/
theorem appendBlock_spec {f : FunctionId} {name : Option String} {b : BlockRef}
    (hrun : m.appendBlock f name = some (b, m')) : MadeKey m m' ∧ b.func = f := by
  obtain ⟨fd, hf, heq⟩ := Option.bind_eq_some_iff.mp hrun
  cases heq
  have hinst := m.inst_updFunc_of_insts (f := f) (g := fun fd' : FunctionData =>
    { fd' with
      blocks := fd'.blocks.insert ⟨name, [], [], none, f, []⟩
      blockOrder := fd'.blockOrder ++ [fd.blocks.next] }) (by intro; rfl)
  have harg := m.arg_updFunc_of_args (f := f) (g := fun fd' : FunctionData =>
    { fd' with
      blocks := fd'.blocks.insert ⟨name, [], [], none, f, []⟩
      blockOrder := fd'.blockOrder ++ [fd.blocks.next] }) (by intro; rfl)
  refine ⟨⟨fun P h => ?_, ?_, ?_⟩, rfl⟩
  -- the new block is unused
  · refine h.create_block (b := ⟨f, fd.blocks.next⟩) ?_ ?_ ?_ ?_
    · simp [blockUses, block, hf, SlotMap.get?_next]
    · funext v
      cases v <;> simp [valueUses, hinst, harg]
    -- and no other block changes its list
    · funext c
      by_cases hc : c = ⟨f, fd.blocks.next⟩
      · subst hc; simp [blockUses, block_updFunc, hf]
      · rw [Function.update_of_ne hc]
        obtain ⟨cf, ci⟩ := c
        simp only [blockUses, block_updFunc]
        split
        · next hcf =>
          obtain rfl : cf = f := hcf
          have hne : ci ≠ fd.blocks.next := by rintro rfl; exact hc rfl
          simp [hf, SlotMap.get?_insert, hne, block]
        · rfl
    · funext r; simp [kindOf, hinst]
  · funext r; simp [parentOf, hinst]
  · funext r; simp [kindOf, hinst]

/-- A new function has no instruction, no argument and no block. -/
theorem insertFunction_spec {fd : FunctionData} (hargs : fd.args = .empty)
    (hblocks : fd.blocks = .empty) (hinsts : fd.insts = .empty) :
    MadeKey m ⟨m.functions.insert fd, m.globals, m.consts, m.functionGlobals⟩ := by
  generalize hm' : ModuleCore.mk (m.functions.insert fd) m.globals m.consts m.functionGlobals = m'
  have hfunc : ∀ f, m'.func f = if f = m.functions.next then some fd else m.func f := fun f => by
    subst hm'; exact SlotMap.get?_insert _ _ _
  have hnone : m.func m.functions.next = none := SlotMap.get?_next _
  -- the new function has nothing in its arenas yet
  have hinst : ∀ r, m'.inst r = m.inst r := by
    intro r
    rw [inst, hfunc, inst]
    split
    · next h => simp [h, hnone, hinsts]
    · rfl
  have hblock : ∀ b, m'.block b = m.block b := by
    intro b
    rw [block, hfunc, block]
    split
    · next h => simp [h, hnone, hblocks]
    · rfl
  have harg : ∀ a, m'.arg a = m.arg a := by
    intro a
    rw [arg, hfunc, arg]
    split
    · next h => simp [h, hnone, hargs]
    · rfl
  refine ⟨fun P h => h.congr ?_ ?_ (fun _ => Iff.rfl) fun r _ => ?_, ?_, ?_⟩
  · funext v
    cases v with
    | inst r => simp [valueUses, hinst]
    | arg a => simp [valueUses, harg]
    | global g => subst hm'; rfl
    | const c => subst hm'; rfl
  · funext b; simp [blockUses, hblock]
  · simp [kindOf, hinst]
  · funext r; simp [parentOf, hinst]
  · funext r; simp [kindOf, hinst]

/-- Two keys are made one after the other. -/
theorem MadeKey.trans {m'' : ModuleCore} (h : MadeKey m m') (h' : MadeKey m' m'') : MadeKey m m'' :=
  ⟨fun P hP => h'.registered P (h.registered P hP), h'.parents.trans h.parents,
    h'.kinds.trans h.kinds⟩

/-- Creating a function makes keys only. -/
theorem createFunction_spec {name : String} {ty : FunctionType} {f : FunctionId}
    (hrun : m.createFunction name ty = some (f, m')) : MadeKey m m' := by
  simp only [createFunction, Option.bind_eq_bind, Option.bind_eq_some_iff] at hrun
  obtain ⟨⟨entry, m₁⟩, happend, heq⟩ := hrun
  cases heq
  have hnew : MadeKey m (m.defineFunction name ty).2 := insertFunction_spec rfl rfl rfl
  refine (hnew.trans (appendBlock_spec happend).1).trans ?_
  have hinst := m₁.inst_updFunc_of_insts (f := m.functions.next) (g := fun fd =>
    { fd with entry := entry.block }) (by intro; rfl)
  have hblock := m₁.block_updFunc_of_blocks (f := m.functions.next) (g := fun fd =>
    { fd with entry := entry.block }) (by intro; rfl)
  have harg := m₁.arg_updFunc_of_args (f := m.functions.next) (g := fun fd =>
    { fd with entry := entry.block }) (by intro; rfl)
  refine ⟨fun P h => h.congr ?_ ?_ (fun _ => Iff.rfl) fun r _ => ?_, ?_, ?_⟩
  · funext v
    cases v <;> simp [valueUses, hinst, harg, defineFunction]
  · funext b; simp [blockUses, hblock, defineFunction]
  · simp [kindOf, hinst, defineFunction]
  · funext r; simp [parentOf, hinst, defineFunction]
  · funext r; simp [kindOf, hinst, defineFunction]

/-- A new instruction is not registered. -/
theorem newInst_registered (h : m.Registered P) (hP : ∀ r, P r → (m.inst r).isSome)
    {f : FunctionId} {ty : Ty} {kind : InstKind} {name : Option String} {r : InstRef}
    (hrun : m.newInst f ty kind name = some (r, m')) :
    m'.Registered P ∧ ¬P r ∧ m'.parentOf = m.parentOf ∧
      m'.kindOf = Function.update m.kindOf r (some kind) := by
  obtain ⟨fd, hf, heq⟩ := Option.bind_eq_some_iff.mp hrun
  cases heq
  have hinst := inst_insertInst hf ⟨none, ty, kind, [], name⟩
  have hparents : (m.updFunc f fun fd =>
      { fd with insts := fd.insts.insert ⟨none, ty, kind, [], name⟩ }).parentOf = m.parentOf := by
    funext i
    rw [parentOf, hinst, parentOf]
    split
    · next h => rw [h, inst_fresh hf]; rfl
    · rfl
  have hkinds : (m.updFunc f fun fd =>
      { fd with insts := fd.insts.insert ⟨none, ty, kind, [], name⟩ }).kindOf =
      Function.update m.kindOf ⟨f, fd.insts.next⟩ (some kind) := by
    funext i
    rw [kindOf, hinst]
    by_cases hi : i = ⟨f, fd.insts.next⟩
    · subst hi; simp
    · rw [if_neg hi, Function.update_of_ne hi]; rfl
  -- the key is fresh, so nothing has been registered under it
  have hfresh : ¬ P ⟨f, fd.insts.next⟩ := by
    intro hr
    have hsome := hP _ hr
    rw [inst_fresh hf] at hsome
    cases hsome
  refine ⟨?_, hfresh, hparents, hkinds⟩
  -- a new value with an empty use list
  refine Registered.create_value h (v := .inst ⟨f, fd.insts.next⟩) ?_ ?_ ?_ ?_
  · rw [valueUses, inst_fresh hf]; rfl
  · funext w
    by_cases hw : w = .inst ⟨f, fd.insts.next⟩
    · subst hw; simp [valueUses, hinst]
    · rw [Function.update_of_ne hw]
      cases w with
      | inst i =>
        have hi : i ≠ ⟨f, fd.insts.next⟩ := fun h => hw (congrArg ValueId.inst h)
        simp [valueUses, hinst, hi]
      | arg a => simp [valueUses, m.arg_updFunc_of_args]
      | global c => rfl
      | const c => rfl
  · funext b
    simp [blockUses, m.block_updFunc_of_blocks]
  · intro i hi
    rw [hkinds, Function.update_of_ne]
    rintro rfl
    exact hfresh hi

/-- A new instruction stands in no block. -/
theorem newInst_spec (h : m.Indexed) {f : FunctionId} {ty : Ty} {kind : InstKind}
    {name : Option String} {r : InstRef} (hrun : m.newInst f ty kind name = some (r, m')) :
    m'.Indexed ∧ m'.parentOf = m.parentOf ∧ m'.kindOf = Function.update m.kindOf r (some kind) := by
  obtain ⟨hreg, -, hparents, hkinds⟩ := newInst_registered h
    (fun r hr => by
      obtain ⟨d, hd, -⟩ := hr
      exact Option.isSome_of_eq_some hd) hrun
  refine ⟨?_, hparents, hkinds⟩
  exact hreg.congr rfl rfl (fun i => by rw [inserted_iff, inserted_iff, hparents]) fun _ _ => rfl

/-! ## Detaching and erasing -/

/-- Taking an unregistered instruction out of the lists of a block. -/
theorem unplace_spec (h : m.Registered P) {inst : InstRef} {d : InstData}
    (hd : m.inst inst = some d) {b : BlockRef} {g : BlockData → BlockData}
    (hg : ∀ bd, (g bd).uses = bd.uses) {m' : ModuleCore}
    (heq : m' = (m.updBlock b g).updInst inst fun d => { d with parent := none }) :
    m'.Registered P ∧ m'.kindOf = m.kindOf ∧ m'.parentOf = Function.update m.parentOf inst none := by
  subst heq
  have hd₁ : (m.updBlock b g).inst inst = some d := by rw [inst_updBlock, hd]
  have hkind : ((m.updBlock b g).updInst inst fun d => { d with parent := none }).kindOf =
      m.kindOf := by
    rw [kindOf_updInst (by intro; rfl), kindOf_updBlock]
  refine ⟨?_, hkind, by rw [parentOf_setParent hd₁, parentOf_updBlock]⟩
  exact h.congr ((valueUses_updInst (by intro; rfl)).trans valueUses_updBlock)
    (blockUses_updInst.trans (blockUses_updBlock hg)) (fun _ => Iff.rfl) fun r _ => by rw [hkind]

/-- A detached instruction is registered no more and has no parent. -/
theorem detachInst_spec (h : m.Registered P) {inst : InstRef}
    (hrun : m.detachInst inst = some m') :
    m'.Registered (fun r => P r ∧ r ≠ inst) ∧ m'.kindOf = m.kindOf ∧
      m'.parentOf = Function.update m.parentOf inst none := by
  simp only [detachInst, Option.bind_eq_bind, Option.bind_eq_some_iff] at hrun
  obtain ⟨m₁, hunreg, d, hd, hrun⟩ := hrun
  obtain ⟨hreg, hcode⟩ := unregisterInstUse_spec h hunreg
  rw [← hcode.kindOf, ← hcode.parentOf]
  cases hp : d.parent with
  | none =>
    rw [hp] at hrun
    cases hrun
    refine ⟨hreg, rfl, ?_⟩
    rw [eq_comm, Function.update_eq_self_iff, parentOf_of_inst hd, hp]
  | some parent =>
    rw [hp] at hrun
    obtain ⟨pos, -, hrun⟩ := Option.bind_eq_some_iff.mp hrun
    cases pos with
    | inst pos => cases hrun; exact unplace_spec hreg hd (by intro; rfl) rfl
    | phi pos => cases hrun; exact unplace_spec hreg hd (by intro; rfl) rfl
    | terminator => cases hrun; exact unplace_spec hreg hd (by intro; rfl) rfl

/-- The instructions after one has been removed from the arena. -/
theorem inst_removeInst (inst r : InstRef) :
    (m.updFunc inst.func fun fd => { fd with insts := fd.insts.remove inst.inst }).inst r =
      if r = inst then none else m.inst r := by
  rw [inst_updFunc]
  obtain ⟨rf, ri⟩ := r
  obtain ⟨f, i⟩ := inst
  simp only [InstRef.mk.injEq]
  by_cases hf : rf = f
  · subst hf
    simp only [if_true, SlotMap.get?_remove, true_and]
    split
    · cases m.func rf <;> rfl
    · rfl
  · rw [if_neg hf, if_neg fun h => hf h.1]

/-- An instruction without uses is removed with its use list, and the lists of others stay. -/
theorem eraseInstFromParent_spec (h : m.Registered P) {inst : InstRef}
    (hrun : m.eraseInstFromParent inst = some m') :
    m'.Registered (fun r => P r ∧ r ≠ inst) ∧
      m'.kindOf = Function.update m.kindOf inst none ∧
      m'.parentOf = Function.update m.parentOf inst none := by
  simp only [eraseInstFromParent, Option.bind_eq_bind, Option.bind_eq_some_iff,
    Option.guard_eq_some'] at hrun
  obtain ⟨uses, huses, -, hempty, m₁, hdetach, heq⟩ := hrun
  obtain ⟨hreg, hkinds, hparents⟩ := detachInst_spec h hdetach
  cases heq
  rw [List.isEmpty_iff] at hempty
  subst hempty
  have hinst := inst_removeInst (m := m₁) inst
  have hkinds' : (m₁.updFunc inst.func fun fd =>
      { fd with insts := fd.insts.remove inst.inst }).kindOf =
      Function.update m.kindOf inst none := by
    funext r
    rw [kindOf, hinst, ← hkinds]
    by_cases hr : r = inst
    · subst hr; simp
    · rw [if_neg hr, Function.update_of_ne hr]; rfl
  -- the lists of values
  refine ⟨⟨?_, ?_⟩, hkinds', ?_⟩
  · -- no registered instruction uses the erased one
    have hunused : ∀ u : Use, ¬ ((P u.user ∧ u.user ≠ inst) ∧ m₁.OperandOf u (.inst inst)) := by
      rintro u ⟨⟨hP, -⟩, hop⟩
      rw [operandOf_iff, hkinds, ← operandOf_iff] at hop
      exact List.not_mem_nil ((h.values.mem_iff huses).mpr ⟨hP, hop⟩)
    -- only the list of the erased instruction goes
    refine (hreg.values.remove hunused ?_).congr fun u v => ?_
    · funext w
      by_cases hw : w = .inst inst
      · subst hw; simp [valueUses, hinst]
      · rw [Function.update_of_ne hw]
        cases w with
        | inst r =>
          have hr : r ≠ inst := fun h => hw (congrArg ValueId.inst h)
          simp [valueUses, hinst, hr]
        | arg a => simp [valueUses, m₁.arg_updFunc_of_args]
        | global c => rfl
        | const c => rfl
    · refine and_congr_right fun hu => ?_
      rw [operandOf_iff, operandOf_iff, hkinds', hkinds, Function.update_of_ne hu.2]
  -- the lists of blocks
  · have hblocks : (m₁.updFunc inst.func fun fd =>
        { fd with insts := fd.insts.remove inst.inst }).blockUses = m₁.blockUses := by
      funext b
      simp [blockUses, m₁.block_updFunc_of_blocks]
    rw [hblocks]
    refine hreg.blocks.congr fun u b => and_congr_right fun hu => ?_
    rw [blockOperandOf_iff, blockOperandOf_iff, hkinds', hkinds, Function.update_of_ne hu.2]
  -- the parents
  · funext r
    rw [parentOf, hinst]
    by_cases hr : r = inst
    · subst hr; simp
    · rw [if_neg hr, Function.update_of_ne hr, ← parentOf, hparents, Function.update_of_ne hr]

/-- Erasing an instruction that is used keeps the lists right: its users read undefined values
afterwards. -/
theorem eraseInstFromParentForcely_spec (h : m.Registered P) {inst : InstRef}
    (hrun : m.eraseInstFromParentForcely inst = some m') :
    m'.Registered (fun r => P r ∧ r ≠ inst) ∧
      m'.parentOf = Function.update m.parentOf inst none := by
  simp only [eraseInstFromParentForcely, Option.bind_eq_bind, Option.bind_eq_some_iff] at hrun
  obtain ⟨uses, huses, m₁, hloop, herase⟩ := hrun
  have hloop' : m₁.Registered P ∧ m₁.parentOf = m.parentOf := by
    refine OptionFold.preserves (fun s => s.Registered P ∧ s.parentOf = m.parentOf)
      (fun u hu s s' hs hstep => ?_) ⟨h, rfl⟩ hloop
    simp only [Option.bind_eq_some_iff] at hstep
    obtain ⟨ty, -, hstep⟩ := hstep
    have hmade : MadeKey s (s.addUndefConst ty).2 := addConst_spec ty .undef
    have hP : P u.user := ((h.values.mem_iff huses).mp hu).1
    obtain ⟨hreg, hrw⟩ := replaceInstOperand_spec (hmade.registered P hs.1) hP hstep
    exact ⟨hreg, hrw.parents.trans (hmade.parents.trans hs.2)⟩
  obtain ⟨hreg, -, hparents⟩ := eraseInstFromParent_spec hloop'.1 herase
  exact ⟨hreg, hparents.trans (by rw [hloop'.2])⟩

/-- Erasing an instruction that is used keeps the module indexed. -/
theorem eraseInstFromParentForcely_indexed (h : m.Indexed) {inst : InstRef}
    (hrun : m.eraseInstFromParentForcely inst = some m') : m'.Indexed := by
  obtain ⟨hreg, hparents⟩ := eraseInstFromParentForcely_spec h hrun
  exact hreg.congr rfl rfl (inserted_update_none hparents) fun _ _ => rfl

/-- Erasing the instructions of a block keeps the module indexed. -/
theorem eraseBlockInsts_indexed (h : m.Indexed) {block : BlockRef}
    (hrun : m.eraseBlockInsts block = some m') : m'.Indexed := by
  simp only [eraseBlockInsts, Option.bind_eq_bind, Option.bind_eq_some_iff] at hrun
  obtain ⟨phis, -, m₁, hphis, insts, -, m₂, hinsts, term, -, hrun⟩ := hrun
  have h₁ : m₁.Indexed := OptionFold.preserves Indexed
    (fun r _ s s' hs hstep => eraseInstFromParentForcely_indexed hs hstep) h hphis
  have h₂ : m₂.Indexed := OptionFold.preserves Indexed
    (fun r _ s s' hs hstep => eraseInstFromParentForcely_indexed hs hstep) h₁ hinsts
  cases term with
  | none => cases hrun; exact h₂
  | some t => exact eraseInstFromParentForcely_indexed h₂ hrun

/-- The blocks after one has been removed from the arena. -/
theorem block_removeBlock (b c : BlockRef) :
    (m.updFunc b.func fun fd => { fd with blocks := fd.blocks.remove b.block }).block c =
      if c = b then none else m.block c := by
  rw [block_updFunc]
  obtain ⟨cf, ci⟩ := c
  obtain ⟨f, i⟩ := b
  simp only [BlockRef.mk.injEq]
  by_cases hf : cf = f
  · subst hf
    simp only [if_true, SlotMap.get?_remove, true_and]
    split
    · cases m.func cf <;> rfl
    · rfl
  · rw [if_neg hf, if_neg fun h => hf h.1]

/-- After its uses by phis are dropped a block is in no use. -/
theorem eraseBlockUses_indexed (h : m.Indexed) {block : BlockRef}
    (hrun : m.eraseBlockUses block = some m') : m'.Indexed := by
  simp only [eraseBlockUses, Option.bind_eq_bind, Option.bind_eq_some_iff] at hrun
  obtain ⟨uses, huses, m₁, hloop, heq⟩ := hrun
  cases heq
  -- the uses that are left are among those still to come
  have hinv : (m₁.Registered m.Inserted ∧ m₁.parentOf = m.parentOf) ∧
      ∀ u, m.Inserted u.user ∧ m₁.BlockOperandOf u block → u ∈ ([] : List BlockUse) := by
    refine OptionFold.invariant (fun rest s => (s.Registered m.Inserted ∧ s.parentOf = m.parentOf) ∧
      ∀ u, m.Inserted u.user ∧ s.BlockOperandOf u block → u ∈ rest) ?_
      ⟨⟨h, rfl⟩, fun u hu => (h.blocks.mem_iff huses).mpr hu⟩ hloop
    rintro ⟨user, slot⟩ rest s s' ⟨⟨hreg, hparents⟩, hrest⟩ hstep
    -- a branch that still names the block stops the loop
    cases slot with
    | phiIncomingBlock i =>
      obtain ⟨hreg', hrw, hops⟩ := phiRemoveIncomingFrom_spec hreg hstep
      refine ⟨⟨hreg', hrw.parents.trans hparents⟩, fun u hu => ?_⟩
      obtain ⟨hold, hne⟩ := hops u block hu.2
      exact (List.mem_cons.mp (hrest u ⟨hu.1, hold⟩)).resolve_left hne
    | branchThen => cases hstep
    | branchElse => cases hstep
  obtain ⟨⟨hreg, hparents⟩, hnone⟩ := hinv
  have hinst := m₁.inst_updFunc_of_insts (f := block.func) (g := fun fd =>
    { fd with blocks := fd.blocks.remove block.block }) (by intro; rfl)
  have hkinds : (m₁.updFunc block.func fun fd =>
      { fd with blocks := fd.blocks.remove block.block }).kindOf = m₁.kindOf := by
    funext r; simp [kindOf, hinst]
  have hparents' : (m₁.updFunc block.func fun fd =>
      { fd with blocks := fd.blocks.remove block.block }).parentOf = m.parentOf := by
    rw [← hparents]
    funext r; simp [parentOf, hinst]
  have hreg' : (m₁.updFunc block.func fun fd =>
      { fd with blocks := fd.blocks.remove block.block }).Registered m.Inserted := by
    constructor
    · have hvals : (m₁.updFunc block.func fun fd =>
          { fd with blocks := fd.blocks.remove block.block }).valueUses = m₁.valueUses := by
        funext v
        cases v <;> simp [valueUses, hinst, m₁.arg_updFunc_of_args]
      rw [hvals]
      refine hreg.values.congr fun u v => ?_
      rw [operandOf_iff, operandOf_iff, hkinds]
    · refine (hreg.blocks.remove (k := block) (fun u hu => List.not_mem_nil (hnone u hu)) ?_).congr
        fun u b => by rw [blockOperandOf_iff, blockOperandOf_iff, hkinds]
      funext c
      by_cases hc : c = block
      · subst hc; simp [blockUses, block_removeBlock]
      · rw [Function.update_of_ne hc]; simp [blockUses, block_removeBlock, hc]
  exact hreg'.congr rfl rfl (fun r => by rw [inserted_iff, inserted_iff, hparents']) fun _ _ => rfl

/-- Rewriting the block order changes no use list and no instruction. -/
theorem blockOrder_indexed (h : m.Indexed) (f : FunctionId) (g : List BlockId → List BlockId) :
    (m.updFunc f fun fd => { fd with blockOrder := g fd.blockOrder }).Indexed := by
  have hinst := m.inst_updFunc_of_insts (f := f) (g := fun fd =>
    { fd with blockOrder := g fd.blockOrder }) (by intro; rfl)
  refine Registered.congr h ?_ ?_ (fun r => ?_) fun r _ => by simp [kindOf, hinst]
  · funext v
    cases v <;> simp [valueUses, hinst, m.arg_updFunc_of_args]
  · funext b
    simp [blockUses, m.block_updFunc_of_blocks]
  · rw [inserted_iff, inserted_iff, parentOf, parentOf, hinst]

/-- Erasing blocks keeps the module indexed. -/
theorem eraseBlocksFromParent_indexed (h : m.Indexed) {blocks : List BlockRef}
    (hrun : m.eraseBlocksFromParent blocks = some m') : m'.Indexed := by
  simp only [eraseBlocksFromParent, Option.bind_eq_bind, Option.bind_eq_some_iff] at hrun
  obtain ⟨m₁, hinsts, m₂, huses, heq⟩ := hrun
  cases heq
  have h₁ : m₁.Indexed := OptionFold.preserves Indexed
    (fun b _ s s' hs hstep => eraseBlockInsts_indexed hs hstep) h hinsts
  have h₂ : m₂.Indexed := OptionFold.preserves Indexed
    (fun b _ s s' hs hstep => eraseBlockUses_indexed hs hstep) h₁ huses
  clear hinsts huses
  induction blocks generalizing m₂ with
  | nil => exact h₂
  | cons b blocks ih => exact ih _ (blockOrder_indexed h₂ b.func _)

/-! ## Overwriting -/

/-- What `replaceInst` does before the users are redirected: the new instruction takes the place
of the old one in the lists of its block and gets its parent. -/
theorem replaceInst_eq_some {old new : InstRef} (hrun : m.replaceInst old new = some m') :
    ∃ od parent nd g, m.inst old = some od ∧ od.parent = some parent ∧ m.inst new = some nd ∧
      nd.parent = none ∧ (∀ bd : BlockData, (g bd).uses = bd.uses) ∧
      (((m.updBlock parent g).updInst new fun d => { d with parent := some parent }).updInst old
        fun d => { d with parent := none }).replaceAllUsesWith (.inst old) (.inst new) = some m' := by
  simp only [replaceInst, Option.bind_eq_bind, Option.bind_eq_some_iff,
    Option.guard_eq_some'] at hrun
  obtain ⟨-, -, od, hod, parent, hparent, nd, hnd, -, hnp, -, -, pos, -, hrun⟩ := hrun
  rw [Option.isNone_iff_eq_none] at hnp
  cases pos with
  | inst pos =>
    obtain ⟨-, -, hall⟩ := Option.bind_eq_some_iff.mp hrun
    exact ⟨od, parent, nd, _, hod, hparent, hnd, hnp, by intro; rfl, hall⟩
  | phi pos =>
    obtain ⟨-, -, hall⟩ := Option.bind_eq_some_iff.mp hrun
    exact ⟨od, parent, nd, _, hod, hparent, hnd, hnp, by intro; rfl, hall⟩
  | terminator =>
    obtain ⟨-, -, hall⟩ := Option.bind_eq_some_iff.mp hrun
    exact ⟨od, parent, nd, _, hod, hparent, hnd, hnp, by intro; rfl, hall⟩

/-- The users of the old instruction use the new one, whose operands are not registered. -/
theorem overwriteInst_spec (h : m.Registered P) {old new : InstRef} (hnew : ¬P new)
    (hrun : m.overwriteInst old new = some m') :
    m'.Registered (fun r => P r ∧ r ≠ old) ∧ m'.kindOf new = m.kindOf new ∧
      (m.parentOf old).isSome ∧ m.parentOf new = none ∧
      m'.parentOf = Function.update (Function.update m.parentOf new (m.parentOf old)) old none := by
  obtain ⟨m₂, hreplace, herase⟩ := Option.bind_eq_some_iff.mp hrun
  obtain ⟨od, parent, nd, g, hod, hparent, hnd, hnp, hg, hall⟩ := replaceInst_eq_some hreplace
  have hparentOld : m.parentOf old = some parent := by rw [parentOf_of_inst hod, hparent]
  have hparentNew : m.parentOf new = none := by rw [parentOf_of_inst hnd, hnp]
  have hne : old ≠ new := by
    rintro rfl
    cases hparentOld.symm.trans hparentNew
  have hnd₁ : (m.updBlock parent g).inst new = some nd := by rw [inst_updBlock, hnd]
  have hod₁ : ((m.updBlock parent g).updInst new fun d => { d with parent := some parent }).inst old
      = some od := by
    rw [inst_updInst_of_ne _ hne, inst_updBlock, hod]
  generalize hs : ((m.updBlock parent g).updInst new fun d => { d with parent := some parent }).updInst
    old (fun d => { d with parent := none }) = s at hall
  have hkinds : s.kindOf = m.kindOf := by
    rw [← hs, kindOf_updInst (by intro; rfl), kindOf_updInst (by intro; rfl), kindOf_updBlock]
  have hparents : s.parentOf =
      Function.update (Function.update m.parentOf new (some parent)) old none := by
    rw [← hs, parentOf_setParent hod₁, parentOf_setParent hnd₁, parentOf_updBlock]
  have hreg : s.Registered P := by
    refine Registered.congr h ?_ ?_ (fun _ => Iff.rfl) fun r _ => by rw [hkinds]
    · rw [← hs, valueUses_updInst (by intro; rfl), valueUses_updInst (by intro; rfl),
        valueUses_updBlock]
    · rw [← hs, blockUses_updInst, blockUses_updInst, blockUses_updBlock hg]
  -- its users are redirected, and the old instruction is erased
  obtain ⟨hreg₂, hparents₂, hkinds₂⟩ := replaceAllUsesWith_spec hreg hall
  obtain ⟨hreg₃, hkinds₃, hparents₃⟩ := eraseInstFromParent_spec hreg₂ herase
  refine ⟨hreg₃, ?_, Option.isSome_of_eq_some hparentOld, hparentNew, ?_⟩
  · rw [hkinds₃, Function.update_of_ne (Ne.symm hne), hkinds₂ new hnew, hkinds]
  · rw [hparents₃, hparents₂, hparents, Function.update_idem, hparentOld]

/-- Overwriting is exact when the new instruction has no operand. -/
theorem overwriteInst_indexed (h : m.Indexed) {old new : InstRef} {k : InstKind}
    (hk : m.kindOf new = some k) (hvals : k.valueOperands = []) (hblocks : k.blockOperands = [])
    (hrun : m.overwriteInst old new = some m') : m'.Indexed := by
  have hnot : ¬m.Inserted new := by
    obtain ⟨m₂, hreplace, -⟩ := Option.bind_eq_some_iff.mp hrun
    obtain ⟨-, -, nd, -, -, -, hnd, hnp, -⟩ := replaceInst_eq_some hreplace
    rw [inserted_iff, parentOf_of_inst hnd, hnp]
    exact Bool.false_ne_true
  obtain ⟨hreg, hkinds, -, -, hparents⟩ := overwriteInst_spec h hnot hrun
  refine hreg.of_no_operands (hkinds.trans hk) hvals hblocks fun r hr => ?_
  rw [inserted_iff, hparents]
  by_cases hro : r = old
  · subst hro; simp
  · rw [Function.update_of_ne hro, Function.update_of_ne hr, inserted_iff]
    simp [hro]

/-! ## Splitting a block -/

/-- Moving an instruction that is no phi keeps every instruction where it is up to that one. -/
structure Moved (m m' : ModuleCore) : Prop where
  indexed : m'.Indexed
  kinds : m'.kindOf = m.kindOf
  phis : ∀ r k, m.kindOf r = some k → k.isPhi = true → m'.parentOf r = m.parentOf r

/-- Nothing has moved. -/
theorem Moved.refl (h : m.Indexed) : Moved m m := ⟨h, rfl, fun _ _ _ _ => rfl⟩

/-- Moves one after the other. -/
theorem Moved.trans {m'' : ModuleCore} (h : Moved m m') (h' : Moved m' m'') : Moved m m'' :=
  ⟨h'.indexed, h'.kinds.trans h.kinds, fun r k hk hphi =>
    (h'.phis r k (by rw [h.kinds, hk]) hphi).trans (h.phis r k hk hphi)⟩

/-- Detach an instruction and insert it somewhere, where phis are refused. -/
theorem moved_of_reinsert (h : m.Indexed) {inst : InstRef} {m₁ : ModuleCore}
    (hdetach : m.detachInst inst = some m₁) {block : BlockRef}
    (hins : m₁.Indexed → InsertedInto m₁ block inst m' ∧
      ∀ k, m₁.kindOf inst = some k → k.isPhi = false) : Moved m m' := by
  obtain ⟨hreg, hkinds, hparents⟩ := detachInst_spec h hdetach
  have h₁ : m₁.Indexed := hreg.congr rfl rfl (inserted_update_none hparents) fun _ _ => rfl
  obtain ⟨hinto, hphi⟩ := hins h₁
  refine ⟨hinto.indexed, hinto.kinds.trans hkinds, fun r k hk hkphi => ?_⟩
  have hne : r ≠ inst := by
    rintro rfl
    rw [hphi k (by rw [hkinds, hk])] at hkphi
    cases hkphi
  rw [hinto.parents, Function.update_of_ne hne, hparents, Function.update_of_ne hne]

/-- Splitting a block keeps the module indexed. -/
theorem splitBlockAt_indexed (h : m.Indexed) {inst : InstRef} {addTerminator : Bool} {b : BlockRef}
    (hrun : m.splitBlockAt inst addTerminator = some (b, m')) : m'.Indexed := by
  simp only [splitBlockAt, Option.bind_eq_bind, Option.bind_eq_some_iff] at hrun
  obtain ⟨d, -, parent, -, bd, hbd, phiUses, hphis, position, -, ⟨newBlock, m₁⟩, happend,
    m₂, hmoves, term, -, hrun⟩ := hrun
  have hmade := (appendBlock_spec happend).1
  -- the instructions and the terminator move; phis stay
  have hmoved₂ : Moved m₁ m₂ := by
    refine OptionFold.preserves (Moved m₁) (fun i _ s s' hs hstep => ?_)
      (Moved.refl (hmade.indexed h)) hmoves
    obtain ⟨s₁, hdetach, hins⟩ := Option.bind_eq_some_iff.mp hstep
    exact hs.trans (moved_of_reinsert hs.indexed hdetach fun h₁ => appendInst_spec h₁ hins)
  have htail : ∃ m₃ m₄, Moved m₁ m₃ ∧ phiUses.foldlM (fun m (u : BlockUse) =>
      m.replaceBlockOperand u.user u.slot newBlock) m₃ = some m₄ ∧
      (if addTerminator then (m₄.newInst inst.func .void (.branch newBlock.block none) none).bind
        fun j => (j.2.setTerminator parent j.1).bind fun m => some (newBlock, m)
      else some (newBlock, m₄)) = some (b, m') := by
    cases term with
    | none =>
      obtain ⟨_, heq, hrun⟩ := Option.bind_eq_some_iff.mp hrun
      cases heq
      obtain ⟨m₄, hredirect, hrun⟩ := Option.bind_eq_some_iff.mp hrun
      exact ⟨m₂, m₄, hmoved₂, hredirect, hrun⟩
    | some t =>
      obtain ⟨s₁, hdetach, hrun⟩ := Option.bind_eq_some_iff.mp hrun
      obtain ⟨m₃, hins, hrun⟩ := Option.bind_eq_some_iff.mp hrun
      obtain ⟨m₄, hredirect, hrun⟩ := Option.bind_eq_some_iff.mp hrun
      exact ⟨m₃, m₄, hmoved₂.trans (moved_of_reinsert hmoved₂.indexed hdetach fun h₁ =>
        setTerminator_spec h₁ hins), hredirect, hrun⟩
  obtain ⟨m₃, m₄, hmoved₃, hredirect, hrun⟩ := htail
  -- the users that are redirected are phis, so they still stand in their blocks
  have huser : ∀ u ∈ phiUses, m₃.Inserted u.user := by
    intro u hu
    obtain ⟨hu, hp⟩ := OptionFold.mem_filterM hphis hu
    obtain ⟨ud, hud, hphi⟩ := Option.bind_eq_some_iff.mp hp
    rw [Option.some_inj] at hphi
    have hins := ((h.blocks.mem_iff (k := parent) (by rw [blockUses, hbd]; rfl)).mp hu).1
    have hk₁ : m₁.kindOf u.user = some ud.kind := by rw [hmade.kinds, kindOf_of_inst hud]
    rw [inserted_iff, hmoved₃.phis _ _ hk₁ hphi, hmade.parents, ← inserted_iff]
    exact hins
  have h₄ : m₄.Indexed := by
    have hreg : m₄.Registered m₃.Inserted ∧ m₄.parentOf = m₃.parentOf :=
      OptionFold.preserves (fun s => s.Registered m₃.Inserted ∧ s.parentOf = m₃.parentOf)
        (fun u hu s s' hs hstep => by
          obtain ⟨hreg, hrw⟩ := replaceBlockOperand_spec hs.1 (huser u hu) hstep
          exact ⟨hreg, hrw.parents.trans hs.2⟩) ⟨hmoved₃.indexed, rfl⟩ hredirect
    exact hreg.1.congr rfl rfl (fun r => by rw [inserted_iff, inserted_iff, hreg.2]) fun _ _ => rfl
  split at hrun
  · obtain ⟨⟨jump, m₅⟩, hnew, hrun⟩ := Option.bind_eq_some_iff.mp hrun
    obtain ⟨m₆, hset, heq⟩ := Option.bind_eq_some_iff.mp hrun
    cases heq
    exact (setTerminator_spec (newInst_spec h₄ hnew).1 hset).1.indexed
  · cases hrun
    exact h₄

end ModuleCore

end Ir
