import C0mpiler.Ir.CodeEdits
import Mathlib

/-!
# New blocks, phis and terminators

What `append_block`, `append_phi`, `set_terminator` and `overwrite_inst` do to a module, and that
they succeed. `Edited` says what an edit leaves: the code, the use lists it does not touch, and the
key the next instruction gets.
-/

namespace Ir

/-- `v` is an operand. -/
def InstKind.Reads (k : InstKind) (v : ValueId) : Prop := ∃ slot, (v, slot) ∈ k.valueOperands

namespace ModuleCore

variable {m m' m'' : ModuleCore}

/-- The key that the next instruction of a function gets. -/
def nextInst (m : ModuleCore) (f : FunctionId) : Option InstId := (m.func f).map (·.insts.next)

/-- The next key is that of the arena's counter. -/
theorem nextInst_updFunc (f : FunctionId) {g : FunctionData → FunctionData}
    (hg : ∀ fd, (g fd).insts.next = fd.insts.next) : (m.updFunc f g).nextInst = m.nextInst := by
  funext f'
  unfold nextInst
  rw [func_updFunc]
  split
  · next h => rw [Option.map_map, h]; exact congrArg (Option.map · (m.func f)) (funext hg)
  · rfl

/-- `m'` has the code `C`, and the use lists of `m` but for those of the values `vs`. -/
structure Edited (m : ModuleCore) (C : Code) (vs : ValueId → Prop) (m' : ModuleCore) : Prop where
  code : m'.code = C
  uses : ∀ v, ¬vs v → m'.valueUses v = m.valueUses v
  next : m'.nextInst = m.nextInst

namespace Edited

variable {C C' : Code} {vs vs' : ValueId → Prop}

theorem refl (m : ModuleCore) (vs : ValueId → Prop) : Edited m m.code vs m :=
  ⟨rfl, fun _ _ => rfl, rfl⟩

theorem trans (h : Edited m C vs m') (h' : Edited m' C' vs m'') : Edited m C' vs m'' where
  code := h'.code
  uses v hv := (h'.uses v hv).trans (h.uses v hv)
  next := h'.next.trans h.next

theorem mono (h : Edited m C vs m') (hle : ∀ v, vs v → vs' v) : Edited m C vs' m' where
  code := h.code
  uses v hv := h.uses v fun hvs => hv (hle v hvs)
  next := h.next

end Edited

/-! ## Use lists -/

/-- Writing the use list of a value edits the lists of that value only. -/
theorem updValueUses_edited {v : ValueId} {g : List Use → List Use}
    (hrun : m.updValueUses v g = some m') : Edited m m.code (· = v) m' := by
  obtain ⟨l, hw⟩ := updValueUses_spec hrun
  refine ⟨hw.code.code_eq, fun w hwv => ?_, ?_⟩
  · rw [hw.values]
    exact Function.update_of_ne hwv _ _
  · obtain ⟨_, -, hrun⟩ := Option.bind_eq_some_iff.mp hrun
    cases v <;> cases hrun <;> first | exact nextInst_updFunc _ fun _ => rfl | rfl

/-- Writing the use list of a block edits no list of a value. -/
theorem updBlockUses_edited {b : BlockRef} {g : List BlockUse → List BlockUse}
    (hrun : m.updBlockUses b g = some m') (vs : ValueId → Prop) : Edited m m.code vs m' := by
  obtain ⟨l, hw⟩ := updBlockUses_spec hrun
  refine ⟨hw.code.code_eq, fun w _ => congrFun hw.values w, ?_⟩
  obtain ⟨_, -, hrun⟩ := Option.bind_eq_some_iff.mp hrun
  cases hrun
  exact nextInst_updFunc _ fun _ => rfl

/-- Writing the lists of several values edits theirs only. -/
theorem foldValueUses_edited {ops : List (ValueId × OperandSlot)}
    (g : ValueId × OperandSlot → List Use → List Use)
    (hrun : ops.foldlM (fun m op => m.updValueUses op.1 (g op)) m = some m') :
    Edited m m.code (fun v => ∃ slot, (v, slot) ∈ ops) m' := by
  induction ops generalizing m with
  | nil =>
    cases hrun
    exact .refl _ _
  | cons op ops ih =>
    obtain ⟨m₁, h₁, hrest⟩ := OptionFold.cons_eq_some.mp hrun
    have hhead : Edited m m.code (fun v => ∃ slot, (v, slot) ∈ op :: ops) m₁ :=
      (updValueUses_edited h₁).mono fun v hv => ⟨op.2, hv ▸ List.mem_cons_self⟩
    have htail : Edited m₁ m₁.code (fun v => ∃ slot, (v, slot) ∈ op :: ops) m' :=
      (ih hrest).mono fun v ⟨slot, hmem⟩ => ⟨slot, List.mem_cons_of_mem _ hmem⟩
    exact hhead.code ▸ hhead.trans htail

/-- Writing the lists of several blocks edits no list of a value. -/
theorem foldBlockUses_edited {ops : List (BlockId × BlockOperandSlot)} {f : FunctionId}
    (g : BlockId × BlockOperandSlot → List BlockUse → List BlockUse) (vs : ValueId → Prop)
    (hrun : ops.foldlM (fun m op => m.updBlockUses ⟨f, op.1⟩ (g op)) m = some m') :
    Edited m m.code vs m' := by
  induction ops generalizing m with
  | nil =>
    cases hrun
    exact .refl _ _
  | cons op ops ih =>
    obtain ⟨m₁, h₁, hrest⟩ := OptionFold.cons_eq_some.mp hrun
    have hhead := updBlockUses_edited h₁ vs
    exact hhead.code ▸ hhead.trans (ih hrest)

/-- Registering an instruction edits the lists of what it reads. -/
theorem registerInstUse_edited {user : InstRef} {d : InstData} (hd : m.inst user = some d)
    (hrun : m.registerInstUse user = some m') : Edited m m.code d.kind.Reads m' := by
  simp only [registerInstUse, hd, Option.bind_eq_bind, Option.bind_some,
    Option.bind_eq_some_iff] at hrun
  obtain ⟨m₁, hvalues, hblocks⟩ := hrun
  have h₁ := foldValueUses_edited (fun op => (· ++ [⟨user, op.2⟩])) hvalues
  have h₂ := foldBlockUses_edited (fun op => (· ++ [⟨user, op.2⟩])) d.kind.Reads hblocks
  exact h₁.code ▸ Edited.trans h₁ h₂

/-- Unregistering an instruction edits the lists of what it reads. -/
theorem unregisterInstUse_edited {user : InstRef} {d : InstData} (hd : m.inst user = some d)
    (hrun : m.unregisterInstUse user = some m') : Edited m m.code d.kind.Reads m' := by
  simp only [unregisterInstUse, hd, Option.bind_eq_bind, Option.bind_some,
    Option.bind_eq_some_iff] at hrun
  obtain ⟨m₁, hvalues, hblocks⟩ := hrun
  have h₁ := foldValueUses_edited (fun op => (·.erase ⟨user, op.2⟩)) hvalues
  have h₂ := foldBlockUses_edited (fun op => (·.erase ⟨user, op.2⟩)) d.kind.Reads hblocks
  exact h₁.code ▸ Edited.trans h₁ h₂

/-- Unregistering an instruction without block operands succeeds when all its operands exist. -/
theorem unregisterInstUse_total {user : InstRef} {d : InstData} (hd : m.inst user = some d)
    (hops : ∀ op ∈ d.kind.valueOperands, m.Defined op.1) (hblocks : d.kind.blockOperands = []) :
    ∃ m', m.unregisterInstUse user = some m' := by
  obtain ⟨m', hm', -⟩ := OptionFold.total_of_relates
    (fun m (op : ValueId × OperandSlot) => m.updValueUses op.1 (·.erase ⟨user, op.2⟩))
    SameCode.refl (fun _ _ _ h h' => h.trans h') (l := d.kind.valueOperands) (s := m)
    fun op hop s hs => updValueUses_total ((hops op hop).congr hs) _
  refine ⟨m', ?_⟩
  simp only [unregisterInstUse, hd, Option.bind_eq_bind, Option.bind_some, hm', hblocks,
    List.foldlM_nil, Option.pure_def]

/-! ## Records -/

/-- Changing an instruction edits no list if its own list stays. -/
theorem updInst_edited (i : InstRef) {g : InstData → InstData} (hg : ∀ d, (g d).uses = d.uses)
    (hcode : ∀ d, (g d).code = g d.code) (vs : ValueId → Prop) :
    Edited m (m.code.updInst i g) vs (m.updInst i g) where
  code := code_updInst i hcode
  uses v _ := congrFun (valueUses_updInst hg) v
  next := nextInst_updFunc _ fun _ => rfl

/-- Changing a block edits no list of a value. -/
theorem updBlock_edited (b : BlockRef) {g : BlockData → BlockData}
    (hcode : ∀ d, (g d).code = g d.code) (vs : ValueId → Prop) :
    Edited m (m.code.updBlock b g) vs (m.updBlock b g) where
  code := code_updBlock b hcode
  uses v _ := congrFun valueUses_updBlock v
  next := nextInst_updFunc _ fun _ => rfl

/-- Removing an instruction edits its own list only. -/
theorem removeInst_edited (i : InstRef) {vs : ValueId → Prop} (hvs : vs (.inst i)) :
    Edited m (m.code.removeInst i) vs
      (m.updFunc i.func fun fd => { fd with insts := fd.insts.remove i.inst }) where
  code := code_removeInst i
  uses v hv := by
    cases v with
    | inst r =>
      have hne : r ≠ i := fun h => hv (h ▸ hvs)
      show Option.map InstData.uses _ = (m.inst r).map InstData.uses
      rw [inst_removeInst, if_neg hne]
    | arg a =>
      show Option.map ArgData.uses _ = (m.arg a).map ArgData.uses
      rw [m.arg_updFunc_of_args (by intro; rfl)]
    | _ => simp [valueUses]
  next := nextInst_updFunc _ fun _ => rfl

/-! ## Creating -/

/-- A value is defined if it has a use list. -/
theorem defined_iff {v : ValueId} : m.Defined v ↔ (m.valueUses v).isSome := by
  rw [Defined, code_valueTy]
  cases v <;> simp only [valueTy, valueUses, Option.isSome_map]

/-- An instruction can be made in every function that exists. -/
theorem newInst_total {f : FunctionId} (hf : (m.func f).isSome) (ty : Ty) (kind : InstKind)
    (name : Option String) : ∃ r m', m.newInst f ty kind name = some (r, m') := by
  obtain ⟨fd, hfd⟩ := Option.isSome_iff_exists.mp hf
  simp only [newInst, hfd, Option.bind_eq_bind, Option.bind_some]
  exact ⟨_, _, rfl⟩

/-- What a new instruction leaves besides the code. -/
theorem newInst_edited {f : FunctionId} {ty : Ty} {kind : InstKind} {name : Option String}
    {r : InstRef} (hrun : m.newInst f ty kind name = some (r, m')) :
    (∀ v, v ≠ .inst r → m'.valueUses v = m.valueUses v) ∧ m.nextInst f = some r.inst ∧
      m'.nextInst = Function.update m.nextInst f (some (r.inst + 1)) := by
  have hspec := newInst_code hrun
  obtain ⟨fd, hf, heq⟩ := Option.bind_eq_some_iff.mp hrun
  cases heq
  refine ⟨fun v hv => ?_, ?_, ?_⟩
  · cases v with
    | inst r' =>
      have hne : r' ≠ ⟨f, fd.insts.next⟩ := fun h => hv (congrArg ValueId.inst h)
      show Option.map InstData.uses _ = (m.inst r').map InstData.uses
      rw [inst_insertInst hf, if_neg hne]
    | arg a =>
      show Option.map ArgData.uses _ = (m.arg a).map ArgData.uses
      rw [m.arg_updFunc_of_args (by intro; rfl)]
    | _ => simp [valueUses]
  · rw [nextInst, hf]
    rfl
  · funext f'
    unfold nextInst
    rw [func_updFunc]
    by_cases h : f' = f
    · subst h
      rw [if_pos rfl, Function.update_self, hf]
      rfl
    · rw [if_neg h, Function.update_of_ne h]

theorem appendBlock_code {f : FunctionId} {name : Option String} {b : BlockRef}
    (hrun : m.appendBlock f name = some (b, m')) :
    b.func = f ∧ m.block b = none ∧
      Edited m { m.code with
        func := Function.update m.code.func f
          ((m.code.func f).map fun fd => { fd with blockOrder := fd.blockOrder ++ [b.block] })
        block := Function.update m.code.block b (some ⟨name, [], [], none, f, []⟩) }
        (fun _ => False) m' := by
  obtain ⟨fd, hf, heq⟩ := Option.bind_eq_some_iff.mp hrun
  cases heq
  have hnone : m.block ⟨f, fd.blocks.next⟩ = none := by
    simp [block, hf, SlotMap.get?_next]
  refine ⟨rfl, hnone, Code.ext ?_ ?_ ?_ ?_ rfl rfl, fun v _ => ?_, nextInst_updFunc _ fun _ => rfl⟩
  -- the new block is the only one at its key, and the order of the function has it at the end
  -- functions
  · funext f'
    show Option.map FunctionData.header _ = Function.update m.code.func f _ f'
    rw [func_updFunc]
    by_cases h : f' = f
    · subst h
      rw [if_pos rfl, Function.update_self, code]
      dsimp only
      rw [hf]
      rfl
    · rw [if_neg h, Function.update_of_ne h]
      rfl
  -- instructions
  · funext r
    show Option.map InstData.code _ = (m.inst r).map InstData.code
    rw [m.inst_updFunc_of_insts (by intro; rfl)]
  -- blocks
  · funext b'
    show Option.map BlockData.code _ = Function.update m.code.block _ _ b'
    rw [block_updFunc]
    by_cases h : b' = ⟨f, fd.blocks.next⟩
    · subst h
      rw [if_pos rfl, Function.update_self, hf]
      simp [SlotMap.get?_insert, BlockData.code]
    · rw [Function.update_of_ne h]
      by_cases hf' : b'.func = f
      · have hblock : b'.block ≠ fd.blocks.next := fun hb => h (by cases b'; cases hf'; cases hb; rfl)
        have hget : m.block b' = fd.blocks.get? b'.block := by
          rw [block, hf', hf]
          rfl
        rw [if_pos hf', hf]
        show Option.map _ ((fd.blocks.insert _).get? b'.block) = (m.block b').map _
        rw [SlotMap.get?_insert, if_neg hblock, hget]
      · rw [if_neg hf']
        rfl
  -- arguments
  · funext a
    show Option.map ArgData.code _ = (m.arg a).map ArgData.code
    rw [m.arg_updFunc_of_args (by intro; rfl)]
  -- use lists
  · cases v with
    | inst r =>
      show Option.map InstData.uses _ = (m.inst r).map InstData.uses
      rw [m.inst_updFunc_of_insts (by intro; rfl)]
    | arg a =>
      show Option.map ArgData.uses _ = (m.arg a).map ArgData.uses
      rw [m.arg_updFunc_of_args (by intro; rfl)]
    | _ => simp [valueUses]

/-! ## Inserting -/

/-- What a block insertion followed by `attachInst` leaves. -/
theorem attachInst_edited {block : BlockRef} {inst : InstRef} {d : InstData}
    {g : BlockData → BlockData} (hg : ∀ bd, (g bd).code = g bd.code) (hd : m.inst inst = some d)
    (hrun : (m.updBlock block g).attachInst block inst = some m') :
    Edited m ((m.code.updBlock block g).updInst inst fun d => { d with parent := some block })
      d.kind.Reads m' := by
  have hblock := updBlock_edited (m := m) block hg d.kind.Reads
  have hparent := updInst_edited (m := m.updBlock block g) inst
    (g := fun d => { d with parent := some block }) (fun _ => rfl) (fun _ => rfl) d.kind.Reads
  have hd' : ((m.updBlock block g).updInst inst fun d => { d with parent := some block }).inst inst =
      some { d with parent := some block } := by
    rw [inst_updInst, if_pos rfl, inst_updBlock, hd]
    rfl
  have hregister := registerInstUse_edited hd' hrun
  rw [hblock.code] at hparent
  rw [hparent.code] at hregister
  exact (hblock.trans hparent).trans hregister

/-- A fresh instruction can be inserted in a block of its function. -/
theorem assertCanInsert_of_fresh {block : BlockRef} {inst : InstRef} {d : InstData}
    (hf : block.func = inst.func) (hd : m.inst inst = some d) (hp : d.parent = none) :
    m.assertCanInsert block inst = some d := by
  simp only [assertCanInsert, hf, hd, hp, Option.isNone_none, guard_true, Option.bind_eq_bind,
    Option.bind_some, Option.pure_def]

section

variable {block : BlockRef} {inst : InstRef} {d : InstData} {bd : BlockData}
  (hf : block.func = inst.func) (hd : m.inst inst = some d) (hp : d.parent = none)
  (hb : m.block block = some bd) (hops : ∀ op ∈ d.kind.valueOperands, m.Defined op.1)
  (hblocks : ∀ op ∈ d.kind.blockOperands, (m.block ⟨inst.func, op.1⟩).isSome)
include hf hd hp hb hops hblocks

/-- A fresh phi can be appended, and its operands' lists are the ones that change. -/
theorem appendPhi_total (hk : d.kind.isPhi = true) :
    ∃ m', m.appendPhi block inst = some m' ∧
      Edited m ((m.code.updBlock block fun b => { b with phis := b.phis ++ [inst.inst] }).updInst inst
        fun d => { d with parent := some block }) d.kind.Reads m' := by
  obtain ⟨m', hm', -⟩ := attachInst_total block
    (fun b : BlockData => { b with phis := b.phis ++ [inst.inst] }) (fun _ => rfl) hd hops hblocks
  refine ⟨m', ?_, attachInst_edited (fun _ => rfl) hd hm'⟩
  simp only [appendPhi, assertCanInsert_of_fresh hf hd hp, hk, hb, guard_true, Option.bind_eq_bind,
    Option.bind_some, Option.pure_def, hm']

/-- A fresh terminator can be set in a block that has none. -/
theorem setTerminator_total (hk : d.kind.isTerminator = true) (ht : bd.terminator = none) :
    ∃ m', m.setTerminator block inst = some m' ∧
      Edited m ((m.code.updBlock block fun b => { b with terminator := some inst.inst }).updInst inst
        fun d => { d with parent := some block }) d.kind.Reads m' := by
  obtain ⟨m', hm', -⟩ := attachInst_total block
    (fun b : BlockData => { b with terminator := some inst.inst }) (fun _ => rfl) hd hops hblocks
  refine ⟨m', ?_, attachInst_edited (fun _ => rfl) hd hm'⟩
  simp only [setTerminator, assertCanInsert_of_fresh hf hd hp, hk, hb, ht, Option.isNone_none,
    guard_true, Option.bind_eq_bind, Option.bind_some, Option.pure_def, hm']

end

/-! ## Overwriting a terminator -/

/-- The terminator of a block is found as the terminator. -/
theorem locateInst_of_terminator {i : InstRef} {d : InstData} {b : BlockRef} {bd : BlockData}
    (hd : m.inst i = some d) (hparent : d.parent = some b) (hb : m.block b = some bd)
    (hterm : bd.terminator = some i.inst) (hinsts : i.inst ∉ bd.insts) (hphis : i.inst ∉ bd.phis) :
    m.locateInst i = some .terminator := by
  have hidx : ∀ l : List InstId, i.inst ∉ l → l.findIdx? (· == i.inst) = none := fun l hl =>
    List.findIdx?_eq_none_iff.mpr fun j hj => beq_eq_false_iff_ne.mpr fun h => hl (h ▸ hj)
  simp only [locateInst, hd, hparent, hb, hidx _ hinsts, hidx _ hphis, hterm, Option.bind_eq_bind,
    Option.bind_some, if_true]

/-- An unused terminator without targets is overwritten by another one. -/
theorem overwriteInst_total {old new : InstRef} {d dn : InstData} {b : BlockRef} {bd : BlockData}
    (hne : old ≠ new) (hf : old.func = new.func) (hd : m.inst old = some d)
    (hparent : d.parent = some b) (hb : m.block b = some bd) (hterm : bd.terminator = some old.inst)
    (hinsts : old.inst ∉ bd.insts) (hphis : old.inst ∉ bd.phis) (huses : d.uses = [])
    (hops : ∀ op ∈ d.kind.valueOperands, m.Defined op.1) (hblocks : d.kind.blockOperands = [])
    (hn : m.inst new = some dn) (hnp : dn.parent = none)
    (hk : dn.kind.isTerminator = true) (hty : d.ty = dn.ty) :
    ∃ m', m.overwriteInst old new = some m' ∧
      Edited m (((m.code.updBlock b fun bd => { bd with terminator := some new.inst }).updInst new
        fun d => { d with parent := some b }).removeInst old)
        (fun v => d.kind.Reads v ∨ v = .inst old) m' := by
  -- the four edits of `replace_inst` and of the removal, each with the lists that it may write
  let vs : ValueId → Prop := fun v => d.kind.Reads v ∨ v = .inst old
  have hlocate := locateInst_of_terminator hd hparent hb hterm hinsts hphis
  have hblock := updBlock_edited (m := m) b (g := fun bd => { bd with terminator := some new.inst })
    (fun _ => rfl) vs
  generalize hm₁ : m.updBlock b (fun bd => { bd with terminator := some new.inst }) = m₁ at hblock
  have hnew := updInst_edited (m := m₁) new (g := fun d => { d with parent := some b })
    (fun _ => rfl) (fun _ => rfl) vs
  generalize hm₂ : m₁.updInst new (fun d => { d with parent := some b }) = m₂ at hnew
  have hold := updInst_edited (m := m₂) old (g := fun d => { d with parent := none })
    (fun _ => rfl) (fun _ => rfl) vs
  generalize hm₃ : m₂.updInst old (fun d => { d with parent := none }) = m₃ at hold
  have hd₃ : m₃.inst old = some { d with parent := none } := by
    rw [← hm₃, inst_updInst, if_pos rfl, ← hm₂, inst_updInst_of_ne _ hne, ← hm₁, inst_updBlock, hd]
    rfl
  have huses₃ : m₃.valueUses (.inst old) = some [] := by
    show (m₃.inst old).map InstData.uses = some []
    rw [hd₃, Option.map_some]
    exact congrArg some huses
  -- nothing is left to replace
  have hreplace : m.replaceInst old new = some m₃ := by
    have hrest : m₃.replaceAllUsesWith (.inst old) (.inst new) = some m₃ := by
      have hvalue : ValueId.inst old ≠ .inst new := fun h => hne (ValueId.inst.inj h)
      simp only [replaceAllUsesWith, huses₃, hvalue, ne_eq, not_false_eq_true, guard_true,
        Option.bind_eq_bind, Option.bind_some, Option.pure_def, List.foldlM_nil]
    simp only [replaceInst, hf, hd, hparent, hn, hnp, hty, hlocate, hk, guard_true,
      Option.isNone_none, Option.bind_eq_bind, Option.bind_some, Option.pure_def, hm₁, hm₂, hm₃,
      hrest]
  have hdefined : ∀ v, m.Defined v → m₃.Defined v := fun v hv => by
    rw [defined_iff, ← hm₃, valueUses_updInst (by intro; rfl), ← hm₂,
      valueUses_updInst (by intro; rfl), ← hm₁, valueUses_updBlock]
    exact defined_iff.mp hv
  obtain ⟨m₄, hm₄⟩ := unregisterInstUse_total hd₃ (fun op hop => hdefined _ (hops op hop)) hblocks
  have hunregister : Edited m₃ m₃.code vs m₄ :=
    (unregisterInstUse_edited hd₃ hm₄).mono fun v hv => Or.inl hv
  have hd₄ : ∃ d₄, m₄.inst old = some d₄ ∧ d₄.parent = none := by
    have hcode : m₄.code.inst old = some { d with parent := none }.code := by
      rw [hunregister.code, code_inst_of_inst hd₃]
    obtain ⟨d₄, hd₄, heq⟩ := inst_of_code_inst hcode
    exact ⟨d₄, hd₄, congrArg InstData.parent heq⟩
  obtain ⟨d₄, hd₄, hp₄⟩ := hd₄
  have herase : m₃.eraseInstFromParent old =
      some (m₄.updFunc old.func fun fd => { fd with insts := fd.insts.remove old.inst }) := by
    simp only [eraseInstFromParent, huses₃, detachInst, hm₄, hd₄, hp₄, List.isEmpty_nil, guard_true,
      Option.bind_eq_bind, Option.bind_some, Option.pure_def]
  refine ⟨_, Option.bind_eq_some_iff.mpr ⟨m₃, hreplace, herase⟩, ?_⟩
  have hvs : vs (.inst old) := Or.inr rfl
  have hremove := removeInst_edited (m := m₄) old hvs
  have hall := (((hblock.trans hnew).trans hold).trans hunregister).trans hremove
  refine ⟨hall.code.trans ?_, hall.uses, hall.next⟩
  rw [hunregister.code, hold.code, hnew.code, hblock.code]
  simp only [Code.removeInst, Code.updInst, Function.update_idem]

end ModuleCore

end Ir
