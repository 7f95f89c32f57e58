import C0mpiler.Sem.Exec
import Mathlib

/-!
# The cursor builder

`CursorBuilder` (`core_builder.rs`) creates an instruction and inserts it at its location, the
front or the end of a block. `Code.emit` is what that does to the code, and `buildInst_spec` says
that building succeeds when the operands exist, and what it leaves.
-/

namespace Ir

/-- A builder inserts before the instructions of its block or at the end. -/
inductive BuilderInsertPlace where
  | front
  | atEnd
  deriving DecidableEq, Repr

/-- `locate_end` and `locate_front` assert that the block is one of the function. -/
structure BuilderLocation where
  func : FunctionId
  block : BlockRef
  insertPlace : BuilderInsertPlace
  of_block : func = block.func

namespace ModuleCore

/-- Insert where the builder stands. Phis go to the phis, and a terminator can only end the block.
-/
def insertInst (m : ModuleCore) (location : BuilderLocation) (inst : InstRef) :
    Option ModuleCore := do
  let d ← m.inst inst
  match location.insertPlace with
  | .front => do
    guard (!d.kind.isTerminator)
    if d.kind.isPhi then m.appendPhi location.block inst
    else m.pushFrontInst location.block inst
  | .atEnd =>
    if d.kind.isPhi then m.appendPhi location.block inst
    else if d.kind.isTerminator then m.setTerminator location.block inst
    else m.appendInst location.block inst

/-- Make an instruction and insert it. -/
def buildInst (m : ModuleCore) (location : BuilderLocation) (ty : Ty) (kind : InstKind)
    (name : Option String) : Option (InstRef × ModuleCore) := do
  let (inst, m) ← m.newInst location.func ty kind name
  let m ← m.insertInst location inst
  some (inst, m)

/-- Build an alloca; its value is a pointer. -/
def buildAlloca (m : ModuleCore) (location : BuilderLocation) (allocTy : Ty)
    (name : Option String) : Option (InstRef × ModuleCore) :=
  m.buildInst location .ptr (.alloca allocTy) name

/-- Build a load. -/
def buildLoad (m : ModuleCore) (location : BuilderLocation) (ty : Ty) (ptr : ValueId)
    (name : Option String) : Option (InstRef × ModuleCore) :=
  m.buildInst location ty (.load ptr) name

/-- Build a store; it has no value. -/
def buildStore (m : ModuleCore) (location : BuilderLocation) (value ptr : ValueId) :
    Option (InstRef × ModuleCore) :=
  m.buildInst location .void (.store value ptr) none

/-- Build the address of an element or a field. -/
def buildGetelementptr (m : ModuleCore) (location : BuilderLocation) (baseTy : Ty)
    (base : ValueId) (indices : List ValueId) (name : Option String) :
    Option (InstRef × ModuleCore) :=
  m.buildInst location .ptr (.getElementPtr baseTy base indices) name

end ModuleCore

/-- The block with `i` inserted. -/
def BlockData.insertAt (b : BlockData) (place : BuilderInsertPlace) (i : InstId) : BlockData :=
  match place with
  | .front => { b with insts := i :: b.insts }
  | .atEnd => { b with insts := b.insts ++ [i] }

namespace Code

/-- The code with the new instruction `d` inserted in its block. -/
def emit (C : Code) (location : BuilderLocation) (r : InstRef) (d : InstData) : Code :=
  { C with
    inst := Function.update C.inst r (some d)
    block := Function.update C.block location.block
      ((C.block location.block).map fun b => b.insertAt location.insertPlace r.inst) }

variable {C : Code} {location : BuilderLocation} {r : InstRef} {d : InstData}

@[simp] theorem emit_inst_self : (C.emit location r d).inst r = some d := Function.update_self ..

/-- Other instructions are what they were. -/
theorem emit_inst_of_ne {r' : InstRef} (h : r' ≠ r) : (C.emit location r d).inst r' = C.inst r' :=
  Function.update_of_ne h ..

@[simp] theorem emit_arg : (C.emit location r d).arg = C.arg := rfl

@[simp] theorem emit_global : (C.emit location r d).global = C.global := rfl

@[simp] theorem emit_constData : (C.emit location r d).constData = C.constData := rfl

/-! ## Code that grows -/

/-- `C'` has the instructions and the constants of `C`, and perhaps more. -/
structure Grows (C C' : Code) : Prop where
  inst : ∀ r d, C.inst r = some d → C'.inst r = some d
  constData : ∀ c d, C.constData c = some d → C'.constData c = some d
  arg : C'.arg = C.arg
  global : C'.global = C.global

namespace Grows

variable {C C' C'' : Code}

theorem refl (C : Code) : C.Grows C := ⟨fun _ _ h => h, fun _ _ h => h, rfl, rfl⟩

theorem trans (h : C.Grows C') (h' : C'.Grows C'') : C.Grows C'' where
  inst r d hd := h'.inst r d (h.inst r d hd)
  constData c d hd := h'.constData c d (h.constData c d hd)
  arg := h'.arg.trans h.arg
  global := h'.global.trans h.global

/-- Values keep their types while the code grows. -/
theorem valueTy (h : C.Grows C') {v : ValueId} {ty : Ty} (hv : C.valueTy v = some ty) :
    C'.valueTy v = some ty := by
  cases v with
  | inst r =>
    obtain ⟨d, hd, hty⟩ := Option.map_eq_some_iff.mp hv
    exact Option.map_eq_some_iff.mpr ⟨d, h.inst r d hd, hty⟩
  | const c =>
    obtain ⟨d, hd, hty⟩ := Option.map_eq_some_iff.mp hv
    exact Option.map_eq_some_iff.mpr ⟨d, h.constData c d hd, hty⟩
  | arg a =>
    show (C'.arg a).map ArgData.ty = some ty
    rw [h.arg]
    exact hv
  | global g =>
    show (C'.global g).map GlobalData.ty = some ty
    rw [h.global]
    exact hv

/-- Operands keep their values while the code grows. -/
theorem evalOperand (h : C.Grows C') {E : Env} {regs : Regs} {v : ValueId} {x : Val}
    (hv : C.evalOperand E regs v = some x) : C'.evalOperand E regs v = some x := by
  cases v with
  | const c =>
    obtain ⟨d, hd, hx⟩ := Option.bind_eq_some_iff.mp hv
    exact Option.bind_eq_some_iff.mpr ⟨d, h.constData c d hd, hx⟩
  | _ => exact hv

/-- A new instruction is one more. -/
theorem emit (h : C.inst r = none) : C.Grows (C.emit location r d) where
  inst r' d' hd' := by
    have hne : r' ≠ r := fun heq => by
      rw [heq, h] at hd'
      cases hd'
    rw [emit_inst_of_ne hne, hd']
  constData _ _ hd' := hd'
  arg := rfl
  global := rfl

end Grows

end Code

namespace ModuleCore

variable {m m' : ModuleCore}

/-- A new constant is one more. -/
theorem grows_addConst (m : ModuleCore) (ty : Ty) (kind : ConstKind) :
    m.code.Grows (m.addConst ty kind).2.code where
  inst _ _ hd := hd
  constData c d hd := by
    obtain ⟨d', hd', heq⟩ := Option.map_eq_some_iff.mp hd
    have hne : c ≠ m.consts.next := fun h => by
      have hnone := m.consts.get?_next
      rw [← h] at hnone
      rw [constData, hnone] at hd'
      cases hd'
    refine Option.map_eq_some_iff.mpr ⟨d', ?_, heq⟩
    show (m.consts.insert _).get? c = some d'
    rw [SlotMap.get?_insert, if_neg hne]
    exact hd'
  arg := rfl
  global := rfl

/-- The constant that has been added. -/
theorem constData_addConst (m : ModuleCore) (ty : Ty) (kind : ConstKind) :
    (m.addConst ty kind).2.code.constData m.consts.next = some ⟨ty, kind, []⟩ := by
  show ((m.consts.insert _).get? m.consts.next).map ConstData.code = _
  rw [SlotMap.get?_insert, if_pos rfl]
  rfl

/-- `v` names something. -/
def Defined (m : ModuleCore) (v : ValueId) : Prop := (m.code.valueTy v).isSome

/-- A defined value has a use list. -/
theorem Defined.valueUses {v : ValueId} (h : m.Defined v) : ∃ l, m.valueUses v = some l := by
  have hty : (m.valueTy v).isSome := by
    rw [← code_valueTy]
    exact h
  refine Option.isSome_iff_exists.mp ?_
  cases v <;> simpa only [valueTy, ModuleCore.valueUses, Option.isSome_map] using hty

/-- The use list of a defined value can be written. -/
theorem updValueUses_total {v : ValueId} (h : m.Defined v) (g : List Use → List Use) :
    ∃ m', m.updValueUses v g = some m' ∧ SameCode m m' := by
  obtain ⟨l, hl⟩ := h.valueUses
  have hsome : ∃ m', m.updValueUses v g = some m' := by
    unfold updValueUses
    rw [hl]
    cases v <;> exact ⟨_, rfl⟩
  obtain ⟨m', hm'⟩ := hsome
  obtain ⟨_, hw⟩ := updValueUses_spec hm'
  exact ⟨m', hm', hw.code⟩

/-- What is defined does not depend on the use lists. -/
theorem Defined.congr {v : ValueId} (h : m.Defined v) (hcode : SameCode m m') : m'.Defined v := by
  unfold Defined
  rw [hcode.code_eq]
  exact h

/-- The use list of a block that exists can be written. -/
theorem updBlockUses_total {b : BlockRef} (h : (m.block b).isSome) (g : List BlockUse → List BlockUse) :
    ∃ m', m.updBlockUses b g = some m' ∧ SameCode m m' := by
  obtain ⟨bd, hb⟩ := Option.isSome_iff_exists.mp h
  have hsome : ∃ m', m.updBlockUses b g = some m' := by
    unfold updBlockUses blockUses
    rw [hb]
    exact ⟨_, rfl⟩
  obtain ⟨m', hm'⟩ := hsome
  obtain ⟨_, hw⟩ := updBlockUses_spec hm'
  exact ⟨m', hm', hw.code⟩

/-- Registering an instruction succeeds when all its operands exist. -/
theorem registerInstUse_total {user : InstRef} {d : InstData} (hd : m.inst user = some d)
    (hops : ∀ op ∈ d.kind.valueOperands, m.Defined op.1)
    (hblocks : ∀ op ∈ d.kind.blockOperands, (m.block ⟨user.func, op.1⟩).isSome) :
    ∃ m', m.registerInstUse user = some m' ∧ SameCode m m' := by
  obtain ⟨m₁, hm₁, hcode₁⟩ := OptionFold.total_of_relates
    (fun m (op : ValueId × OperandSlot) => m.updValueUses op.1 (· ++ [⟨user, op.2⟩]))
    SameCode.refl (fun _ _ _ h h' => h.trans h') (l := d.kind.valueOperands) (s := m)
    fun op hop s hs => updValueUses_total ((hops op hop).congr hs) _
  obtain ⟨m₂, hm₂, hcode₂⟩ := OptionFold.total_of_relates
    (fun m (op : BlockId × BlockOperandSlot) =>
      m.updBlockUses ⟨user.func, op.1⟩ (· ++ [⟨user, op.2⟩]))
    SameCode.refl (fun _ _ _ h h' => h.trans h') (l := d.kind.blockOperands) (s := m₁)
    fun op hop s hs => updBlockUses_total (by
      have hblock := (hcode₁.trans hs).block ⟨user.func, op.1⟩
      rw [← Option.isSome_map (f := BlockData.code), hblock, Option.isSome_map]
      exact hblocks op hop) _
  refine ⟨m₂, ?_, hcode₁.trans hcode₂⟩
  simp only [registerInstUse, hd, Option.bind_eq_bind, Option.bind_some, hm₁, hm₂]

/-- `new_inst` adds an instruction under a fresh key and changes nothing else. -/
theorem newInst_code {f : FunctionId} {ty : Ty} {kind : InstKind} {name : Option String}
    {r : InstRef} (hrun : m.newInst f ty kind name = some (r, m')) :
    r.func = f ∧ m.inst r = none ∧ m'.inst r = some ⟨none, ty, kind, [], name⟩ ∧
      m'.code = { m.code with
        inst := Function.update m.code.inst r (some ⟨none, ty, kind, [], name⟩) } := by
  obtain ⟨fd, hf, heq⟩ := Option.bind_eq_some_iff.mp hrun
  cases heq
  have hinst := inst_insertInst hf ⟨none, ty, kind, [], name⟩
  refine ⟨rfl, inst_fresh hf, by rw [hinst, if_pos rfl], Code.ext ?_ ?_ ?_ ?_ rfl rfl⟩
  · funext f'
    exact m.header_updFunc _ f' fun _ => rfl
  · funext r'
    show (ModuleCore.inst _ r').map InstData.code = Function.update m.code.inst _ _ r'
    rw [hinst]
    by_cases h : r' = ⟨f, fd.insts.next⟩
    · subst h
      rw [if_pos rfl, Function.update_self]
      rfl
    · rw [if_neg h, Function.update_of_ne h]
      rfl
  · funext b
    show (ModuleCore.block _ b).map _ = (m.block b).map _
    rw [block_updFunc_of_blocks]
    exact fun _ => rfl
  · funext a
    show (ModuleCore.arg _ a).map _ = (m.arg a).map _
    rw [arg_updFunc_of_args]
    exact fun _ => rfl

/-- A block that exists is in a function that exists. -/
theorem func_of_block {b : BlockRef} (h : (m.block b).isSome) : ∃ fd, m.func b.func = some fd := by
  obtain ⟨bd, hbd⟩ := Option.isSome_iff_exists.mp h
  obtain ⟨fd, hfd, -⟩ := Option.bind_eq_some_iff.mp hbd
  exact ⟨fd, hfd⟩

/-- A block exists in a module if it exists in its code. -/
theorem code_block_isSome {b : BlockRef} : (m.code.block b).isSome = (m.block b).isSome :=
  Option.isSome_map ..

/-- A block insertion followed by `attachInst`, as every arm of `insertInst` ends. -/
theorem attachInst_total (block : BlockRef) {inst : InstRef} {d : InstData}
    (g : BlockData → BlockData) (hg : ∀ bd, (g bd).code = g bd.code)
    (hd : m.inst inst = some d) (hops : ∀ op ∈ d.kind.valueOperands, m.Defined op.1)
    (hblocks : ∀ op ∈ d.kind.blockOperands, (m.block ⟨inst.func, op.1⟩).isSome) :
    ∃ m', (m.updBlock block g).attachInst block inst = some m' ∧
      m'.code = (m.code.updBlock block g).updInst inst fun d => { d with parent := some block } := by
  -- attaching changes the parent and the block
  have hcode : ((m.updBlock block g).updInst inst fun d => { d with parent := some block }).code =
      (m.code.updBlock block g).updInst inst fun d => { d with parent := some block } := by
    have hparent : ((m.updBlock block g).updInst inst fun d => { d with parent := some block }).code =
        (m.updBlock block g).code.updInst inst fun d => { d with parent := some block } :=
      code_updInst inst fun _ => rfl
    rw [hparent, code_updBlock block hg]
  have hd' : ((m.updBlock block g).updInst inst fun d => { d with parent := some block }).inst inst =
      some { d with parent := some block } := by
    rw [inst_updInst, if_pos rfl, inst_updBlock, hd]
    rfl
  have hdefined : ∀ v, m.Defined v →
      ((m.updBlock block g).updInst inst fun d => { d with parent := some block }).Defined v := by
    intro v hv
    unfold Defined at hv ⊢
    rw [hcode]
    cases v with
    | inst r =>
      show (((m.code.updBlock block g).updInst inst _).inst r).map InstData.ty |>.isSome
      -- the instruction is defined as before, only its parent is another one
      by_cases hr : r = inst
      · subst hr
        show ((Function.update (m.code.updBlock block g).inst r _ r).map InstData.ty).isSome
        rw [Function.update_self, Code.updBlock_inst, code_inst, hd]
        rfl
      · rw [Code.updInst_inst_of_ne hr]
        exact hv
    | _ => exact hv
  -- blocks are where they were
  have hexists : ∀ b, (m.block b).isSome → (((m.updBlock block g).updInst inst fun d =>
      { d with parent := some block }).block b).isSome := by
    intro b hb
    rw [block_updInst, block_updBlock]
    split
    · next h => rw [Option.isSome_map, ← h]; exact hb
    · exact hb
  obtain ⟨m', hm', hsame⟩ := registerInstUse_total hd' (fun op hop => hdefined _ (hops op hop))
    fun op hop => hexists _ (hblocks op hop)
  exact ⟨m', hm', hsame.code_eq.trans hcode⟩

/-- Only branches and phis name blocks. -/
theorem blockOperands_eq_nil {k : InstKind} (hphi : k.isPhi = false)
    (hterm : k.isTerminator = false) : k.blockOperands = [] := by
  cases k with
  | branch => cases hterm
  | phi => cases hphi
  | _ => rfl

/-- Building an instruction that is neither a phi nor a terminator. -/
theorem buildInst_spec (location : BuilderLocation) (ty : Ty) (kind : InstKind)
    (name : Option String) (hblock : (m.code.block location.block).isSome) (hphi : kind.isPhi = false)
    (hterm : kind.isTerminator = false) (hops : ∀ op ∈ kind.valueOperands, m.Defined op.1) :
    ∃ r m', m.buildInst location ty kind name = some (r, m') ∧ m.code.inst r = none ∧
      m'.code = m.code.emit location r ⟨some location.block, ty, kind, [], name⟩ := by
  obtain ⟨f, block, place, hf⟩ := location
  dsimp only at hf hblock ⊢
  subst hf
  rw [code_block_isSome] at hblock
  obtain ⟨fd, hfd⟩ := func_of_block hblock
  have hnew : ∃ r m₁, m.newInst block.func ty kind name = some (r, m₁) := by
    unfold newInst
    rw [hfd]
    exact ⟨_, _, rfl⟩
  obtain ⟨r, m₁, hrun⟩ := hnew
  obtain ⟨hrf, hfresh, hr₁, hcode₁⟩ := newInst_code hrun
  have hblock₁ : ∃ bd, m₁.block block = some bd := by
    refine Option.isSome_iff_exists.mp ?_
    rw [← code_block_isSome, hcode₁]
    exact code_block_isSome.trans hblock
  obtain ⟨bd, hbd⟩ := hblock₁
  -- the new instruction may be an operand of its own, so it counts among the defined ones
  have hops₁ : ∀ op ∈ kind.valueOperands, m₁.Defined op.1 := by
    intro op hop
    have hv := hops op hop
    unfold Defined at hv ⊢
    rw [hcode₁]
    generalize op.1 = v at hv
    cases v with
    | inst r' =>
      show ((Function.update m.code.inst r _ r').map InstData.ty).isSome
      by_cases h : r' = r
      · subst h
        rw [Function.update_self]
        rfl
      · rw [Function.update_of_ne h]
        exact hv
    | _ => exact hv
  have hblocks := blockOperands_eq_nil hphi hterm
  -- both places insert in the block and attach
  have hinsert : m₁.insertInst ⟨block.func, block, place, rfl⟩ r =
      (m₁.updBlock block fun b => b.insertAt place r.inst).attachInst block r := by
    have hcan : m₁.assertCanInsert block r = some ⟨none, ty, kind, [], name⟩ := by
      simp only [assertCanInsert, hrf, hr₁, Option.isNone_none, guard_true, Option.bind_eq_bind,
        Option.bind_some, Option.pure_def]
    cases place <;>
      simp only [insertInst, hr₁, hphi, hterm, Option.bind_eq_bind, Option.bind_some, Bool.not_false,
        guard_true, Option.pure_def, Bool.false_eq_true, if_false, pushFrontInst, appendInst, hcan,
        hbd, Bool.and_self] <;>
      rfl
  obtain ⟨m₂, hm₂, hcode₂⟩ := attachInst_total block
    (fun b : BlockData => b.insertAt place r.inst) (fun bd => by cases place <;> rfl) hr₁ hops₁
    (by rw [hblocks]; exact fun _ hop => absurd hop List.not_mem_nil)
  refine ⟨r, m₂, ?_, ?_, ?_⟩
  · unfold buildInst
    simp only [hrun, Option.bind_eq_bind, Option.bind_some, hinsert, hm₂]
  · rw [code_inst, hfresh]
    rfl
  · rw [hcode₂, hcode₁]
    refine Code.ext rfl ?_ rfl rfl rfl rfl
    show Function.update (Function.update m.code.inst r (some ⟨none, ty, kind, [], name⟩)) r _ =
      Function.update m.code.inst r _
    rw [Function.update_idem]
    refine congrArg _ ?_
    show (Function.update m.code.inst r _ r).map _ = _
    rw [Function.update_self]
    rfl

end ModuleCore

end Ir
