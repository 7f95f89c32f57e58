import C0mpiler.Ir.Subst
import C0mpiler.Ir.UseListErase
import Mathlib

/-!
# The code of a module

`Code` is what a module says besides its use lists, read by key. Executions are defined over it.
Each edit of the module is an operation on the code: the use lists only decide where a
replacement takes place, and when they are exact that is everywhere (`replaceAllUsesWith_code`).
-/

namespace Ir

/-- The code of a module: each record without its use list. -/
@[ext] structure Code where
  func : FunctionId → Option FunctionData
  inst : InstRef → Option InstData
  block : BlockRef → Option BlockData
  arg : ArgRef → Option ArgData
  global : GlobalId → Option GlobalData
  constData : ConstId → Option ConstData

namespace ModuleCore

/-- The code of a module: what it says when nothing is recorded about uses. -/
def code (m : ModuleCore) : Code where
  func f := (m.func f).map FunctionData.header
  inst r := (m.inst r).map InstData.code
  block b := (m.block b).map BlockData.code
  arg a := (m.arg a).map ArgData.code
  global g := (m.global g).map GlobalData.code
  constData c := (m.constData c).map ConstData.code

/-- An instruction of the code. -/
theorem code_inst (m : ModuleCore) (r : InstRef) :
    m.code.inst r = (m.inst r).map InstData.code := rfl

/-- A block of the code. -/
theorem code_block (m : ModuleCore) (b : BlockRef) :
    m.code.block b = (m.block b).map BlockData.code := rfl

/-- Modules with the same code in each arena have the same code. -/
theorem SameCode.code_eq {m m' : ModuleCore} (h : SameCode m m') : m'.code = m.code :=
  Code.ext (funext h.func) (funext h.inst) (funext h.block) (funext h.arg) (funext h.global)
    (funext h.constData)

end ModuleCore

namespace Code

/-- Rewrite one instruction. -/
def updInst (C : Code) (i : InstRef) (g : InstData → InstData) : Code :=
  { C with inst := Function.update C.inst i ((C.inst i).map g) }

/-- Rewrite one block. -/
def updBlock (C : Code) (b : BlockRef) (g : BlockData → BlockData) : Code :=
  { C with block := Function.update C.block b ((C.block b).map g) }

/-- Drop one instruction. -/
def removeInst (C : Code) (i : InstRef) : Code :=
  { C with inst := Function.update C.inst i none }

/-- Rewrite the operands of every inserted instruction. -/
def mapOperands (C : Code) (f : ValueId → ValueId) : Code :=
  { C with inst := fun r => (C.inst r).map fun d =>
      if d.parent.isSome then { d with kind := d.kind.mapOperands f } else d }

section

variable {C : Code}

@[simp] theorem updInst_block (i : InstRef) (g : InstData → InstData) :
    (C.updInst i g).block = C.block := rfl

@[simp] theorem updInst_func (i : InstRef) (g : InstData → InstData) :
    (C.updInst i g).func = C.func := rfl

@[simp] theorem updInst_constData (i : InstRef) (g : InstData → InstData) :
    (C.updInst i g).constData = C.constData := rfl

@[simp] theorem updBlock_inst (b : BlockRef) (g : BlockData → BlockData) :
    (C.updBlock b g).inst = C.inst := rfl

@[simp] theorem updBlock_func (b : BlockRef) (g : BlockData → BlockData) :
    (C.updBlock b g).func = C.func := rfl

@[simp] theorem updBlock_constData (b : BlockRef) (g : BlockData → BlockData) :
    (C.updBlock b g).constData = C.constData := rfl

@[simp] theorem removeInst_block (i : InstRef) : (C.removeInst i).block = C.block := rfl

@[simp] theorem removeInst_constData (i : InstRef) :
    (C.removeInst i).constData = C.constData := rfl

@[simp] theorem mapOperands_block (f : ValueId → ValueId) :
    (C.mapOperands f).block = C.block := rfl

@[simp] theorem mapOperands_constData (f : ValueId → ValueId) :
    (C.mapOperands f).constData = C.constData := rfl

/-- An inserted instruction has its operands replaced, any other one stays. -/
theorem mapOperands_inst (f : ValueId → ValueId) (r : InstRef) :
    (C.mapOperands f).inst r = (C.inst r).map fun d =>
      if d.parent.isSome then { d with kind := d.kind.mapOperands f } else d := rfl

/-- Two replacements one after the other are one. -/
theorem mapOperands_mapOperands (f g : ValueId → ValueId) :
    (C.mapOperands g).mapOperands f = C.mapOperands (f ∘ g) := by
  refine Code.ext rfl ?_ rfl rfl rfl rfl
  funext r
  rw [mapOperands_inst, mapOperands_inst, mapOperands_inst, Option.map_map]
  refine congrArg (Option.map · (C.inst r)) (funext fun d => ?_)
  by_cases h : d.parent.isSome
  · simp only [Function.comp, h, if_true, InstKind.mapOperands_comp]
  · simp only [Function.comp, h, if_false, Bool.false_eq_true]

/-- Replacing every value by itself changes nothing. -/
theorem mapOperands_id : C.mapOperands id = C := by
  refine Code.ext rfl ?_ rfl rfl rfl rfl
  funext r
  rw [mapOperands_inst]
  cases C.inst r with
  | none => rfl
  | some d =>
    rw [Option.map_some, InstKind.mapOperands_of_fixed fun _ _ => rfl]
    split <;> rfl

/-- An instruction of the rewritten code is one of the code with its operands rewritten. -/
theorem inst_of_mapOperands {f : ValueId → ValueId} {r : InstRef} {d' : InstData}
    (h : (C.mapOperands f).inst r = some d') :
    ∃ d, C.inst r = some d ∧ d'.ty = d.ty ∧ d'.parent = d.parent ∧
      d'.kind = if d.parent.isSome then d.kind.mapOperands f else d.kind := by
  rw [mapOperands_inst] at h
  obtain ⟨d, hd, rfl⟩ := Option.map_eq_some_iff.mp h
  refine ⟨d, hd, ?_⟩
  split <;> exact ⟨rfl, rfl, rfl⟩

/-- A substitution that fixes the operands of an instruction keeps it. -/
theorem mapOperands_inst_of_fixed {f : ValueId → ValueId} {r : InstRef}
    (h : ∀ d, C.inst r = some d → ∀ op ∈ d.kind.valueOperands, f op.1 = op.1) :
    (C.mapOperands f).inst r = C.inst r := by
  rw [mapOperands_inst]
  cases hd : C.inst r with
  | none => rfl
  | some d =>
    rw [Option.map_some, InstKind.mapOperands_of_fixed (h d hd)]
    split <;> rfl

theorem updInst_inst_self (r : InstRef) (g : InstData → InstData) :
    (C.updInst r g).inst r = (C.inst r).map g := Function.update_self ..

theorem updInst_inst_of_ne {i r : InstRef} (h : r ≠ i) (g : InstData → InstData) :
    (C.updInst i g).inst r = C.inst r := Function.update_of_ne h _ _

theorem removeInst_inst_of_ne {i r : InstRef} (h : r ≠ i) :
    (C.removeInst i).inst r = C.inst r := Function.update_of_ne h _ _

end

end Code

namespace ModuleCore

variable {m m' : ModuleCore} {P : InstRef → Prop}

/-! ## One record -/

/-- Changing an instruction of a module changes that of its code. -/
theorem code_updInst (i : InstRef) {g g' : InstData → InstData}
    (hg : ∀ d, (g d).code = g' d.code) : (m.updInst i g).code = m.code.updInst i g' := by
  refine Code.ext ?_ ?_ ?_ ?_ ?_ ?_
  · funext f
    exact m.header_updFunc _ f fun _ => rfl
  · funext r
    show ((m.updInst i g).inst r).map InstData.code = Function.update m.code.inst i _ r
    rw [inst_updInst]
    by_cases hr : r = i
    · subst hr
      rw [if_pos rfl, Function.update_self, code]
      simp only [Option.map_map]
      exact congrArg (Option.map · (m.inst r)) (funext hg)
    · rw [if_neg hr, Function.update_of_ne hr]
      rfl
  · funext b
    show ((m.updInst i g).block b).map _ = (m.block b).map _
    rw [block_updInst]
  · funext a
    show ((m.updInst i g).arg a).map _ = (m.arg a).map _
    rw [arg_updInst]
  · rfl
  · rfl

/-- Changing a block of a module changes that of its code. -/
theorem code_updBlock (b : BlockRef) {g g' : BlockData → BlockData}
    (hg : ∀ d, (g d).code = g' d.code) : (m.updBlock b g).code = m.code.updBlock b g' := by
  refine Code.ext ?_ ?_ ?_ ?_ ?_ ?_
  · funext f
    exact m.header_updFunc _ f fun _ => rfl
  · funext r
    show ((m.updBlock b g).inst r).map _ = (m.inst r).map _
    rw [inst_updBlock]
  · funext c
    show ((m.updBlock b g).block c).map BlockData.code = Function.update m.code.block b _ c
    rw [block_updBlock]
    by_cases hc : c = b
    · subst hc
      rw [if_pos rfl, Function.update_self, code]
      simp only [Option.map_map]
      exact congrArg (Option.map · (m.block c)) (funext hg)
    · rw [if_neg hc, Function.update_of_ne hc]
      rfl
  · funext a
    show ((m.updBlock b g).arg a).map _ = (m.arg a).map _
    rw [arg_updBlock]
  · rfl
  · rfl

/-- Removing an instruction from the arena removes it from the code. -/
theorem code_removeInst (i : InstRef) :
    (m.updFunc i.func fun fd => { fd with insts := fd.insts.remove i.inst }).code =
      m.code.removeInst i := by
  refine Code.ext ?_ ?_ ?_ ?_ ?_ ?_
  · funext f
    exact m.header_updFunc _ f fun _ => rfl
  · funext r
    show Option.map InstData.code _ = Function.update m.code.inst i none r
    rw [inst_removeInst]
    by_cases hr : r = i
    · subst hr
      rw [if_pos rfl, Function.update_self]
      rfl
    · rw [if_neg hr, Function.update_of_ne hr]
      rfl
  · funext b
    show Option.map BlockData.code _ = (m.block b).map _
    rw [m.block_updFunc_of_blocks (by intro; rfl)]
  · funext a
    show Option.map ArgData.code _ = (m.arg a).map _
    rw [m.arg_updFunc_of_args (by intro; rfl)]
  · rfl
  · rfl

/-! ## Views of the code -/

/-- An instruction of a module is one of its code. -/
theorem code_inst_of_inst {r : InstRef} {d : InstData} (h : m.inst r = some d) :
    m.code.inst r = some d.code := by
  rw [code_inst, h, Option.map_some]

/-- A block of a module is one of its code. -/
theorem code_block_of_block {b : BlockRef} {d : BlockData} (h : m.block b = some d) :
    m.code.block b = some d.code := by
  rw [code_block, h, Option.map_some]

/-- An instruction of the code is one of the module. -/
theorem inst_of_code_inst {r : InstRef} {d : InstData} (h : m.code.inst r = some d) :
    ∃ d', m.inst r = some d' ∧ d'.code = d := Option.map_eq_some_iff.mp h

/-- A block of the code is one of the module. -/
theorem block_of_code_block {b : BlockRef} {d : BlockData} (h : m.code.block b = some d) :
    ∃ d', m.block b = some d' ∧ d'.code = d := Option.map_eq_some_iff.mp h

/-! ## Replacing operands -/

/-- `replace_inst_operand` changes the kind of the one instruction. -/
theorem replaceInstOperand_code {inst : InstRef} {slot : OperandSlot} {v : ValueId}
    (hrun : m.replaceInstOperand inst slot v = some m') :
    ∃ d old k', m.inst inst = some d ∧ d.kind.replaceOperand slot v = some (old, k') ∧
      m'.code = m.code.updInst inst fun d => { d with kind := k' } := by
  simp only [replaceInstOperand, Option.bind_eq_bind, Option.bind_eq_some_iff] at hrun
  obtain ⟨d, hd, ⟨old, k'⟩, hrep, m₂, hfilter, hpush⟩ := hrun
  obtain ⟨l₁, hw₁⟩ := updValueUses_spec hfilter
  obtain ⟨l₂, hw₂⟩ := updValueUses_spec hpush
  refine ⟨d, old, k', hd, hrep, ?_⟩
  rw [(hw₁.code.trans hw₂.code).code_eq]
  exact code_updInst inst fun _ => rfl

/-- The instruction of `C'` is the one of `C` with the operands in the slots `S` replaced by
`v`. -/
structure OperandsSet (C : Code) (r : InstRef) (S : OperandSlot → Prop) [DecidablePred S]
    (v : ValueId) (C' : Code) : Prop where
  rest : (C'.inst r).map (fun d => { d with kind := d.kind.shape }) =
    (C.inst r).map fun d => { d with kind := d.kind.shape }
  operands : (C'.inst r).map (fun d => d.kind.valueOperands) =
    (C.inst r).map fun d => d.kind.valueOperands.map fun op => if S op.2 then (v, op.2) else op

/-- A list of replacements by one value sets the slots of the list and changes nothing else. -/
theorem replaceUses_code {uses : List Use} {v : ValueId}
    (hrun : uses.foldlM (fun m u => m.replaceInstOperand u.user u.slot v) m = some m') :
    m'.code = { m.code with inst := m'.code.inst } ∧
      ∀ r, OperandsSet m.code r (fun s => ⟨r, s⟩ ∈ uses) v m'.code := by
  -- on the uses, one after the other
  induction uses generalizing m with
  | nil =>
    cases hrun
    refine ⟨rfl, fun r => ⟨rfl, ?_⟩⟩
    simp
  | cons u uses ih =>
    obtain ⟨m₁, hstep, hrest⟩ := OptionFold.cons_eq_some.mp hrun
    obtain ⟨d, old, k', hd, hrep, hcode⟩ := replaceInstOperand_code hstep
    obtain ⟨hframe, hset⟩ := ih hrest
    refine ⟨?_, fun r => ?_⟩
    · rw [hframe, hcode]
      rfl
    -- the slots of `r` after this use and after the others
    · have hspec := InstKind.replaceOperand_spec hrep
      have hshape := InstKind.replaceOperand_shape hrep
      obtain ⟨hrestr, hops⟩ := hset r
      rw [hcode] at hrestr hops
      -- the user of the first use has its slot set now, and the others by the rest of the list
      by_cases hr : r = u.user
      · subst hr
        have hin : (m.code.updInst u.user fun d => { d with kind := k' }).inst u.user =
            some { d.code with kind := k' } := by
          simp [Code.updInst, code_inst_of_inst hd]
        rw [hin] at hrestr hops
        refine ⟨?_, ?_⟩
        · rw [hrestr, code_inst_of_inst hd]
          simp only [Option.map_some, hshape]
          rfl
        · rw [hops, code_inst_of_inst hd]
          simp only [Option.map_some, hspec.values, InstKind.setSlot, List.map_map,
            Option.some.injEq]
          show List.map _ d.kind.valueOperands = List.map _ d.kind.valueOperands
          refine List.map_congr_left fun op _ => ?_
          obtain ⟨w, s⟩ := op
          obtain ⟨user, slot⟩ := u
          simp only [Function.comp, List.mem_cons, Use.mk.injEq, true_and]
          by_cases hs : s = slot
          · subst hs; simp
          · simp [hs]
      · rw [Code.updInst_inst_of_ne hr] at hrestr hops
        -- the first use is of another instruction
        refine ⟨hrestr, hops.trans ?_⟩
        have hne : ∀ s, (⟨r, s⟩ : Use) ≠ u := fun s h => hr (congrArg Use.user h)
        simp [hne]

/-- `v` for `old`. -/
def substValue (old new v : ValueId) : ValueId := if v = old then new else v

/-- With exact use lists, `replaceAllUsesWith` substitutes in every inserted instruction. -/
theorem replaceAllUsesWith_code (h : m.Indexed) {old new : ValueId}
    (hrun : m.replaceAllUsesWith old new = some m') :
    m'.code = m.code.mapOperands (substValue old new) := by
  simp only [replaceAllUsesWith, Option.bind_eq_bind, Option.bind_eq_some_iff] at hrun
  obtain ⟨-, -, uses, huses, hrun⟩ := hrun
  obtain ⟨hframe, hset⟩ := replaceUses_code hrun
  have hinst : m'.code.inst = (m.code.mapOperands (substValue old new)).inst := by
    funext r
    obtain ⟨hrest, hops⟩ := hset r
    cases hd : m.inst r with
    | none =>
      have hnone : m.code.inst r = none := by rw [code_inst, hd, Option.map_none]
      rw [hnone, Option.map_none] at hrest
      rw [Option.map_eq_none_iff.mp hrest, Code.mapOperands_inst, hnone, Option.map_none]
    | some d =>
      have hsome := code_inst_of_inst hd
      rw [hsome, Option.map_some] at hrest hops
      obtain ⟨d', hd', hrest⟩ := Option.map_eq_some_iff.mp hrest
      rw [hd', Option.map_some, Option.some.injEq] at hops
      rw [hd', Code.mapOperands_inst, hsome, Option.map_some, Option.some.injEq]
      -- the slots that are set are those that hold `old` in an inserted instruction
      have hslot : ∀ op ∈ d.kind.valueOperands,
          (⟨r, op.2⟩ ∈ uses ↔ d.parent.isSome ∧ op.1 = old) := by
        rintro ⟨w, s⟩ hop
        rw [h.values.mem_iff huses]
        -- equal shapes and equal operands make equal instructions
        constructor
        · rintro ⟨⟨d₁, hd₁, hparent⟩, hold⟩
          rw [hd] at hd₁
          cases hd₁
          exact ⟨hparent, OperandOf.unique ⟨d, hd, hop⟩ hold⟩
        · rintro ⟨hparent, rfl⟩
          exact ⟨⟨d, hd, hparent⟩, d, hd, hop⟩
      have hshape : d'.kind.shape = d.kind.shape := congrArg InstData.kind hrest
      have hkind : d'.kind = if d.parent.isSome then d.kind.mapOperands (substValue old new)
          else d.kind := by
        refine InstKind.ext_shape ?_ ?_
        · split
          · rw [InstKind.shape_mapOperands, hshape]
          · exact hshape
        · rw [hops]
          show List.map _ d.kind.valueOperands = _
          split
          · next hparent =>
            rw [InstKind.valueOperands_mapOperands]
            refine List.map_congr_left fun op hop => ?_
            have hiff := hslot op hop
            simp only [hparent, true_and] at hiff
            by_cases hw : op.1 = old
            · rw [if_pos (hiff.mpr hw)]
              simp [substValue, hw, Prod.map]
            · rw [if_neg fun h => hw (hiff.mp h)]
              simp [substValue, hw, Prod.map]
          · next hparent =>
            have hid : ∀ op ∈ d.kind.valueOperands,
                (if ⟨r, op.2⟩ ∈ uses then (new, op.2) else op) = op := fun op hop =>
              if_neg fun h => hparent ((hslot op hop).mp h).1
            rw [List.map_congr_left hid, List.map_id']
      have hfields : d' = { d.code with kind := d'.kind } := by
        cases d'
        cases d
        simp only [InstData.code, InstData.mk.injEq] at hrest ⊢
        exact ⟨hrest.1, hrest.2.1, trivial, hrest.2.2.2⟩
      rw [hfields, hkind]
      show _ = if d.parent.isSome then _ else _
      split <;> rfl
  rw [hframe, hinst]
  rfl

/-- Replacing all uses keeps the module indexed. -/
theorem replaceAllUsesWith_indexed (h : m.Indexed) {old new : ValueId}
    (hrun : m.replaceAllUsesWith old new = some m') : m'.Indexed := by
  obtain ⟨hreg, hparents, -⟩ := replaceAllUsesWith_spec h hrun
  exact hreg.congr rfl rfl (fun r => by rw [inserted_iff, inserted_iff, hparents]) fun _ _ => rfl

end ModuleCore

/-! ## Detaching and erasing -/

/-- The block without one of its instructions. -/
def BlockData.without (d : BlockData) (i : InstId) : BlockData :=
  if i ∈ d.insts then { d with insts := d.insts.erase i }
  else if i ∈ d.phis then { d with phis := d.phis.erase i }
  else { d with terminator := none }

namespace ModuleCore

variable {m m' : ModuleCore} {P : InstRef → Prop}

/-- Registering the uses of an instruction keeps the code. -/
theorem registerInstUse_sameCode {user : InstRef} (hrun : m.registerInstUse user = some m') :
    SameCode m m' := by
  obtain ⟨d, -, hrun⟩ := Option.bind_eq_some_iff.mp hrun
  obtain ⟨m₁, hvals, hblocks⟩ := Option.bind_eq_some_iff.mp hrun
  have hsame₁ : SameCode m m₁ := OptionFold.preserves (fun s => SameCode m s)
    (fun op _ s s' hs hstep => hs.trans (updValueUses_spec hstep).choose_spec.code) (.refl m) hvals
  exact OptionFold.preserves (fun s => SameCode m s)
    (fun op _ s s' hs hstep => hs.trans (updBlockUses_spec hstep).choose_spec.code) hsame₁ hblocks

/-- Unregistering the uses of an instruction keeps the code. -/
theorem unregisterInstUse_sameCode {user : InstRef} (hrun : m.unregisterInstUse user = some m') :
    SameCode m m' := by
  obtain ⟨d, -, hrun⟩ := Option.bind_eq_some_iff.mp hrun
  obtain ⟨m₁, hvals, hblocks⟩ := Option.bind_eq_some_iff.mp hrun
  have hsame₁ : SameCode m m₁ := OptionFold.preserves (fun s => SameCode m s)
    (fun op _ s s' hs hstep => hs.trans (updValueUses_spec hstep).choose_spec.code) (.refl m) hvals
  exact OptionFold.preserves (fun s => SameCode m s)
    (fun op _ s s' hs hstep => hs.trans (updBlockUses_spec hstep).choose_spec.code) hsame₁ hblocks

/-- The position that is found is that of the instruction. -/
theorem findIdx?_eq_some {l : List InstId} {i : InstId} {pos : Nat}
    (h : l.findIdx? (· == i) = some pos) : i ∈ l ∧ l.eraseIdx pos = l.erase i := by
  have hidx : l.idxOf? i = some pos := h
  have hmem : i ∈ l := by
    obtain ⟨hlt, hget, -⟩ := List.findIdx?_eq_some_iff_getElem.mp h
    rw [beq_iff_eq] at hget
    exact hget ▸ List.getElem_mem hlt
  refine ⟨hmem, ?_⟩
  rw [List.erase_eq_eraseIdx, hidx]

/-- No position is found for what is not in the list. -/
theorem findIdx?_eq_none {l : List InstId} {i : InstId} (h : l.findIdx? (· == i) = none) :
    i ∉ l := fun hmem => by
  simpa using List.findIdx?_eq_none_iff.mp h i hmem

/-- The block that `detachInst` writes back is the block without the instruction. -/
theorem unplace_code {inst : InstRef} {pos : InstPosition} {d : InstData} {b : BlockRef}
    (hd : m.inst inst = some d) (hb : d.parent = some b) (hloc : m.locateInst inst = some pos) :
    (match pos with
      | .inst pos => m.updBlock b fun b => { b with insts := b.insts.eraseIdx pos }
      | .phi pos => m.updBlock b fun b => { b with phis := b.phis.eraseIdx pos }
      | .terminator => m.updBlock b fun b => { b with terminator := none }).code =
      m.code.updBlock b (·.without inst.inst) := by
  simp only [locateInst, hd, hb, Option.bind_eq_bind, Option.bind_some,
    Option.bind_eq_some_iff] at hloc
  obtain ⟨bd, hbd, hloc⟩ := hloc
  -- in each of the three places the block loses the instruction and nothing else
  have hwrite : ∀ g : BlockData → BlockData, (∀ x, (g x).code = g x.code) →
      g bd.code = bd.code.without inst.inst →
      (m.updBlock b g).code = m.code.updBlock b (·.without inst.inst) := by
    intro g hg heq
    rw [code_updBlock b hg]
    simp only [Code.updBlock, code_block_of_block hbd, Option.map_some, heq]
  split at hloc
  -- among the phis
  · next p hp =>
    cases hloc
    obtain ⟨hmem, herase⟩ := findIdx?_eq_some hp
    refine hwrite _ (by intro; rfl) ?_
    rw [BlockData.without, if_pos (show inst.inst ∈ bd.code.insts from hmem)]
    show { bd.code with insts := bd.insts.eraseIdx p } = _
    rw [herase]
    rfl
  · next hp =>
    have hinsts : inst.inst ∉ bd.code.insts := findIdx?_eq_none hp
    split at hloc
    -- among the instructions
    · next q hq =>
      cases hloc
      obtain ⟨hmem, herase⟩ := findIdx?_eq_some hq
      refine hwrite _ (by intro; rfl) ?_
      rw [BlockData.without, if_neg hinsts, if_pos (show inst.inst ∈ bd.code.phis from hmem)]
      show { bd.code with phis := bd.phis.eraseIdx q } = _
      rw [herase]
      rfl
    · next hq =>
      have hphis : inst.inst ∉ bd.code.phis := findIdx?_eq_none hq
      -- the terminator
      split at hloc
      · cases hloc
        refine hwrite _ (by intro; rfl) ?_
        rw [BlockData.without, if_neg hinsts, if_neg hphis]
      · cases hloc

/-- Detaching takes the instruction out of its block and keeps everything else. -/
theorem detachInst_code {inst : InstRef} {d : InstData} {b : BlockRef}
    (hd : m.inst inst = some d) (hb : d.parent = some b) (hrun : m.detachInst inst = some m') :
    m'.code = (m.code.updBlock b (·.without inst.inst)).updInst inst fun d =>
      { d with parent := none } := by
  simp only [detachInst, Option.bind_eq_bind, Option.bind_eq_some_iff] at hrun
  obtain ⟨m₁, hunreg, d₁, hd₁, hrun⟩ := hrun
  have hcode : SameCode m m₁ := unregisterInstUse_sameCode hunreg
  have hparent : d₁.parent = some b := by
    obtain ⟨d₀, hd₀, heq⟩ := hcode.inst_some hd₁
    rw [hd] at hd₀
    cases hd₀
    exact (congrArg InstData.parent heq).trans hb
  rw [hparent] at hrun
  obtain ⟨pos, hloc, hrun⟩ := Option.bind_eq_some_iff.mp hrun
  have hplace := unplace_code hd₁ hparent hloc
  rw [← hcode.code_eq, ← hplace]
  cases pos <;> cases hrun <;> exact code_updInst inst fun _ => rfl

/-- Erasing an unused instruction takes it out of its block and drops it. -/
theorem eraseInstFromParent_code {inst : InstRef} {d : InstData} {b : BlockRef}
    (hd : m.inst inst = some d) (hb : d.parent = some b)
    (hrun : m.eraseInstFromParent inst = some m') :
    m.valueUses (.inst inst) = some [] ∧
      m'.code = (m.code.updBlock b (·.without inst.inst)).removeInst inst := by
  simp only [eraseInstFromParent, Option.bind_eq_bind, Option.bind_eq_some_iff,
    Option.guard_eq_some'] at hrun
  obtain ⟨uses, huses, -, hempty, m₁, hdetach, heq⟩ := hrun
  cases heq
  rw [List.isEmpty_iff] at hempty
  refine ⟨hempty ▸ huses, ?_⟩
  rw [code_removeInst, detachInst_code hd hb hdetach]
  simp only [Code.removeInst, Code.updInst, Function.update_idem]

end ModuleCore

end Ir
