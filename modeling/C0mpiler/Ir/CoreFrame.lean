import C0mpiler.Ir.Core
import Mathlib

/-!
# What an update of one record leaves alone

Reading any record after an update of one record, for every pair of record kinds. The simp set
of this module rewrites a read of an updated module to a read of the module before, so that no
later proof unfolds `updFunc`, `updInst` or a slot map.
-/

namespace Ir

namespace ModuleCore

variable (m : ModuleCore)

/-! ## `updFunc` -/

/-- Changing a function changes that one only. -/
theorem func_updFunc (f f' : FunctionId) (g : FunctionData → FunctionData) :
    (m.updFunc f g).func f' = if f' = f then (m.func f).map g else m.func f' :=
  SlotMap.get?_modify _ _ _ _

/-- An instruction after a change of a function. -/
theorem inst_updFunc (f : FunctionId) (g : FunctionData → FunctionData) (r : InstRef) :
    (m.updFunc f g).inst r =
      if r.func = f then (m.func f).bind fun fd => (g fd).insts.get? r.inst else m.inst r := by
  simp only [inst, func_updFunc, Option.bind_eq_bind]
  split
  · exact Option.bind_map ..
  · rfl

/-- A block after a change of a function. -/
theorem block_updFunc (f : FunctionId) (g : FunctionData → FunctionData) (b : BlockRef) :
    (m.updFunc f g).block b =
      if b.func = f then (m.func f).bind fun fd => (g fd).blocks.get? b.block else m.block b := by
  simp only [block, func_updFunc, Option.bind_eq_bind]
  split
  · exact Option.bind_map ..
  · rfl

/-- An argument after a change of a function. -/
theorem arg_updFunc (f : FunctionId) (g : FunctionData → FunctionData) (a : ArgRef) :
    (m.updFunc f g).arg a =
      if a.func = f then (m.func f).bind fun fd => (g fd).args.get? a.arg else m.arg a := by
  simp only [arg, func_updFunc, Option.bind_eq_bind]
  split
  · exact Option.bind_map ..
  · rfl

@[simp] theorem global_updFunc (f : FunctionId) (g : FunctionData → FunctionData) (c : GlobalId) :
    (m.updFunc f g).global c = m.global c := rfl

@[simp] theorem constData_updFunc (f : FunctionId) (g : FunctionData → FunctionData)
    (c : ConstId) : (m.updFunc f g).constData c = m.constData c := rfl

/-- An update that keeps the instructions of a function changes no instruction. -/
theorem inst_updFunc_of_insts {f : FunctionId} {g : FunctionData → FunctionData}
    (hg : ∀ fd, (g fd).insts = fd.insts) (r : InstRef) : (m.updFunc f g).inst r = m.inst r := by
  rw [inst_updFunc]
  split
  · next h => simp only [hg, inst, h, Option.bind_eq_bind]
  · rfl

/-- A change that keeps the arena of blocks keeps every block. -/
theorem block_updFunc_of_blocks {f : FunctionId} {g : FunctionData → FunctionData}
    (hg : ∀ fd, (g fd).blocks = fd.blocks) (b : BlockRef) :
    (m.updFunc f g).block b = m.block b := by
  rw [block_updFunc]
  split
  · next h => simp only [hg, block, h, Option.bind_eq_bind]
  · rfl

/-- A change that keeps the arena of arguments keeps every argument. -/
theorem arg_updFunc_of_args {f : FunctionId} {g : FunctionData → FunctionData}
    (hg : ∀ fd, (g fd).args = fd.args) (a : ArgRef) : (m.updFunc f g).arg a = m.arg a := by
  rw [arg_updFunc]
  split
  · next h => simp only [hg, arg, h, Option.bind_eq_bind]
  · rfl

/-! ## `updInst`, `updBlock`, `updArg` -/

/-- Changing an instruction changes that one only. -/
theorem inst_updInst (i r : InstRef) (g : InstData → InstData) :
    (m.updInst i g).inst r = if r = i then (m.inst i).map g else m.inst r := by
  rw [updInst, inst_updFunc]
  split
  · next hf =>
    simp only [SlotMap.get?_modify]
    split
    · next hi =>
      rw [if_pos (by cases r; cases i; simp_all)]
      simp only [inst, Option.bind_eq_bind, Option.map_bind]
      rfl
    · next hi =>
      rw [if_neg (fun h => hi (congrArg InstRef.inst h))]
      simp only [inst, hf, Option.bind_eq_bind]
  · next hf => rw [if_neg (fun h => hf (congrArg InstRef.func h))]

@[simp] theorem inst_updInst_self (i : InstRef) (g : InstData → InstData) :
    (m.updInst i g).inst i = (m.inst i).map g := by
  simp [inst_updInst]

/-- Another instruction than the one that is changed. -/
theorem inst_updInst_of_ne {i r : InstRef} (h : r ≠ i) (g : InstData → InstData) :
    (m.updInst i g).inst r = m.inst r := by
  simp [inst_updInst, h]

@[simp] theorem block_updInst (i : InstRef) (g : InstData → InstData) (b : BlockRef) :
    (m.updInst i g).block b = m.block b := m.block_updFunc_of_blocks (by simp) b

@[simp] theorem arg_updInst (i : InstRef) (g : InstData → InstData) (a : ArgRef) :
    (m.updInst i g).arg a = m.arg a := m.arg_updFunc_of_args (by simp) a

@[simp] theorem global_updInst (i : InstRef) (g : InstData → InstData) (c : GlobalId) :
    (m.updInst i g).global c = m.global c := rfl

@[simp] theorem constData_updInst (i : InstRef) (g : InstData → InstData) (c : ConstId) :
    (m.updInst i g).constData c = m.constData c := rfl

/-- Changing a block changes that one only. -/
theorem block_updBlock (b c : BlockRef) (g : BlockData → BlockData) :
    (m.updBlock b g).block c = if c = b then (m.block b).map g else m.block c := by
  rw [updBlock, block_updFunc]
  split
  · next hf =>
    simp only [SlotMap.get?_modify]
    split
    · next hi =>
      rw [if_pos (by cases c; cases b; simp_all)]
      simp only [block, Option.bind_eq_bind, Option.map_bind]
      rfl
    · next hi =>
      rw [if_neg (fun h => hi (congrArg BlockRef.block h))]
      simp only [block, hf, Option.bind_eq_bind]
  · next hf => rw [if_neg (fun h => hf (congrArg BlockRef.func h))]

@[simp] theorem block_updBlock_self (b : BlockRef) (g : BlockData → BlockData) :
    (m.updBlock b g).block b = (m.block b).map g := by
  simp [block_updBlock]

@[simp] theorem inst_updBlock (b : BlockRef) (g : BlockData → BlockData) (r : InstRef) :
    (m.updBlock b g).inst r = m.inst r := m.inst_updFunc_of_insts (by simp) r

@[simp] theorem arg_updBlock (b : BlockRef) (g : BlockData → BlockData) (a : ArgRef) :
    (m.updBlock b g).arg a = m.arg a := m.arg_updFunc_of_args (by simp) a

@[simp] theorem global_updBlock (b : BlockRef) (g : BlockData → BlockData) (c : GlobalId) :
    (m.updBlock b g).global c = m.global c := rfl

@[simp] theorem constData_updBlock (b : BlockRef) (g : BlockData → BlockData) (c : ConstId) :
    (m.updBlock b g).constData c = m.constData c := rfl

/-- Changing an argument changes that one only. -/
theorem arg_updArg (a a' : ArgRef) (g : ArgData → ArgData) :
    (m.updArg a g).arg a' = if a' = a then (m.arg a).map g else m.arg a' := by
  rw [updArg, arg_updFunc]
  split
  · next hf =>
    simp only [SlotMap.get?_modify]
    split
    · next hi =>
      rw [if_pos (by cases a; cases a'; simp_all)]
      simp only [arg, Option.bind_eq_bind, Option.map_bind]
      rfl
    · next hi =>
      rw [if_neg (fun h => hi (congrArg ArgRef.arg h))]
      simp only [arg, hf, Option.bind_eq_bind]
  · next hf => rw [if_neg (fun h => hf (congrArg ArgRef.func h))]

@[simp] theorem inst_updArg (a : ArgRef) (g : ArgData → ArgData) (r : InstRef) :
    (m.updArg a g).inst r = m.inst r := m.inst_updFunc_of_insts (by simp) r

@[simp] theorem block_updArg (a : ArgRef) (g : ArgData → ArgData) (b : BlockRef) :
    (m.updArg a g).block b = m.block b := m.block_updFunc_of_blocks (by simp) b

@[simp] theorem global_updArg (a : ArgRef) (g : ArgData → ArgData) (c : GlobalId) :
    (m.updArg a g).global c = m.global c := rfl

@[simp] theorem constData_updArg (a : ArgRef) (g : ArgData → ArgData) (c : ConstId) :
    (m.updArg a g).constData c = m.constData c := rfl

/-! ## `updGlobal`, `updConst` -/

/-- Changing a global changes that one only. -/
theorem global_updGlobal (c c' : GlobalId) (g : GlobalData → GlobalData) :
    (m.updGlobal c g).global c' = if c' = c then (m.global c).map g else m.global c' :=
  SlotMap.get?_modify _ _ _ _

@[simp] theorem inst_updGlobal (c : GlobalId) (g : GlobalData → GlobalData) (r : InstRef) :
    (m.updGlobal c g).inst r = m.inst r := rfl

@[simp] theorem block_updGlobal (c : GlobalId) (g : GlobalData → GlobalData) (b : BlockRef) :
    (m.updGlobal c g).block b = m.block b := rfl

@[simp] theorem arg_updGlobal (c : GlobalId) (g : GlobalData → GlobalData) (a : ArgRef) :
    (m.updGlobal c g).arg a = m.arg a := rfl

@[simp] theorem constData_updGlobal (c : GlobalId) (g : GlobalData → GlobalData) (c' : ConstId) :
    (m.updGlobal c g).constData c' = m.constData c' := rfl

/-- Changing a constant changes that one only. -/
theorem constData_updConst (c c' : ConstId) (g : ConstData → ConstData) :
    (m.updConst c g).constData c' = if c' = c then (m.constData c).map g else m.constData c' :=
  SlotMap.get?_modify _ _ _ _

@[simp] theorem inst_updConst (c : ConstId) (g : ConstData → ConstData) (r : InstRef) :
    (m.updConst c g).inst r = m.inst r := rfl

@[simp] theorem block_updConst (c : ConstId) (g : ConstData → ConstData) (b : BlockRef) :
    (m.updConst c g).block b = m.block b := rfl

@[simp] theorem arg_updConst (c : ConstId) (g : ConstData → ConstData) (a : ArgRef) :
    (m.updConst c g).arg a = m.arg a := rfl

@[simp] theorem global_updConst (c : ConstId) (g : ConstData → ConstData) (c' : GlobalId) :
    (m.updConst c g).global c' = m.global c' := rfl

end ModuleCore

end Ir
