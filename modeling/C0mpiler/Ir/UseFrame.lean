import C0mpiler.Ir.CoreFrame
import Mathlib

/-!
# Updates of use lists

`SameCode m m'`: the two modules differ in use lists only. Every write to a use list keeps the
code, and registering or unregistering the operands of an instruction is a sequence of such
writes.
-/

namespace Ir

/-- The instruction without its use list. -/
def InstData.code (d : InstData) : InstData := { d with uses := [] }

/-- The block without its use list. -/
def BlockData.code (d : BlockData) : BlockData := { d with uses := [] }

/-- An argument without its use list. -/
def ArgData.code (d : ArgData) : ArgData := { d with uses := [] }

/-- A global without its use list. -/
def GlobalData.code (d : GlobalData) : GlobalData := { d with uses := [] }

/-- A constant without its use list. -/
def ConstData.code (d : ConstData) : ConstData := { d with uses := [] }

/-- What a function says besides its arguments, blocks and instructions. -/
def FunctionData.header (d : FunctionData) : FunctionData :=
  { d with args := .empty, blocks := .empty, insts := .empty }

namespace ModuleCore

/-- `m'` is `m` up to use lists. -/
structure SameCode (m m' : ModuleCore) : Prop where
  func : ∀ f, (m'.func f).map FunctionData.header = (m.func f).map FunctionData.header
  inst : ∀ r, (m'.inst r).map InstData.code = (m.inst r).map InstData.code
  block : ∀ b, (m'.block b).map BlockData.code = (m.block b).map BlockData.code
  arg : ∀ a, (m'.arg a).map ArgData.code = (m.arg a).map ArgData.code
  global : ∀ g, (m'.global g).map GlobalData.code = (m.global g).map GlobalData.code
  constData : ∀ c, (m'.constData c).map ConstData.code = (m.constData c).map ConstData.code

namespace SameCode

variable {m m' m'' : ModuleCore}

theorem refl (m : ModuleCore) : SameCode m m :=
  ⟨fun _ => rfl, fun _ => rfl, fun _ => rfl, fun _ => rfl, fun _ => rfl, fun _ => rfl⟩

theorem trans (h : SameCode m m') (h' : SameCode m' m'') : SameCode m m'' :=
  ⟨fun f => (h'.func f).trans (h.func f), fun r => (h'.inst r).trans (h.inst r),
    fun b => (h'.block b).trans (h.block b), fun a => (h'.arg a).trans (h.arg a),
    fun g => (h'.global g).trans (h.global g), fun c => (h'.constData c).trans (h.constData c)⟩

/-- An instruction of `m'` is the one of `m`, with another use list. -/
theorem inst_some (h : SameCode m m') {r : InstRef} {d' : InstData} (hd : m'.inst r = some d') :
    ∃ d, m.inst r = some d ∧ d'.code = d.code := by
  have hr := h.inst r
  rw [hd, Option.map_some] at hr
  obtain ⟨d, hd', heq⟩ := Option.map_eq_some_iff.mp hr.symm
  exact ⟨d, hd', heq.symm⟩

end SameCode

/-- A change that keeps the header of a function keeps that of every function. -/
theorem header_updFunc (m : ModuleCore) (f f' : FunctionId) {g : FunctionData → FunctionData}
    (hg : ∀ fd, (g fd).header = fd.header) :
    ((m.updFunc f g).func f').map FunctionData.header = (m.func f').map FunctionData.header := by
  rw [func_updFunc]
  split
  · next h => subst h; simp [Option.map_map, Function.comp_def, hg]
  · rfl

/-- Reading `k` of a function updated at one key, for a projection `p` the update keeps. -/
theorem map_ite_map {α β ι : Type} [DecidableEq ι] {x y : ι} (read : ι → Option α) (g : α → α)
    {p : α → β} (hg : ∀ a, p (g a) = p a) :
    (if x = y then (read y).map g else read x).map p = (read x).map p := by
  split
  · next h => subst h; simp [Option.map_map, Function.comp_def, hg]
  · rfl

/-! ## One write -/

/-- Writing the use list of an instruction does not change the code. -/
theorem sameCode_updInst (m : ModuleCore) (i : InstRef) {g : InstData → InstData}
    (hg : ∀ d, (g d).code = d.code) : SameCode m (m.updInst i g) where
  func f := m.header_updFunc _ f fun _ => rfl
  inst r := by rw [inst_updInst]; exact map_ite_map m.inst g hg
  block b := by simp
  arg a := by simp
  global c := by simp
  constData c := by simp

/-- Writing the use list of a block does not change the code. -/
theorem sameCode_updBlock (m : ModuleCore) (b : BlockRef) {g : BlockData → BlockData}
    (hg : ∀ d, (g d).code = d.code) : SameCode m (m.updBlock b g) where
  func f := m.header_updFunc _ f fun _ => rfl
  inst r := by simp
  block c := by rw [block_updBlock]; exact map_ite_map m.block g hg
  arg a := by simp
  global c := by simp
  constData c := by simp

/-- Writing the use list of an argument does not change the code. -/
theorem sameCode_updArg (m : ModuleCore) (a : ArgRef) {g : ArgData → ArgData}
    (hg : ∀ d, (g d).code = d.code) : SameCode m (m.updArg a g) where
  func f := m.header_updFunc _ f fun _ => rfl
  inst r := by simp
  block c := by simp
  arg a' := by rw [arg_updArg]; exact map_ite_map m.arg g hg
  global c := by simp
  constData c := by simp

/-- Writing the use list of a global does not change the code. -/
theorem sameCode_updGlobal (m : ModuleCore) (c : GlobalId) {g : GlobalData → GlobalData}
    (hg : ∀ d, (g d).code = d.code) : SameCode m (m.updGlobal c g) where
  func f := rfl
  inst r := rfl
  block b := rfl
  arg a := rfl
  global c' := by rw [global_updGlobal]; exact map_ite_map m.global g hg
  constData c := rfl

/-- Writing the use list of a constant does not change the code. -/
theorem sameCode_updConst (m : ModuleCore) (c : ConstId) {g : ConstData → ConstData}
    (hg : ∀ d, (g d).code = d.code) : SameCode m (m.updConst c g) where
  func f := rfl
  inst r := rfl
  block b := rfl
  arg a := rfl
  global c' := rfl
  constData c' := by rw [constData_updConst]; exact map_ite_map m.constData g hg

/-- What `updValueUses` does: it needs a live value, changes its list and nothing else. -/
structure ValueUsesWritten (m : ModuleCore) (v : ValueId) (g : List Use → List Use)
    (l : List Use) (m' : ModuleCore) : Prop where
  live : m.valueUses v = some l
  values : m'.valueUses = Function.update m.valueUses v (some (g l))
  blocks : m'.blockUses = m.blockUses
  code : SameCode m m'

theorem updValueUses_spec {m m' : ModuleCore} {v : ValueId} {g : List Use → List Use}
    (h : m.updValueUses v g = some m') : ∃ l, ValueUsesWritten m v g l m' := by
  obtain ⟨l, hl, h⟩ := Option.bind_eq_some_iff.mp h
  refine ⟨l, ?_⟩
  -- The four kinds of values have their lists in four arenas; in each the other lists stay.
  cases v with
  | inst r =>
    cases h
    obtain ⟨d, hd, rfl⟩ := Option.map_eq_some_iff.mp hl
    refine ⟨hl, ?_, by ext b; simp [blockUses], sameCode_updInst _ _ fun _ => rfl⟩
    funext w
    by_cases hw : w = .inst r
    · subst hw; simp [valueUses, hd]
    · rw [Function.update_of_ne hw]
      cases w with
      | inst r' => simp [valueUses, inst_updInst_of_ne m (fun h => hw (congrArg ValueId.inst h))]
      | _ => simp [valueUses]
  | arg a =>
    cases h
    obtain ⟨d, hd, rfl⟩ := Option.map_eq_some_iff.mp hl
    refine ⟨hl, ?_, by ext b; simp [blockUses], sameCode_updArg _ _ fun _ => rfl⟩
    funext w
    by_cases hw : w = .arg a
    · subst hw; simp [valueUses, arg_updArg, hd]
    · rw [Function.update_of_ne hw]
      cases w with
      | arg a' => simp [valueUses, arg_updArg, show a' ≠ a from fun h => hw (congrArg ValueId.arg h)]
      | _ => simp [valueUses]
  | global c =>
    cases h
    obtain ⟨d, hd, rfl⟩ := Option.map_eq_some_iff.mp hl
    refine ⟨hl, ?_, by ext b; simp [blockUses], sameCode_updGlobal _ _ fun _ => rfl⟩
    funext w
    by_cases hw : w = .global c
    · subst hw; simp [valueUses, global_updGlobal, hd]
    · rw [Function.update_of_ne hw]
      cases w with
      | global c' =>
        simp [valueUses, global_updGlobal, show c' ≠ c from fun h => hw (congrArg ValueId.global h)]
      | _ => simp [valueUses]
  | const c =>
    cases h
    obtain ⟨d, hd, rfl⟩ := Option.map_eq_some_iff.mp hl
    refine ⟨hl, ?_, by ext b; simp [blockUses], sameCode_updConst _ _ fun _ => rfl⟩
    funext w
    by_cases hw : w = .const c
    · subst hw; simp [valueUses, constData_updConst, hd]
    · rw [Function.update_of_ne hw]
      cases w with
      | const c' =>
        simp [valueUses, constData_updConst, show c' ≠ c from fun h => hw (congrArg ValueId.const h)]
      | _ => simp [valueUses]

/-- What `updBlockUses` does. -/
structure BlockUsesWritten (m : ModuleCore) (b : BlockRef) (g : List BlockUse → List BlockUse)
    (l : List BlockUse) (m' : ModuleCore) : Prop where
  live : m.blockUses b = some l
  values : m'.valueUses = m.valueUses
  blocks : m'.blockUses = Function.update m.blockUses b (some (g l))
  code : SameCode m m'

theorem updBlockUses_spec {m m' : ModuleCore} {b : BlockRef} {g : List BlockUse → List BlockUse}
    (h : m.updBlockUses b g = some m') : ∃ l, BlockUsesWritten m b g l m' := by
  obtain ⟨l, hl, h⟩ := Option.bind_eq_some_iff.mp h
  cases h
  obtain ⟨d, hd, rfl⟩ := Option.map_eq_some_iff.mp hl
  refine ⟨d.uses, hl, ?_, ?_, sameCode_updBlock _ _ fun _ => rfl⟩
  · funext w
    cases w <;> simp [valueUses]
  · funext c
    by_cases hc : c = b
    · subst hc; simp [blockUses, hd]
    · rw [Function.update_of_ne hc]
      simp [blockUses, block_updBlock, hc]

end ModuleCore

end Ir
