import C0mpiler.Ir.Code
import C0mpiler.Sem.Memory
import Mathlib

/-!
# Executing instructions

`Code.Exec` executes one instruction that is neither a phi nor a terminator. The only event is a
call: it shows the callee the argument values and the memory, and the callee answers with a
result and a memory. What the callee does is left open, so two programs that make the same calls
in the same memories agree for every callee. `Code.Run` executes a list of instructions.
-/

namespace Ir

inductive Event where
  | call (func : FunctionId) (args : List Val) (mem : Mem) (result : Val) (mem' : Mem)

/-- The values of the instructions executed so far, and the memory. -/
structure State where
  regs : Regs
  mem : Mem

def State.set (s : State) (r : InstRef) (v : Val) : State :=
  { s with regs := Function.update s.regs r (some v) }

/-- Which object an alloca makes and what a call answers is left open; all else is determined. -/
def InstKind.Determined : InstKind → Prop
  | .alloca _ | .call _ _ => False
  | _ => True

namespace Code

def evalOperand (C : Code) (E : Env) (regs : Regs) : ValueId → Option Val
  | .inst r => regs r
  | .arg a => E.args a
  | .global g => some (.ptr (.global g) 0)
  | .const c => (C.constData c).bind evalConst

/-- `value_ty`. -/
def valueTy (C : Code) : ValueId → Option Ty
  | .inst r => (C.inst r).map InstData.ty
  | .arg a => (C.arg a).map ArgData.ty
  | .global g => (C.global g).map GlobalData.ty
  | .const c => (C.constData c).map ConstData.ty

/-- The type an operand is printed with: a global stands for its address. -/
def operandTy (C : Code) : ValueId → Option Ty
  | .global _ => some .ptr
  | v => C.valueTy v

@[simp] theorem evalOperand_mapOperands (C : Code) (f : ValueId → ValueId) (E : Env) (regs : Regs) :
    (C.mapOperands f).evalOperand E regs = C.evalOperand E regs := by
  funext v
  cases v <;> rfl

@[simp] theorem valueTy_mapOperands (C : Code) (f : ValueId → ValueId) :
    (C.mapOperands f).valueTy = C.valueTy := by
  funext v
  cases v with
  | inst r =>
    show ((C.mapOperands f).inst r).map InstData.ty = (C.inst r).map InstData.ty
    rw [mapOperands_inst, Option.map_map]
    refine congrArg (Option.map · (C.inst r)) (funext fun d => ?_)
    show InstData.ty (if d.parent.isSome = true then _ else d) = d.ty
    split <;> rfl
  | _ => rfl

@[simp] theorem operandTy_mapOperands (C : Code) (f : ValueId → ValueId) :
    (C.mapOperands f).operandTy = C.operandTy := by
  funext v
  have hty := congrFun (C.valueTy_mapOperands f) v
  cases v with
  | global g => rfl
  | _ => exact hty

variable (C : Code) (E : Env)

inductive Exec (s : State) (r : InstRef) : List Event → State → Prop
  | pure {d : InstData} {v : Val} (hd : C.inst r = some d)
      (hv : evalPure E d.ty d.kind (C.evalOperand E s.regs) = some v) : Exec s r [] (s.set r v)
  | alloca {d : InstData} {ty : Ty} {n k : Nat} (hd : C.inst r = some d)
      (hk : d.kind = .alloca ty) (hn : sizeOf E.target ty = some n) (hfresh : s.mem.Fresh k) :
      Exec s r [] { s.set r (.ptr (.stack k) 0) with mem := s.mem.alloc k n }
  | load {d : InstData} {ptr : ValueId} {vp : Val} (hd : C.inst r = some d)
      (hk : d.kind = .load ptr) (hp : C.evalOperand E s.regs ptr = some vp) :
      Exec s r [] (s.set r (s.mem.load E.target d.ty vp))
  | store {d : InstData} {value ptr : ValueId} {ty : Ty} {v vp : Val} {M : Mem}
      (hd : C.inst r = some d) (hk : d.kind = .store value ptr)
      (hty : C.operandTy value = some ty) (hv : C.evalOperand E s.regs value = some v)
      (hp : C.evalOperand E s.regs ptr = some vp) (hM : s.mem.store E.target ty vp v = some M) :
      Exec s r [] { s with mem := M }
  | call {d : InstData} {f : FunctionId} {args : List ValueId} {vs : List Val} {res : Val} {M : Mem}
      (hd : C.inst r = some d) (hk : d.kind = .call f args)
      (hvs : args.mapM (C.evalOperand E s.regs) = some vs) :
      Exec s r [.call f vs s.mem res M] { s.set r res with mem := M }

inductive Run : State → List InstRef → List Event → State → Prop
  | nil (s : State) : Run s [] [] s
  | cons {s s₁ s' : State} {r : InstRef} {rs : List InstRef} {ev evs : List Event}
      (hstep : C.Exec E s r ev s₁) (hrest : Run s₁ rs evs s') : Run s (r :: rs) (ev ++ evs) s'

variable {C E}

theorem Run.append {s s₁ s' : State} {l l' : List InstRef} {evs evs' : List Event}
    (h : C.Run E s l evs s₁) (h' : C.Run E s₁ l' evs' s') : C.Run E s (l ++ l') (evs ++ evs') s' := by
  induction h with
  | nil s => exact h'
  | cons hstep _ ih =>
    rw [List.cons_append, List.append_assoc]
    exact .cons hstep (ih h')

theorem Run.snoc {s s₁ s' : State} {l : List InstRef} {r : InstRef} {evs ev : List Event}
    (h : C.Run E s l evs s₁) (hstep : C.Exec E s₁ r ev s') :
    C.Run E s (l ++ [r]) (evs ++ ev) s' := by
  have hone : C.Run E s₁ [r] (ev ++ []) s' := .cons hstep (.nil s')
  rw [List.append_nil] at hone
  exact h.append hone

theorem Run.cons_inv {s s' : State} {r : InstRef} {rs : List InstRef} {evs : List Event}
    (h : C.Run E s (r :: rs) evs s') :
    ∃ ev evs' s₁, evs = ev ++ evs' ∧ C.Exec E s r ev s₁ ∧ C.Run E s₁ rs evs' s' := by
  cases h with
  | cons hstep hrest => exact ⟨_, _, _, rfl, hstep, hrest⟩

/-- An instruction writes no register but its own. -/
theorem Exec.regs_of_ne {s s' : State} {r r' : InstRef} {ev : List Event} (h : C.Exec E s r ev s')
    (hne : r' ≠ r) : s'.regs r' = s.regs r' := by
  cases h with
  | store => rfl
  | _ => exact Function.update_of_ne hne _ _

/-- Executing depends on the values of the operands only. -/
theorem evalPure_congr {ty : Ty} {k : InstKind} {val val' : ValueId → Option Val}
    (h : ∀ op ∈ k.valueOperands, val op.1 = val' op.1) : evalPure E ty k val = evalPure E ty k val' := by
  cases k with
  | getElementPtr baseTy base indices =>
    have hbase : val base = val' base := h _ List.mem_cons_self
    have hidx : indices.mapM val = indices.mapM val' := by
      refine OptionFold.mapM_congr fun v hv => ?_
      obtain ⟨i, hi⟩ := List.mem_iff_getElem?.mp hv
      exact h (v, .gepIndex i) (List.mem_cons_of_mem _ (InstKind.mem_zipIdx_of_getElem? _ hi))
    simp only [evalPure, hbase, hidx]
  | _ => simp_all [InstKind.valueOperands, evalPure]

theorem evalPure_mapOperands (ty : Ty) (k : InstKind) (f : ValueId → ValueId)
    (val : ValueId → Option Val) :
    evalPure E ty (k.mapOperands f) val = evalPure E ty k fun v => val (f v) := by
  cases k with
  | getElementPtr baseTy base indices =>
    simp only [InstKind.mapOperands, evalPure, List.mapM_map]
    rfl
  | _ => rfl

section

variable {s s₁ : State} {i : InstRef} {d : InstData} {ev : List Event}

/-! ## What an execution step says, by kind -/

theorem Exec.load_inv {ptr : ValueId} (h : C.Exec E s i ev s₁) (hd : C.inst i = some d)
    (hk : d.kind = .load ptr) :
    ev = [] ∧ ∃ vp, C.evalOperand E s.regs ptr = some vp ∧
      s₁ = s.set i (s.mem.load E.target d.ty vp) := by
  cases h with
  | load hd' hk' hp =>
    rw [hd] at hd'
    cases hd'
    rw [hk] at hk'
    cases hk'
    exact ⟨rfl, _, hp, rfl⟩
  | pure hd' hv =>
    rw [hd] at hd'
    cases hd'
    rw [hk] at hv
    cases hv
  | alloca hd' hk' | store hd' hk' | call hd' hk' =>
    rw [hd] at hd'
    cases hd'
    rw [hk] at hk'
    cases hk'

theorem Exec.store_inv {value ptr : ValueId} (h : C.Exec E s i ev s₁) (hd : C.inst i = some d)
    (hk : d.kind = .store value ptr) :
    ev = [] ∧ ∃ ty v vp M, C.operandTy value = some ty ∧ C.evalOperand E s.regs value = some v ∧
      C.evalOperand E s.regs ptr = some vp ∧ s.mem.store E.target ty vp v = some M ∧
      s₁ = { s with mem := M } := by
  cases h with
  | store hd' hk' hty hv hp hM =>
    rw [hd] at hd'
    cases hd'
    rw [hk] at hk'
    cases hk'
    exact ⟨rfl, _, _, _, _, hty, hv, hp, hM, rfl⟩
  | pure hd' hv =>
    rw [hd] at hd'
    cases hd'
    rw [hk] at hv
    cases hv
  | alloca hd' hk' | load hd' hk' | call hd' hk' =>
    rw [hd] at hd'
    cases hd'
    rw [hk] at hk'
    cases hk'

theorem Exec.call_inv {f : FunctionId} {args : List ValueId} (h : C.Exec E s i ev s₁)
    (hd : C.inst i = some d) (hk : d.kind = .call f args) :
    ∃ vs res M, args.mapM (C.evalOperand E s.regs) = some vs ∧
      ev = [.call f vs s.mem res M] ∧ s₁ = { s.set i res with mem := M } := by
  cases h with
  | call hd' hk' hvs =>
    rw [hd] at hd'
    cases hd'
    rw [hk] at hk'
    cases hk'
    exact ⟨_, _, _, hvs, rfl, rfl⟩
  | pure hd' hv =>
    rw [hd] at hd'
    cases hd'
    rw [hk] at hv
    cases hv
  | alloca hd' hk' | load hd' hk' | store hd' hk' =>
    rw [hd] at hd'
    cases hd'
    rw [hk] at hk'
    cases hk'

theorem Exec.pure_inv {v : Val} (h : C.Exec E s i ev s₁) (hd : C.inst i = some d)
    (hv : evalPure E d.ty d.kind (C.evalOperand E s.regs) = some v) : ev = [] ∧ s₁ = s.set i v := by
  cases h with
  | pure hd' hv' =>
    rw [hd] at hd'
    cases hd'
    rw [hv] at hv'
    cases hv'
    exact ⟨rfl, rfl⟩
  | alloca hd' hk' | load hd' hk' | store hd' hk' | call hd' hk' =>
    rw [hd] at hd'
    cases hd'
    rw [hk'] at hv
    cases hv

/-- A determined instruction has one outcome. -/
theorem Exec.unique {s₂ : State} {ev' : List Event} (h : C.Exec E s i ev s₁)
    (h' : C.Exec E s i ev' s₂) (hd : C.inst i = some d) (hk : d.kind.Determined) :
    ev' = ev ∧ s₂ = s₁ := by
  cases h with
  | pure hd₁ hv =>
    obtain ⟨hev, hs⟩ := h'.pure_inv hd₁ hv
    exact ⟨hev, hs⟩
  | load hd₁ hk₁ hp =>
    obtain ⟨hev, vp, hp', hs⟩ := h'.load_inv hd₁ hk₁
    rw [hp] at hp'
    cases hp'
    exact ⟨hev, hs⟩
  | store hd₁ hk₁ hty hv hp hM =>
    obtain ⟨hev, ty, v, vp, M, hty', hv', hp', hM', hs⟩ := h'.store_inv hd₁ hk₁
    rw [hty] at hty'
    cases hty'
    rw [hv] at hv'
    cases hv'
    rw [hp] at hp'
    cases hp'
    rw [hM] at hM'
    cases hM'
    exact ⟨hev, hs⟩
  | alloca hd₁ hk₁ | call hd₁ hk₁ =>
    rw [hd] at hd₁
    cases hd₁
    rw [hk₁] at hk
    exact hk.elim

theorem Run.unique {s s' s'' : State} {l : List InstRef} {evs evs' : List Event}
    (h : C.Run E s l evs s') (h' : C.Run E s l evs' s'')
    (hl : ∀ r ∈ l, ∃ d, C.inst r = some d ∧ d.kind.Determined) : evs' = evs ∧ s'' = s' := by
  induction h generalizing evs' with
  | nil s =>
    cases h'
    exact ⟨rfl, rfl⟩
  | @cons s s₁ s' r rs ev evs hstep hrest ih =>
    cases h' with
    | cons hstep' hrest' =>
      obtain ⟨d, hd, hk⟩ := hl r List.mem_cons_self
      obtain ⟨rfl, rfl⟩ := hstep.unique hstep' hd hk
      obtain ⟨rfl, rfl⟩ := ih hrest' fun r' hr' => hl r' (List.mem_cons_of_mem _ hr')
      exact ⟨rfl, rfl⟩

theorem Exec.evalOperand_of_ne (h : C.Exec E s i ev s₁) {v : ValueId} (hv : v ≠ .inst i) :
    C.evalOperand E s₁.regs v = C.evalOperand E s.regs v := by
  cases v with
  | inst r => exact h.regs_of_ne fun heq => hv (congrArg ValueId.inst heq)
  | _ => rfl

theorem evalOperand_consts {T : Code} (h : T.constData = C.constData) (regs : Regs) :
    T.evalOperand E regs = C.evalOperand E regs := by
  funext v
  cases v with
  | const c => show (T.constData c).bind _ = (C.constData c).bind _; rw [h]
  | _ => rfl

/-- A step depends on the code of its instruction, on the types of its operands and on the
constants. -/
theorem Exec.congr_operands {T : Code} (h : C.Exec E s i ev s₁) (hinst : T.inst i = C.inst i)
    (hty : ∀ d, C.inst i = some d → ∀ op ∈ d.kind.valueOperands, T.operandTy op.1 = C.operandTy op.1)
    (hconsts : T.constData = C.constData) : T.Exec E s i ev s₁ := by
  have heval := evalOperand_consts (E := E) hconsts s.regs
  cases h with
  | pure hd hv => exact .pure (hinst.trans hd) (heval ▸ hv)
  | alloca hd hk hn hfresh => exact .alloca (hinst.trans hd) hk hn hfresh
  | load hd hk hp => exact .load (hinst.trans hd) hk (heval ▸ hp)
  | @store d value ptr _ _ _ _ hd hk hvty hv hp hM =>
    have hmem : (value, .storeVal) ∈ d.kind.valueOperands := by
      rw [hk]
      exact List.mem_cons_self
    exact .store (hinst.trans hd) hk ((hty d hd _ hmem).trans hvty) (heval ▸ hv) (heval ▸ hp) hM
  | call hd hk hvs => exact .call (hinst.trans hd) hk (heval ▸ hvs)

theorem Exec.congr {T : Code} (h : C.Exec E s i ev s₁) (hinst : T.inst i = C.inst i)
    (hty : T.operandTy = C.operandTy) (hconsts : T.constData = C.constData) :
    T.Exec E s i ev s₁ :=
  h.congr_operands hinst (fun _ _ op _ => congrFun hty op.1) hconsts

theorem Run.congr {T : Code} {s s' : State} {l : List InstRef} {evs : List Event}
    (h : C.Run E s l evs s') (hinst : ∀ r ∈ l, T.inst r = C.inst r)
    (hty : T.operandTy = C.operandTy) (hconsts : T.constData = C.constData) :
    T.Run E s l evs s' := by
  induction h with
  | nil s => exact .nil s
  | cons hstep _ ih =>
    exact .cons (hstep.congr (hinst _ List.mem_cons_self) hty hconsts)
      (ih fun r hr => hinst r (List.mem_cons_of_mem _ hr))

/-- A substitution that preserves the values and the types of operands preserves the step. -/
theorem Exec.mapOperands {f : ValueId → ValueId} (h : C.Exec E s i ev s₁)
    (hval : ∀ v, C.evalOperand E s.regs (f v) = C.evalOperand E s.regs v)
    (hty : ∀ v, C.operandTy (f v) = C.operandTy v) : (C.mapOperands f).Exec E s i ev s₁ := by
  -- operands are replaced in inserted instructions only
  have hinst : ∀ d, C.inst i = some d → ∃ d', (C.mapOperands f).inst i = some d' ∧ d'.ty = d.ty ∧
      (d'.kind = d.kind.mapOperands f ∨ d'.kind = d.kind) := by
    intro d hd
    rw [mapOperands_inst, hd]
    refine ⟨_, rfl, ?_⟩
    dsimp only
    split
    · exact ⟨rfl, Or.inl rfl⟩
    · exact ⟨rfl, Or.inr rfl⟩
  have heval : (C.mapOperands f).evalOperand E s.regs = C.evalOperand E s.regs :=
    C.evalOperand_mapOperands f E s.regs
  have htys : (C.mapOperands f).operandTy = C.operandTy := C.operandTy_mapOperands f
  -- each rule with the renamed operands
  cases h with
  | @pure d v hd hv =>
    obtain ⟨d', hd', hdty, hkind⟩ := hinst d hd
    refine .pure hd' ?_
    rw [heval, hdty]
    rcases hkind with hkind | hkind
    · rw [hkind, evalPure_mapOperands, funext hval, hv]
    · rw [hkind, hv]
  | @alloca d ty n k hd hk hn hfresh =>
    obtain ⟨d', hd', -, hkind⟩ := hinst d hd
    refine .alloca hd' ?_ hn hfresh
    rcases hkind with hkind | hkind <;> rw [hkind, hk]
    rfl
  | @load d ptr vp hd hk hp =>
    obtain ⟨d', hd', hdty, hkind⟩ := hinst d hd
    rw [← hdty]
    rcases hkind with hkind | hkind
    · rw [hk] at hkind
      refine .load hd' hkind ?_
      rw [heval, hval, hp]
    · rw [hk] at hkind
      refine .load hd' hkind ?_
      rw [heval, hp]
  | @store d value ptr ty v vp M hd hk hvty hv hp hM =>
    obtain ⟨d', hd', -, hkind⟩ := hinst d hd
    rcases hkind with hkind | hkind
    · rw [hk] at hkind
      exact .store hd' hkind (by rw [htys, hty, hvty]) (by rw [heval, hval, hv])
        (by rw [heval, hval, hp]) hM
    · rw [hk] at hkind
      refine .store hd' hkind ?_ ?_ ?_ hM
      · rw [htys, hvty]
      · rw [heval, hv]
      · rw [heval, hp]
  | @call d g args vs res M hd hk hvs =>
    obtain ⟨d', hd', -, hkind⟩ := hinst d hd
    rcases hkind with hkind | hkind
    · rw [hk] at hkind
      refine .call hd' hkind ?_
      rw [heval, List.mapM_map, ← hvs]
      exact OptionFold.mapM_congr fun v _ => hval v
    · rw [hk] at hkind
      refine .call hd' hkind ?_
      rw [heval, hvs]

end

end Code

/-- An operand has the same value in a module as in the code that the module carries. -/
theorem ModuleCore.code_evalOperand (m : ModuleCore) (E : Env) (regs : Regs) (v : ValueId) :
    m.code.evalOperand E regs v = m.evalOperand E regs v := by
  cases v with
  | const c =>
    show ((m.constData c).map ConstData.code).bind evalConst = (m.constData c).bind evalConst
    rw [Option.bind_map]
    rfl
  | _ => rfl

theorem ModuleCore.code_valueTy (m : ModuleCore) (v : ValueId) : m.code.valueTy v = m.valueTy v := by
  cases v <;> exact Option.map_map ..

end Ir
