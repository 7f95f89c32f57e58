import C0mpiler.Flow.Labelled
import C0mpiler.Sem.Exec
import Mathlib

/-!
# Executing a function

`Code.FlowStep` executes a function step by step: the phis at the start of a block, all of them at
once, one instruction, or a terminator. A step shows the instruction it executed with the state
before and after it, so that two functions with the same labels make the same calls, loads and
stores. `Code.FlowRun` is a run; it stops wherever it likes, so a run that never returns is given by
its parts.
-/

namespace Ir

/-- An instruction that was executed, with the state before and after it. -/
structure Action where
  inst : InstRef
  before : State
  events : List Event
  after : State

/-- Where an execution stands: in front of the phis of a block, in front of the instructions that
are left of it, or behind a return. -/
inductive FlowState where
  | enter (source : Option BlockId) (block : BlockId) (s : State)
  | inside (block : BlockId) (rest : List InstId) (s : State)
  | returned (value : Option Val) (mem : Mem)

namespace Code

variable (C : Code) (E : Env) (f : FunctionId)

/-- The phis of a block take the values that come from `source`, as the registers were before. -/
inductive Phis (source : BlockId) (regs : Regs) : List InstId → Regs → Prop
  | nil : Phis source regs [] regs
  | cons {i : InstId} {is : List InstId} {d : InstData} {incomings : HashMap Nat PhiIncoming}
      {idx k : Nat} {incoming : PhiIncoming} {v : Val} {regs' : Regs}
      (hrest : Phis source regs is regs') (hd : C.inst ⟨f, i⟩ = some d)
      (hk : d.kind = .phi incomings idx) (hin : incomings.lookup k = some incoming)
      (hsource : incoming.block = source) (hv : C.evalOperand E regs incoming.value = some v) :
      Phis source regs (i :: is) (Function.update regs' ⟨f, i⟩ (some v))

/-- The terminator of a block. -/
def TerminatorIs (b : BlockId) (k : InstKind) : Prop :=
  ∃ bd t d, C.block ⟨f, b⟩ = some bd ∧ bd.terminator = some t ∧ C.inst ⟨f, t⟩ = some d ∧ d.kind = k

/-- The target of a branch. -/
def BranchTo (regs : Regs) (thenBlock : BlockId) (target : BlockId) : Option CondBranch → Prop
  | none => target = thenBlock
  | some c => ∃ taken : Bool, C.evalOperand E regs c.cond = some (.ofBool taken) ∧
      target = if taken then thenBlock else c.elseBlock

/-- What a return hands out. -/
def evalReturn (regs : Regs) : Option ValueId → Option (Option Val)
  | none => some none
  | some v => (C.evalOperand E regs v).map some

inductive FlowStep : FlowState → List Action → FlowState → Prop
  | entry {b : BlockId} {bd : BlockData} {s : State} (hb : C.block ⟨f, b⟩ = some bd)
      (hphis : bd.phis = []) : FlowStep (.enter none b s) [] (.inside b bd.insts s)
  | phis {source b : BlockId} {bd : BlockData} {s : State} {regs : Regs}
      (hb : C.block ⟨f, b⟩ = some bd) (hphis : C.Phis E f source s.regs bd.phis regs) :
      FlowStep (.enter (some source) b s) [] (.inside b bd.insts { s with regs := regs })
  | inst {b : BlockId} {i : InstId} {rest : List InstId} {s s' : State} {ev : List Event}
      (hexec : C.Exec E s ⟨f, i⟩ ev s') :
      FlowStep (.inside b (i :: rest) s) [⟨⟨f, i⟩, s, ev, s'⟩] (.inside b rest s')
  | branch {b thenBlock target : BlockId} {cond : Option CondBranch} {s : State}
      (hterm : C.TerminatorIs f b (.branch thenBlock cond))
      (htarget : C.BranchTo E s.regs thenBlock target cond) :
      FlowStep (.inside b [] s) [] (.enter (some b) target s)
  | ret {b : BlockId} {value : Option ValueId} {result : Option Val} {s : State}
      (hterm : C.TerminatorIs f b (.ret value)) (hresult : C.evalReturn E s.regs value = some result) :
      FlowStep (.inside b [] s) [] (.returned result s.mem)

/-- A run of the function. -/
def FlowRun : FlowState → List Action → FlowState → Prop := Flow.Labelled (C.FlowStep E f)

/-- A state of the function: its block exists, and what is left to execute is in it. -/
def FlowStateIn : FlowState → Prop
  | .enter _ b _ => (C.block ⟨f, b⟩).isSome
  | .inside b rest _ => ∃ bd, C.block ⟨f, b⟩ = some bd ∧ ∀ i ∈ rest, i ∈ bd.insts
  | .returned _ _ => True

/-- `C'` runs the function as `C` does: from the start of a block, both reach the same states of the
function of `C`, with the same actions. -/
def SameFlow (C C' : Code) (f : FunctionId) : Prop :=
  ∀ E b s acts c, C.FlowStateIn f (.enter none b s) → C.FlowStateIn f c →
    (C.FlowRun E f (.enter none b s) acts c ↔ C'.FlowRun E f (.enter none b s) acts c)

variable {C E f}

theorem TerminatorIs.unique {b : BlockId} {k k' : InstKind} (h : C.TerminatorIs f b k)
    (h' : C.TerminatorIs f b k') : k' = k := by
  obtain ⟨bd, t, d, hb, ht, hd, rfl⟩ := h
  obtain ⟨bd', t', d', hb', ht', hd', rfl⟩ := h'
  rw [hb] at hb'
  cases hb'
  rw [ht] at ht'
  cases ht'
  rw [hd] at hd'
  cases hd'
  rfl

/-- Phis depend on their own code and on the constants. -/
theorem Phis.congr {C' : Code} {source : BlockId} {regs regs' : Regs} {is : List InstId}
    (h : C.Phis E f source regs is regs') (hinst : ∀ i ∈ is, C'.inst ⟨f, i⟩ = C.inst ⟨f, i⟩)
    (hconsts : C'.constData = C.constData) : C'.Phis E f source regs is regs' := by
  induction h with
  | nil => exact .nil
  | cons _ hd hk hin hsource hv ih =>
    refine .cons (ih fun i hi => hinst i (List.mem_cons_of_mem _ hi))
      ((hinst _ List.mem_cons_self).trans hd) hk hin hsource ?_
    rw [evalOperand_consts hconsts]
    exact hv

theorem BranchTo.congr {C' : Code} {regs : Regs} {thenBlock target : BlockId}
    {cond : Option CondBranch} (h : C.BranchTo E regs thenBlock target cond)
    (hconsts : C'.constData = C.constData) : C'.BranchTo E regs thenBlock target cond := by
  cases cond with
  | none => exact h
  | some c =>
    obtain ⟨taken, hv, htarget⟩ := h
    exact ⟨taken, by rw [evalOperand_consts hconsts]; exact hv, htarget⟩

end Code

end Ir
