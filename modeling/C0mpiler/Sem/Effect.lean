import C0mpiler.Sem.Exec
import Mathlib

/-!
# What an instruction does

`Effect` says what an instruction that is neither a phi nor a terminator does, in terms of the
values and the types of its operands: its event, the value it computes, if it computes one, and the
memory after it. A step of `Code.Exec` is an effect and a write to the register of the instruction
(`Code.exec_iff`), and an instruction with other operands has the effect of the instruction with
other values (`effect_mapOperands`), so steps of two codes are compared by the values of operands.
-/

namespace Ir

inductive Effect (E : Env) (ty : Ty) (val : ValueId → Option Val) (valTy : ValueId → Option Ty)
    (M : Mem) : InstKind → List Event → Option Val → Mem → Prop
  | pure {k : InstKind} {v : Val} (hv : evalPure E ty k val = some v) :
      Effect E ty val valTy M k [] (some v) M
  | alloca {allocated : Ty} {n j : Nat} (hn : sizeOf E.target allocated = some n)
      (hfresh : M.Fresh j) :
      Effect E ty val valTy M (.alloca allocated) [] (some (.ptr (.stack j) 0)) (M.alloc j n)
  | load {ptr : ValueId} {vp : Val} (hp : val ptr = some vp) :
      Effect E ty val valTy M (.load ptr) [] (some (M.load E.target ty vp)) M
  | store {value ptr : ValueId} {vty : Ty} {v vp : Val} {M' : Mem} (hty : valTy value = some vty)
      (hv : val value = some v) (hp : val ptr = some vp)
      (hM : M.store E.target vty vp v = some M') :
      Effect E ty val valTy M (.store value ptr) [] none M'
  | call {f : FunctionId} {args : List ValueId} {vs : List Val} {res : Val} {M' : Mem}
      (hvs : args.mapM val = some vs) :
      Effect E ty val valTy M (.call f args) [.call f vs M res M'] (some res) M'

/-- The state after the instruction `r`. -/
def State.write (s : State) (r : InstRef) (result : Option Val) (M : Mem) : State :=
  ⟨if result.isSome then Function.update s.regs r result else s.regs, M⟩

@[simp] theorem State.write_mem (s : State) (r : InstRef) (result : Option Val) (M : Mem) :
    (s.write r result M).mem = M := rfl

section

variable {E : Env} {ty : Ty} {val val' : ValueId → Option Val} {valTy valTy' : ValueId → Option Ty}
  {M M' : Mem} {k : InstKind} {ev : List Event} {res : Option Val}

/-- An effect depends on the operands only. -/
theorem Effect.congr (h : Effect E ty val valTy M k ev res M')
    (hval : ∀ op ∈ k.valueOperands, val op.1 = val' op.1)
    (hty : ∀ op ∈ k.valueOperands, valTy op.1 = valTy' op.1) :
    Effect E ty val' valTy' M k ev res M' := by
  cases h with
  | pure hv => exact .pure ((Code.evalPure_congr hval).symm.trans hv)
  | alloca hn hfresh => exact .alloca hn hfresh
  | load hp => exact .load ((hval _ List.mem_cons_self).symm.trans hp)
  | store hvty hv hp hM =>
    refine .store ((hty _ List.mem_cons_self).symm.trans hvty)
      ((hval _ List.mem_cons_self).symm.trans hv) ?_ hM
    exact (hval _ (List.mem_cons_of_mem _ List.mem_cons_self)).symm.trans hp
  | @call _ args _ _ _ hvs =>
    refine .call ((OptionFold.mapM_congr fun v hv => ?_).symm.trans hvs)
    obtain ⟨i, hi⟩ := List.mem_iff_getElem?.mp hv
    exact hval (v, .callArg i) (InstKind.mem_zipIdx_of_getElem? _ hi)

theorem effect_mapOperands (σ : ValueId → ValueId) :
    Effect E ty val valTy M (k.mapOperands σ) ev res M' ↔
      Effect E ty (fun v => val (σ v)) (fun v => valTy (σ v)) M k ev res M' := by
  constructor
  -- the renamed instruction is of the same constructor
  · intro h
    generalize hk : k.mapOperands σ = k' at h
    cases h with
    | pure hv =>
      rw [← hk, Code.evalPure_mapOperands] at hv
      exact .pure hv
    | alloca hn hfresh =>
      cases k <;> cases hk
      exact .alloca hn hfresh
    | load hp =>
      cases k <;> cases hk
      exact .load hp
    | store hvty hv hp hM =>
      cases k <;> cases hk
      exact .store hvty hv hp hM
    | call hvs =>
      cases k <;> cases hk
      rw [List.mapM_map] at hvs
      exact .call hvs
  -- the other way the constructors fit as they are
  · intro h
    cases h with
    | pure hv => exact .pure ((Code.evalPure_mapOperands _ _ _ _).trans hv)
    | alloca hn hfresh => exact .alloca hn hfresh
    | load hp => exact .load hp
    | store hvty hv hp hM => exact .store hvty hv hp hM
    | call hvs =>
      refine .call ?_
      rw [List.mapM_map]
      exact hvs

end

namespace Code

variable {C : Code} {E : Env}

theorem exec_iff {s s' : State} {r : InstRef} {ev : List Event} :
    C.Exec E s r ev s' ↔ ∃ d res M, C.inst r = some d ∧
      Effect E d.ty (C.evalOperand E s.regs) C.operandTy s.mem d.kind ev res M ∧
      s' = s.write r res M := by
  constructor
  · intro h
    -- the effect of an instruction is read off its rule
    cases h with
    | pure hd hv => exact ⟨_, _, _, hd, .pure hv, rfl⟩
    | @alloca d _ n j hd hk hn hfresh =>
      refine ⟨d, some (.ptr (.stack j) 0), s.mem.alloc j n, hd, ?_, rfl⟩
      rw [hk]
      exact .alloca hn hfresh
    | @load d _ vp hd hk hp =>
      refine ⟨d, some (s.mem.load E.target d.ty vp), s.mem, hd, ?_, rfl⟩
      rw [hk]
      exact .load hp
    | @store d _ _ _ _ _ M hd hk hvty hv hp hM =>
      refine ⟨d, none, M, hd, ?_, rfl⟩
      rw [hk]
      exact .store hvty hv hp hM
    | @call d _ _ _ res M hd hk hvs =>
      refine ⟨d, some res, M, hd, ?_, rfl⟩
      rw [hk]
      exact .call hvs
  · rintro ⟨d, res, M, hd, heffect, rfl⟩
    generalize hk : d.kind = k at heffect
    -- each rule is the effect of its constructor
    cases heffect with
    | pure hv => exact .pure hd (hk ▸ hv)
    | alloca hn hfresh => exact .alloca hd hk hn hfresh
    | load hp => exact .load hd hk hp
    | store hvty hv hp hM => exact .store hd hk hvty hv hp hM
    | call hvs => exact .call hd hk hvs

end Code

end Ir
