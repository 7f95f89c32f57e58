import C0mpiler.Sem.Effect
import C0mpiler.Sem.WellFormed
import Mathlib

/-!
# Values along a run

In a well-formed function every use is dominated by its definition. So along a run from the entry
the instructions that have been computed (`Computed`) include the operands of whatever is executed
next, and the register of a computed pure instruction holds what the instruction makes of the
present values of its operands (`Settled`): around a loop both are executed again before either is
used. A state with these properties is `Standing`; every run from the entry stays in such states.
-/

namespace Ir

/-- The instruction only computes a value. -/
def InstKind.isPure : InstKind → Bool
  | .binary _ _ _ | .icmp _ _ _ | .getElementPtr _ _ _ | .select _ _ _ | .ptrToInt _ | .trunc _
  | .zext _ | .sext _ => true
  | _ => false

theorem InstKind.isPhi_of_isPure {k : InstKind} (h : k.isPure = true) : k.isPhi = false := by
  cases k <;> first | rfl | cases h

theorem InstKind.isTerminator_of_isPure {k : InstKind} (h : k.isPure = true) :
    k.isTerminator = false := by
  cases k <;> first | rfl | cases h

namespace FlowState

def regs : FlowState → Regs
  | .enter _ _ s | .inside _ _ s => s.regs
  | .returned _ _ => fun _ => none

end FlowState

namespace Code

variable (C : Code) (f : FunctionId) (entry : BlockId) (E : Env)

/-- `x` has been executed on the way to a state, and nothing that it depends on has been executed
since. -/
def Computed (x : InstRef) : FlowState → Prop
  | .enter none _ _ | .returned _ _ => False
  | .enter (some p) _ _ => ∃ a, C.ComputedIn f x a ∧ Flow.Dominates (C.Edge f) entry a p
  | .inside b rest _ => ∃ a, C.ComputedIn f x a ∧
      (a = b ∧ (∃ bd, C.block ⟨f, b⟩ = some bd ∧
          (x.inst ∈ bd.phis ∨ x.inst ∈ bd.insts ∧ x.inst ∉ rest)) ∨
        a ≠ b ∧ Flow.Dominates (C.Edge f) entry a b)

/-- Every operand that is an instruction has been computed. -/
def ComputedValue (v : ValueId) (c : FlowState) : Prop := ∀ x, v = .inst x → C.Computed f entry x c

/-- Where a run from the entry can stand. -/
def Located : FlowState → Prop
  | .enter none b _ => b = entry
  | .enter (some p) b _ => Flow.Reach (C.Edge f) entry p ∧ C.Edge f p b
  | .inside b rest _ => Flow.Reach (C.Edge f) entry b ∧
      ∃ bd before, C.block ⟨f, b⟩ = some bd ∧ bd.insts = before ++ rest
  | .returned _ _ => True

/-- The computed pure instructions have the values that their operands give them. -/
def Settled (c : FlowState) : Prop :=
  ∀ x d, C.inst x = some d → d.kind.isPure = true → C.Computed f entry x c →
    ∃ v, c.regs x = some v ∧ evalPure E d.ty d.kind (C.evalOperand E c.regs) = some v

structure Standing (c : FlowState) : Prop where
  located : C.Located f entry c
  settled : C.Settled f entry E c

variable {C f entry E} {fd : FunctionData}

section

variable (hwf : C.WellFormed f fd)
include hwf

theorem WellFormed.inst_mem {x : InstRef} {d : InstData} {a : BlockId} (hd : C.inst x = some d)
    (ha : C.ComputedIn f x a) (hpure : d.kind.isPhi = false) (hterm : d.kind.isTerminator = false) :
    ∃ bd, C.block ⟨f, a⟩ = some bd ∧ x.inst ∈ bd.insts := by
  obtain ⟨hfunc, d', hd', hparent⟩ := ha
  rw [hd] at hd'
  cases hd'
  obtain ⟨_, i⟩ := x
  cases hfunc
  obtain ⟨-, bd, hb, -, hinsts, -⟩ := hwf.placed i d _ hd hparent
  exact ⟨bd, hb, hinsts.mpr ⟨hpure, hterm⟩⟩

omit hwf in
theorem ComputedIn.unique {x : InstRef} {a b : BlockId} (ha : C.ComputedIn f x a)
    (hb : C.ComputedIn f x b) : a = b := by
  obtain ⟨-, d, hd, hparent⟩ := ha
  obtain ⟨-, d', hd', hparent'⟩ := hb
  rw [hd] at hd'
  cases hd'
  rw [hparent] at hparent'
  cases hparent'
  rfl

/-- An instruction in a list of a block is computed in that block. -/
theorem WellFormed.computedIn {b : BlockId} {bd : BlockData} {i : InstId}
    (hb : C.block ⟨f, b⟩ = some bd) (hi : bd.Holds i) : C.ComputedIn f ⟨f, i⟩ b := by
  obtain ⟨d, hd, hparent, -⟩ := hwf.owned b bd i hb hi
  exact ⟨rfl, d, hd, hparent⟩

omit hwf in
/-- What is available in a strict dominator of `b` is computed in a strict dominator of `b`. -/
theorem AvailableAt.strict {j : InstRef} {a b : BlockId} {i : InstId}
    (h : C.AvailableAt f entry (.inst j) a i) (hne : a ≠ b)
    (hdom : Flow.Dominates (C.Edge f) entry a b) (hreach : Flow.Reach (C.Edge f) entry b) :
    ∃ a', C.ComputedIn f j a' ∧ a' ≠ b ∧ Flow.Dominates (C.Edge f) entry a' b := by
  obtain ⟨a', ha', hcase⟩ := h j rfl
  refine ⟨a', ha', ?_⟩
  rcases hcase with ⟨rfl, -⟩ | ⟨hne', hdom'⟩
  · exact ⟨hne, hdom⟩
  · refine ⟨fun heq => ?_, hdom'.trans hdom⟩
    subst heq
    exact hne (hdom.antisymm hdom' hreach)

/-- What an instruction reads is available where it stands. -/
theorem WellFormed.availableAt {x : InstRef} {d : InstData} {a : BlockId} (hd : C.inst x = some d)
    (ha : C.ComputedIn f x a) (hphi : d.kind.isPhi = false) {op : ValueId × OperandSlot}
    (hop : op ∈ d.kind.valueOperands) : C.AvailableAt f fd.entry op.1 a x.inst := by
  obtain ⟨hfunc, d', hd', hparent⟩ := ha
  rw [hd] at hd'
  cases hd'
  obtain ⟨_, i⟩ := x
  cases hfunc
  exact hwf.available i d a hd hparent hphi _ hop

omit hwf in
/-- In a list without repetitions, what comes before an element of the front is in the front. -/
theorem mem_rest_of_sublist {before rest : List InstId} {j i : InstId}
    (hnodup : (before ++ rest).Nodup) (h : [j, i].Sublist (before ++ rest)) (hj : j ∈ rest) :
    i ∈ rest := by
  obtain ⟨l, l', heq, hl, hl'⟩ := List.sublist_append_iff.mp h
  cases l with
  | nil =>
    rw [List.nil_append] at heq
    rw [← heq] at hl'
    exact hl'.mem (by simp)
  | cons k l =>
    obtain rfl : j = k := (List.cons.inj heq).1
    exact absurd hj ((List.nodup_append.mp hnodup).2.2 j (hl.mem List.mem_cons_self) j · rfl)

/-- What is available at a computed instruction has been computed. -/
theorem AvailableAt.computed {c : FlowState} (hloc : C.Located f fd.entry c) {x j : InstRef}
    {d : InstData} (hd : C.inst x = some d) (hphi : d.kind.isPhi = false)
    (hx : C.Computed f fd.entry x c)
    (havail : ∀ a, C.ComputedIn f x a → C.AvailableAt f fd.entry (.inst j) a x.inst) :
    C.Computed f fd.entry j c := by
  rcases c with ⟨_ | p, b, s⟩ | ⟨b, rest, s⟩ | _
  -- at the entry of the function
  · exact hx
  -- on an edge to `b`: what dominates the end of `p` was computed
  · obtain ⟨a, ha, hdom⟩ := hx
    obtain ⟨a', ha', ⟨rfl, -⟩ | ⟨-, hdom'⟩⟩ := havail a ha j rfl
    · exact ⟨a', ha', hdom⟩
    · exact ⟨a', ha', hdom'.trans hdom⟩
  -- inside the block
  · obtain ⟨hreach, bd, before, hb, hinsts⟩ := hloc
    obtain ⟨a, ha, ⟨rfl, bd', hb', hmem⟩ | ⟨hne, hdom⟩⟩ := hx
    · rw [hb] at hb'
      cases hb'
      -- `x` stands in the block and has been executed there
      obtain ⟨hfunc, d', hd', hparent⟩ := ha
      rw [hd] at hd'
      cases hd'
      obtain ⟨_, i⟩ := x
      cases hfunc
      obtain ⟨-, bd', hb', hiphi, hiinst, hiterm⟩ := hwf.placed i d _ hd hparent
      rw [hb] at hb'
      cases hb'
      -- it is among the instructions executed so far
      have hinst : i ∈ bd.insts ∧ i ∉ rest := by
        rcases hmem with hmem | hmem
        · rw [hiphi.mp hmem] at hphi
          cases hphi
        · exact hmem
      obtain ⟨a', ha', ⟨rfl, bd', hb', hbefore⟩ | hstrict⟩ := havail a ⟨rfl, d, hd, hparent⟩ j rfl
      · refine ⟨a', ha', Or.inl ⟨rfl, bd, hb, ?_⟩⟩
        rw [hb] at hb'
        cases hb'
        -- a value read there stands before `x`, so it has been computed too
        rcases hbefore with ⟨-, hj⟩ | hsub | ⟨hterm, -⟩
        · exact Or.inl hj
        · refine Or.inr ⟨hsub.mem List.mem_cons_self, fun hj => hinst.2 ?_⟩
          have hnodup := (hwf.distinct _ bd hb).2
          rw [hinsts] at hsub hnodup
          exact mem_rest_of_sublist hnodup hsub hj
        · have hkind := hiterm.mp hterm
          rw [(hiinst.mp hinst.1).2] at hkind
          cases hkind
      · exact ⟨a', ha', Or.inr hstrict⟩
    -- `x` stands in a block that strictly dominates this one
    · obtain ⟨a', ha', hne', hdom'⟩ := (havail a ha).strict hne hdom hreach
      exact ⟨a', ha', Or.inr ⟨hne', hdom'⟩⟩
  · exact hx

/-- The operands of what has been computed have been computed. -/
theorem WellFormed.computed_operand {c : FlowState} (hloc : C.Located f fd.entry c) {x : InstRef}
    {d : InstData} (hd : C.inst x = some d) (hphi : d.kind.isPhi = false)
    (hx : C.Computed f fd.entry x c) {op : ValueId × OperandSlot}
    (hop : op ∈ d.kind.valueOperands) : C.ComputedValue f fd.entry op.1 c := fun _ hj =>
  AvailableAt.computed hwf hloc hd hphi hx fun _ ha => hj ▸ hwf.availableAt hd ha hphi hop

/-- What a use may read at the point of the block where `i` is next has been computed. -/
theorem AvailableAt.computedValue {v : ValueId} {b : BlockId} {i : InstId} {rest : List InstId}
    {s : State} (h : C.AvailableAt f fd.entry v b i)
    (hloc : C.Located f fd.entry (.inside b rest s))
    (hnext : rest.head? = some i ∨ rest = [] ∧ ∃ bd, C.block ⟨f, b⟩ = some bd ∧ bd.terminator = some i) :
    C.ComputedValue f fd.entry v (.inside b rest s) := by
  intro j hv
  obtain ⟨hreach, bd, before, hb, hinsts⟩ := hloc
  obtain ⟨a, ha, ⟨rfl, bd', hb', hbefore⟩ | hstrict⟩ := h j hv
  · refine ⟨a, ha, Or.inl ⟨rfl, bd, hb, ?_⟩⟩
    rw [hb] at hb'
    cases hb'
    -- an instruction stands at one place of its block
    have hnodup := (hwf.distinct _ bd hb).2
    have hdisjoint : bd.terminator = some i → i ∉ bd.insts := by
      intro hterm hi
      obtain ⟨d, -, -, -, hiinst, hiterm⟩ := hwf.owned a bd i hb (Or.inr (Or.inl hi))
      have hkind := hiterm.mp hterm
      rw [(hiinst.mp hi).2] at hkind
      cases hkind
    -- a phi, an earlier instruction, or anything before the terminator
    rcases hbefore with ⟨-, hj⟩ | hsub | ⟨hterm, hj⟩
    · exact Or.inl hj
    · have hi : i ∈ bd.insts := hsub.mem (by simp)
      refine Or.inr ⟨hsub.mem List.mem_cons_self, fun hj => ?_⟩
      rcases hnext with hhead | ⟨-, bd', hb', hterm⟩
      · obtain ⟨rest, rfl⟩ := List.head?_eq_some_iff.mp hhead
        rw [hinsts] at hsub hnodup
        -- `j` would stand both before and after `i`
        have hpair := hnodup.sublist hsub
        rcases List.mem_cons.mp hj with rfl | hj
        · simp at hpair
        · rw [List.append_cons] at hsub hnodup
          have hi' := mem_rest_of_sublist hnodup hsub hj
          exact (List.nodup_append.mp hnodup).2.2 i (by simp) i hi' rfl
      · rw [hb] at hb'
        cases hb'
        exact hdisjoint hterm hi
    · rcases hnext with hhead | ⟨rfl, -⟩
      · obtain ⟨rest, rfl⟩ := List.head?_eq_some_iff.mp hhead
        exact absurd (by rw [hinsts]; simp) (hdisjoint hterm)
      · exact hj.imp_right fun hj => ⟨hj, List.not_mem_nil⟩
  -- a strict dominator of the block has run
  · exact ⟨a, ha, Or.inr hstrict⟩

/-- The operands of the next instruction have been computed. -/
theorem WellFormed.computed_next {b : BlockId} {i : InstId} {rest : List InstId} {s : State}
    (hloc : C.Located f fd.entry (.inside b (i :: rest) s)) {d : InstData}
    (hd : C.inst ⟨f, i⟩ = some d) {op : ValueId × OperandSlot} (hop : op ∈ d.kind.valueOperands) :
    C.ComputedValue f fd.entry op.1 (.inside b (i :: rest) s) := by
  obtain ⟨hreach, bd, before, hb, hinsts⟩ := hloc
  have hi : i ∈ bd.insts := by rw [hinsts]; simp
  obtain ⟨d', hd', hparent, -, hiinst, -⟩ := hwf.owned b bd i hb (Or.inr (Or.inl hi))
  rw [hd] at hd'
  cases hd'
  exact (hwf.available i d b hd hparent (hiinst.mp hi).1 op hop).computedValue hwf
    ⟨hreach, bd, before, hb, hinsts⟩ (Or.inl rfl)

/-- The operands of the terminator have been computed at the end of the block. -/
theorem WellFormed.computed_terminator {b : BlockId} {k : InstKind} {s : State}
    (hloc : C.Located f fd.entry (.inside b [] s)) (hterm : C.TerminatorIs f b k)
    {op : ValueId × OperandSlot} (hop : op ∈ k.valueOperands) :
    C.ComputedValue f fd.entry op.1 (.inside b [] s) := by
  obtain ⟨bd, t, d, hb, ht, hd, rfl⟩ := hterm
  obtain ⟨d', hd', hparent, htphi, -, htterm⟩ := hwf.owned b bd t hb (Or.inr (Or.inr ht))
  rw [hd] at hd'
  cases hd'
  have hphi : d.kind.isPhi = false := by
    have hkind := htterm.mp ht
    cases hk : d.kind <;> rw [hk] at hkind <;> first | rfl | cases hkind
  exact (hwf.available t d b hd hparent hphi op hop).computedValue hwf hloc
    (Or.inr ⟨rfl, bd, hb, ht⟩)

/-- The value that a phi takes has been computed when control comes from its block. -/
theorem WellFormed.computed_incoming {p b : BlockId} {s : State} {bd : BlockData} {i : InstId}
    {d : InstData} {incomings : HashMap Nat PhiIncoming} {idx k : Nat} {incoming : PhiIncoming}
    (hb : C.block ⟨f, b⟩ = some bd) (hi : i ∈ bd.phis) (hd : C.inst ⟨f, i⟩ = some d)
    (hk : d.kind = .phi incomings idx) (hin : incomings.lookup k = some incoming)
    (hsource : incoming.block = p) :
    C.ComputedValue f fd.entry incoming.value (.enter (some p) b s) := by
  obtain ⟨d', hd', hparent, -⟩ := hwf.owned b bd i hb (Or.inl hi)
  rw [hd] at hd'
  cases hd'
  subst hsource
  intro j hj
  exact hwf.incoming i d incomings idx hd (Option.isSome_of_eq_some hparent) hk k incoming hin j hj

/-! ## Steps -/

omit hwf in
theorem BranchTo.edge {b thenBlock target : BlockId} {cond : Option CondBranch} {regs : Regs}
    (hterm : C.TerminatorIs f b (.branch thenBlock cond))
    (htarget : C.BranchTo E regs thenBlock target cond) : C.Edge f b target := by
  cases cond with
  | none =>
    cases htarget
    exact ⟨.branchThen, _, hterm, by simp [InstKind.blockOperands]⟩
  | some c =>
    obtain ⟨taken, -, rfl⟩ := htarget
    cases taken
    · exact ⟨.branchElse, _, hterm, by simp [InstKind.blockOperands]⟩
    · exact ⟨.branchThen, _, hterm, by simp [InstKind.blockOperands]⟩

omit hwf in
theorem FlowStep.located {c c' : FlowState} {acts : List Action} (hstep : C.FlowStep E f c acts c')
    (hloc : C.Located f entry c) : C.Located f entry c' := by
  cases hstep with
  | entry hb hphis =>
    rw [show _ = entry from hloc] at hb ⊢
    exact ⟨.refl entry, _, [], hb, rfl⟩
  | phis hb hphis => exact ⟨hloc.1.step hloc.2, _, [], hb, rfl⟩
  | @inst b i rest s s' ev hexec =>
    obtain ⟨hreach, bd, before, hb, hinsts⟩ := hloc
    exact ⟨hreach, bd, before ++ [i], hb, by rw [hinsts, List.append_cons]⟩
  | branch hterm htarget => exact ⟨hloc.1, htarget.edge hterm⟩
  | ret => trivial

omit hwf in
/-- A register changes only when its instruction is executed. -/
theorem Phis.regs_of_notMem {source : BlockId} {regs regs' : Regs} {is : List InstId}
    (h : C.Phis E f source regs is regs') {x : InstRef} (hx : x.func = f → x.inst ∉ is) :
    regs' x = regs x := by
  induction h with
  | nil => rfl
  | @cons i is _ _ _ _ _ _ regs' _ _ _ _ _ _ ih =>
    have hne : x ≠ ⟨f, i⟩ := fun heq => by
      subst heq
      exact hx rfl List.mem_cons_self
    rw [Function.update_of_ne hne]
    exact ih fun hf hmem => hx hf (List.mem_cons_of_mem _ hmem)

/-- What the next instruction computes has not been computed before. -/
theorem WellFormed.not_computed_next {b : BlockId} {i : InstId} {rest : List InstId} {s : State}
    (hloc : C.Located f fd.entry (.inside b (i :: rest) s)) :
    ¬ C.Computed f fd.entry ⟨f, i⟩ (.inside b (i :: rest) s) := by
  obtain ⟨-, bd, before, hb, hinsts⟩ := hloc
  have hi : i ∈ bd.insts := by rw [hinsts]; simp
  have hin := hwf.computedIn hb (Or.inr (Or.inl hi))
  rintro ⟨a, ha, ⟨rfl, bd', hb', hphi | ⟨-, hrest⟩⟩ | ⟨hne, -⟩⟩
  · rw [hb] at hb'
    cases hb'
    obtain ⟨d, -, -, hiphi, hiinst, -⟩ := hwf.owned a bd i hb (Or.inr (Or.inl hi))
    have hkind := hiphi.mp hphi
    rw [(hiinst.mp hi).1] at hkind
    cases hkind
  · exact hrest List.mem_cons_self
  · exact hne (ha.unique hin)

omit hwf in
/-- An instruction adds itself to what has been computed. -/
theorem Computed.of_inst {b : BlockId} {i : InstId} {rest : List InstId} {s s' : State} {x : InstRef}
    (hx : C.Computed f entry x (.inside b rest s')) :
    x = ⟨f, i⟩ ∨ C.Computed f entry x (.inside b (i :: rest) s) := by
  obtain ⟨a, ha, ⟨rfl, bd, hb, hmem⟩ | hstrict⟩ := hx
  · by_cases hxi : x.inst = i
    · obtain ⟨_, j⟩ := x
      cases ha.1
      exact Or.inl (by rw [show j = i from hxi])
    · refine Or.inr ⟨a, ha, Or.inl ⟨rfl, bd, hb, hmem.imp_right fun ⟨hin, hrest⟩ => ⟨hin, ?_⟩⟩⟩
      exact fun hcons => (List.mem_cons.mp hcons).elim hxi hrest
  · exact Or.inr ⟨a, ha, Or.inr hstrict⟩

/-- The registers that a computed pure instruction depends on, and its own, are kept by a step. -/
theorem WellFormed.settled_of_regs {c c' : FlowState} (hloc : C.Located f fd.entry c)
    (hs : C.Settled f fd.entry E c) {x : InstRef} {d : InstData} (hd : C.inst x = some d)
    (hpure : d.kind.isPure = true) (hx : C.Computed f fd.entry x c)
    (hregs : ∀ y, C.Computed f fd.entry y c → (y = x ∨ ∃ slot, (.inst y, slot) ∈ d.kind.valueOperands) →
      c'.regs y = c.regs y) :
    ∃ v, c'.regs x = some v ∧ evalPure E d.ty d.kind (C.evalOperand E c'.regs) = some v := by
  obtain ⟨v, hv, heval⟩ := hs x d hd hpure hx
  refine ⟨v, (hregs x hx (Or.inl rfl)).trans hv, ?_⟩
  rw [← heval]
  refine evalPure_congr fun op hop => ?_
  obtain ⟨w, slot⟩ := op
  cases w with
  | inst y =>
    exact hregs y (hwf.computed_operand hloc hd (InstKind.isPhi_of_isPure hpure) hx hop y rfl)
      (Or.inr ⟨slot, hop⟩)
  | _ => rfl

omit hwf in
theorem Exec.of_isPure {s s' : State} {r : InstRef} {ev : List Event} {d : InstData}
    (h : C.Exec E s r ev s') (hd : C.inst r = some d) (hpure : d.kind.isPure = true) :
    ∃ v, evalPure E d.ty d.kind (C.evalOperand E s.regs) = some v ∧ ev = [] ∧ s' = s.set r v := by
  cases h with
  | pure hd' hv =>
    rw [hd] at hd'
    cases hd'
    exact ⟨_, hv, rfl, rfl⟩
  | alloca hd' hk | load hd' hk | store hd' hk | call hd' hk =>
    rw [hd] at hd'
    cases hd'
    rw [hk] at hpure
    cases hpure

theorem WellFormed.settled_step {c c' : FlowState} {acts : List Action}
    (hloc : C.Located f fd.entry c) (hs : C.Settled f fd.entry E c)
    (hstep : C.FlowStep E f c acts c') : C.Settled f fd.entry E c' := by
  intro x d hd hpure hx
  have hphi := InstKind.isPhi_of_isPure hpure
  cases hstep with
  -- nothing is computed before the entry block
  | entry hb hphis =>
    exfalso
    obtain ⟨a, ha, ⟨rfl, bd', hb', hmem⟩ | ⟨hne, hdom⟩⟩ := hx
    · rw [hb] at hb'
      cases hb'
      rw [hphis] at hmem
      rcases hmem with hmem | ⟨hmem, hnot⟩
      · cases hmem
      · exact hnot hmem
    · rw [show _ = fd.entry from hloc] at hne hdom
      exact hne hdom.eq_root
  -- on an edge the phis are written, and nothing else
  | @phis source b bd s regs hb hphis =>
    obtain ⟨hreach, hedge⟩ := hloc
    have hstrict : ∃ a, C.ComputedIn f x a ∧ a ≠ b ∧ Flow.Dominates (C.Edge f) fd.entry a b := by
      obtain ⟨a, ha, ⟨rfl, bd', hb', hmem⟩ | ⟨hne, hdom⟩⟩ := hx
      · rw [hb] at hb'
        cases hb'
        obtain ⟨_, i⟩ := x
        cases ha.1
        rcases hmem with hmem | ⟨hmem, hnot⟩
        · obtain ⟨d', hd', -, hiphi, -⟩ := hwf.owned a bd i hb (Or.inl hmem)
          rw [hd] at hd'
          cases hd'
          rw [hiphi.mp hmem] at hphi
          cases hphi
        · exact absurd hmem hnot
      · exact ⟨a, ha, hne, hdom⟩
    -- its block strictly dominates this one
    obtain ⟨a, ha, hne, hdom⟩ := hstrict
    -- neither the instruction nor its operands are phis of the block
    have hkept : ∀ y a', C.ComputedIn f y a' → a' ≠ b → regs y = s.regs y := by
      intro y a' ha' hne'
      refine hphis.regs_of_notMem fun hfunc hmem => hne' ?_
      obtain ⟨_, j⟩ := y
      cases hfunc
      exact ha'.unique (hwf.computedIn hb (Or.inl hmem))
    have hbefore : C.Computed f fd.entry x (.enter (some source) b s) :=
      ⟨a, ha, hdom.pred hne hedge⟩
    have hloc : C.Located f fd.entry (.enter (some source) b s) := ⟨hreach, hedge⟩
    refine hwf.settled_of_regs hloc hs hd hpure hbefore ?_
    rintro y - (rfl | ⟨slot, hop⟩)
    · exact hkept y a ha hne
    · obtain ⟨a', ha', hne', -⟩ :=
        (hwf.availableAt hd ha hphi hop).strict hne hdom (hreach.step hedge)
      exact hkept y a' ha' hne'
  -- an instruction: either it is `x` itself, or `x` was settled before
  | @inst b i rest s s' ev hexec =>
    have hfresh := hwf.not_computed_next hloc
    rcases Computed.of_inst (i := i) (s := s) hx with rfl | hbefore
    · obtain ⟨v, hv, -, rfl⟩ := hexec.of_isPure hd hpure
      refine ⟨v, Function.update_self _ _ _, ?_⟩
      rw [← hv]
      refine evalPure_congr fun op hop => ?_
      refine hexec.evalOperand_of_ne fun heq => hfresh ?_
      exact hwf.computed_next hloc hd hop _ heq
    · refine hwf.settled_of_regs hloc hs hd hpure hbefore fun y hy _ => ?_
      exact hexec.regs_of_ne fun heq => hfresh (heq ▸ hy)
  -- the terminator writes nothing
  | @branch b thenBlock target cond s hterm htarget =>
    refine hs x d hd hpure ?_
    obtain ⟨a, ha, hdom⟩ := hx
    by_cases hab : a = b
    · subst hab
      obtain ⟨bd, hb, hmem⟩ := hwf.inst_mem hd ha hphi (InstKind.isTerminator_of_isPure hpure)
      exact ⟨a, ha, Or.inl ⟨rfl, bd, hb, Or.inr ⟨hmem, List.not_mem_nil⟩⟩⟩
    · exact ⟨a, ha, Or.inr ⟨hab, hdom⟩⟩
  -- nothing is claimed of a state that has returned
  | ret => exact hx.elim

/-- Every run from the entry stays in standing states. -/
theorem WellFormed.standing_step {c c' : FlowState} {acts : List Action}
    (h : C.Standing f fd.entry E c) (hstep : C.FlowStep E f c acts c') :
    C.Standing f fd.entry E c' :=
  ⟨hstep.located h.located, hwf.settled_step h.located h.settled hstep⟩

omit hwf in
theorem standing_enter (s : State) : C.Standing f entry E (.enter none entry s) :=
  ⟨rfl, fun _ _ _ _ hx => hx.elim⟩

end

end Code

end Ir
