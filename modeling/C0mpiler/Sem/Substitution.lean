import C0mpiler.Sem.Ssa
import Mathlib

/-!
# Substituting values and dropping instructions

A pass that finds values known under another name replaces the operands of a function by a
substitution and drops pure instructions that nothing uses any more (`withoutInsts`). When, in every
standing state, what the substitution makes of a computed value has the same value
(`Substitutes`), the function shows the same behaviour afterwards: the same calls with the same
memories, the same blocks and the same result (`Substitutes.behavesAs`).
-/

namespace Ir

/-- What is seen of a state from outside: the registers and the rest of a block are not. -/
inductive Observed where
  | enter (source : Option BlockId) (block : BlockId) (mem : Mem)
  | inside (block : BlockId) (mem : Mem)
  | returned (value : Option Val) (mem : Mem)

def FlowState.seen : FlowState → Observed
  | .enter source b s => .enter source b s.mem
  | .inside b _ s => .inside b s.mem
  | .returned value M => .returned value M

namespace Code

/-- The code without some instructions, which are taken out of their blocks and dropped. -/
def withoutInsts (C : Code) (erased : List InstRef) : Code :=
  { C with
    inst := fun r => if r ∈ erased then none else C.inst r
    block := fun b => (C.block b).map fun d =>
      { d with insts := d.insts.filter fun i => (⟨b.func, i⟩ : InstRef) ∉ erased } }

/-- A step and the calls it makes. -/
def EventStep (C : Code) (E : Env) (f : FunctionId) (c : FlowState) (evs : List Event)
    (c' : FlowState) : Prop :=
  ∃ acts, C.FlowStep E f c acts c' ∧ acts.flatMap Action.events = evs

/-- A run from `c` that makes the calls `evs` and comes to a state seen as `o`. -/
def RunsTo (C : Code) (E : Env) (f : FunctionId) (c : FlowState) (evs : List Event) (o : Observed) : Prop :=
  ∃ c', Flow.Labelled (C.EventStep E f) c evs c' ∧ c'.seen = o

/-- Both codes of the function show the same, whatever memory they start in and whatever the
functions do that they call. -/
def BehavesAs (C T : Code) (f : FunctionId) (entry : BlockId) : Prop :=
  ∀ E s evs o, C.RunsTo E f (.enter none entry s) evs o ↔ T.RunsTo E f (.enter none entry s) evs o

theorem BehavesAs.refl (C : Code) (f : FunctionId) (entry : BlockId) :
    C.BehavesAs C f entry := fun _ _ _ _ => Iff.rfl

theorem BehavesAs.trans {C C' C'' : Code} {f : FunctionId} {entry : BlockId}
    (h : C.BehavesAs C' f entry) (h' : C'.BehavesAs C'' f entry) :
    C.BehavesAs C'' f entry := fun E s evs o => (h E s evs o).trans (h' E s evs o)

/-- No inserted instruction has `r` as an operand. -/
def Unread (C : Code) (r : InstRef) : Prop :=
  ∀ u d, C.inst u = some d → d.parent.isSome → ∀ op ∈ d.kind.valueOperands, op.1 ≠ .inst r

/-- `σ` renames values of the function to equal ones, and the instructions `erased` only compute
values that nothing reads afterwards. -/
structure Substitutes (C : Code) (f : FunctionId) (entry : BlockId) (σ : ValueId → ValueId)
    (erased : List InstRef) : Prop where
  pure : ∀ r ∈ erased, ∃ d, C.inst r = some d ∧ d.kind.isPure = true
  unread : ∀ r ∈ erased, ((C.mapOperands σ).withoutInsts erased).Unread r
  types : ∀ v, C.operandTy (σ v) = C.operandTy v
  values : ∀ E c v, C.Standing f entry E c → C.ComputedValue f entry v c →
    C.evalOperand E c.regs (σ v) = C.evalOperand E c.regs v
  progress : ∀ E b i rest s, C.Standing f entry E (.inside b (i :: rest) s) → ⟨f, i⟩ ∈ erased →
    ∃ d v, C.inst ⟨f, i⟩ = some d ∧ evalPure E d.ty d.kind (C.evalOperand E s.regs) = some v

/-- The registers agree, those of the erased instructions apart. -/
structure StateMatches (erased : List InstRef) (s t : State) : Prop where
  mem : t.mem = s.mem
  regs : ∀ r, r ∉ erased → t.regs r = s.regs r

/-- A phi takes `v` when control comes from `source`. -/
def PhiTakes (C : Code) (E : Env) (f : FunctionId) (source : BlockId) (regs : Regs) (i : InstId)
    (v : Val) : Prop :=
  ∃ d incomings idx k incoming, C.inst ⟨f, i⟩ = some d ∧ d.kind = .phi incomings idx ∧
    incomings.lookup k = some incoming ∧ incoming.block = source ∧
    C.evalOperand E regs incoming.value = some v

theorem phis_cons_iff {C : Code} {E : Env} {f : FunctionId} {source : BlockId} {regs regs' : Regs}
    {i : InstId} {is : List InstId} : C.Phis E f source regs (i :: is) regs' ↔
      ∃ v next, C.Phis E f source regs is next ∧ C.PhiTakes E f source regs i v ∧
        regs' = Function.update next ⟨f, i⟩ (some v) := by
  constructor
  · intro h
    cases h with
    | cons hrest hd hk hin hsource hv =>
      exact ⟨_, _, hrest, ⟨_, _, _, _, _, hd, hk, hin, hsource, hv⟩, rfl⟩
  · rintro ⟨v, next, hrest, ⟨d, incomings, idx, k, incoming, hd, hk, hin, hsource, hv⟩, rfl⟩
    exact .cons hrest hd hk hin hsource hv

theorem sameRegs_update {erased : List InstRef} {regs regs' : Regs}
    (h : ∀ r, r ∉ erased → regs r = regs' r) (x : InstRef) (v : Option Val) (r : InstRef)
    (hr : r ∉ erased) : Function.update regs x v r = Function.update regs' x v r := by
  by_cases hx : r = x
  · rw [hx, Function.update_self, Function.update_self]
  · rw [Function.update_of_ne hx, Function.update_of_ne hx, h r hr]

theorem StateMatches.write {erased : List InstRef} {s t : State} (h : StateMatches erased s t)
    (r : InstRef) (res : Option Val) (M : Mem) :
    StateMatches erased (s.write r res M) (t.write r res M) := by
  cases res with
  | none => exact ⟨rfl, h.regs⟩
  | some v => exact ⟨rfl, sameRegs_update h.regs r (some v)⟩

/-- How a state of the function and one of the function without the erased instructions match. -/
inductive FlowMatches (f : FunctionId) (erased : List InstRef) : FlowState → FlowState → Prop
  | enter {source : Option BlockId} {b : BlockId} {s t : State} (h : StateMatches erased s t) :
      FlowMatches f erased (.enter source b s) (.enter source b t)
  | inside {b : BlockId} {rest : List InstId} {s t : State} (h : StateMatches erased s t) :
      FlowMatches f erased (.inside b rest s)
        (.inside b (rest.filter fun i => (⟨f, i⟩ : InstRef) ∉ erased) t)
  | returned (value : Option Val) (M : Mem) :
      FlowMatches f erased (.returned value M) (.returned value M)

theorem FlowMatches.seen {f : FunctionId} {erased : List InstRef} {c c' : FlowState}
    (h : FlowMatches f erased c c') : c'.seen = c.seen := by
  cases h with
  | enter h => exact congrArg (Observed.enter _ _) h.mem
  | inside h => exact congrArg (Observed.inside _) h.mem
  | returned => rfl

section

variable {C : Code} {f : FunctionId} {fd : FunctionData} {E : Env} {σ : ValueId → ValueId}
  {erased : List InstRef}

theorem withoutInsts_inst {r : InstRef} (hr : r ∉ erased) :
    (C.withoutInsts erased).inst r = C.inst r := if_neg hr

/-- An inserted instruction that stays has its operands renamed. -/
theorem inst_substituted {r : InstRef} {d : InstData} (hd : C.inst r = some d)
    (hparent : d.parent.isSome) (hr : r ∉ erased) :
    ((C.mapOperands σ).withoutInsts erased).inst r =
      some { d with kind := d.kind.mapOperands σ } := by
  rw [withoutInsts_inst hr, mapOperands_inst, hd, Option.map_some, if_pos hparent]

variable (h : C.Substitutes f fd.entry σ erased) (hwf : C.WellFormed f fd)
include h

/-- What an instruction that stays reads is not erased. -/
theorem Substitutes.notMem_of_operand {r : InstRef} {d : InstData} (hd : C.inst r = some d)
    (hparent : d.parent.isSome) (hr : r ∉ erased) {op : ValueId × OperandSlot}
    (hop : op ∈ d.kind.valueOperands) {x : InstRef} (hx : σ op.1 = .inst x) : x ∉ erased := by
  intro hmem
  refine h.unread x hmem r _ (inst_substituted hd hparent hr) hparent (σ op.1, op.2) ?_ hx
  rw [InstKind.valueOperands_mapOperands]
  exact List.mem_map.mpr ⟨op, hop, rfl⟩

/-- The renamed operand of an instruction that stays has the value of the operand. -/
theorem Substitutes.evalOperand {c : FlowState} (hstanding : C.Standing f fd.entry E c)
    {r : InstRef} {d : InstData} (hd : C.inst r = some d) (hparent : d.parent.isSome)
    (hr : r ∉ erased) {op : ValueId × OperandSlot} (hop : op ∈ d.kind.valueOperands)
    (hcomputed : C.ComputedValue f fd.entry op.1 c) {regs : Regs}
    (hregs : ∀ r, r ∉ erased → regs r = c.regs r) :
    ((C.mapOperands σ).withoutInsts erased).evalOperand E regs (σ op.1) =
      C.evalOperand E c.regs op.1 := by
  rw [← h.values E c op.1 hstanding hcomputed]
  have hkept := fun x => h.notMem_of_operand hd hparent hr hop (x := x)
  cases hv : σ op.1 with
  | inst x => exact hregs x (hkept x hv)
  | _ => rfl

theorem Substitutes.operandTy {r : InstRef} {d : InstData} (hd : C.inst r = some d)
    (hparent : d.parent.isSome) (hr : r ∉ erased) {op : ValueId × OperandSlot}
    (hop : op ∈ d.kind.valueOperands) :
    ((C.mapOperands σ).withoutInsts erased).operandTy (σ op.1) = C.operandTy op.1 := by
  rw [← h.types op.1, ← congrFun (operandTy_mapOperands C σ) (σ op.1)]
  have hkept := fun x => h.notMem_of_operand hd hparent hr hop (x := x)
  cases hv : σ op.1 with
  | inst x =>
    show Option.map InstData.ty _ = Option.map InstData.ty _
    rw [withoutInsts_inst (hkept x hv)]
  | _ => rfl

include hwf

/-- An instruction that stays does the same in matching states. -/
theorem Substitutes.effect_iff {b : BlockId} {i : InstId} {rest : List InstId} {s t : State}
    (hstanding : C.Standing f fd.entry E (.inside b (i :: rest) s)) (hst : StateMatches erased s t)
    (hi : ⟨f, i⟩ ∉ erased) {d : InstData} (hd : C.inst ⟨f, i⟩ = some d) (hparent : d.parent.isSome)
    {ev : List Event} {res : Option Val} {M : Mem} :
    Effect E d.ty (((C.mapOperands σ).withoutInsts erased).evalOperand E t.regs)
        ((C.mapOperands σ).withoutInsts erased).operandTy t.mem (d.kind.mapOperands σ) ev res M ↔
      Effect E d.ty (C.evalOperand E s.regs) C.operandTy s.mem d.kind ev res M := by
  rw [effect_mapOperands, hst.mem]
  have hval : ∀ op ∈ d.kind.valueOperands,
      ((C.mapOperands σ).withoutInsts erased).evalOperand E t.regs (σ op.1) =
        C.evalOperand E s.regs op.1 := fun op hop =>
    h.evalOperand hstanding hd hparent hi hop (hwf.computed_next hstanding.located hd hop) hst.regs
  have hty : ∀ op ∈ d.kind.valueOperands,
      ((C.mapOperands σ).withoutInsts erased).operandTy (σ op.1) = C.operandTy op.1 :=
    fun op hop => h.operandTy hd hparent hi hop
  exact ⟨fun he => he.congr hval hty, fun he => he.congr (fun op hop => (hval op hop).symm)
    fun op hop => (hty op hop).symm⟩

theorem Substitutes.exec_right {b : BlockId} {i : InstId} {rest : List InstId} {s s' t : State}
    (hstanding : C.Standing f fd.entry E (.inside b (i :: rest) s)) (hst : StateMatches erased s t)
    (hi : ⟨f, i⟩ ∉ erased) (hparent : ∀ d, C.inst ⟨f, i⟩ = some d → d.parent.isSome)
    {ev : List Event} (hexec : C.Exec E s ⟨f, i⟩ ev s') :
    ∃ t', ((C.mapOperands σ).withoutInsts erased).Exec E t ⟨f, i⟩ ev t' ∧
      StateMatches erased s' t' := by
  obtain ⟨d, res, M, hd, heffect, rfl⟩ := exec_iff.mp hexec
  exact ⟨_, exec_iff.mpr ⟨_, res, M, inst_substituted hd (hparent d hd) hi,
    (h.effect_iff hwf hstanding hst hi hd (hparent d hd)).mpr heffect, rfl⟩, hst.write _ res M⟩

theorem Substitutes.exec_left {b : BlockId} {i : InstId} {rest : List InstId} {s t t' : State}
    (hstanding : C.Standing f fd.entry E (.inside b (i :: rest) s)) (hst : StateMatches erased s t)
    (hi : ⟨f, i⟩ ∉ erased) {d : InstData} (hd : C.inst ⟨f, i⟩ = some d) (hparent : d.parent.isSome)
    {ev : List Event} (hexec : ((C.mapOperands σ).withoutInsts erased).Exec E t ⟨f, i⟩ ev t') :
    ∃ s', C.Exec E s ⟨f, i⟩ ev s' ∧ StateMatches erased s' t' := by
  obtain ⟨d', res, M, hd', heffect, rfl⟩ := exec_iff.mp hexec
  rw [inst_substituted hd hparent hi] at hd'
  cases hd'
  exact ⟨_, exec_iff.mpr ⟨d, res, M, hd,
    (h.effect_iff hwf hstanding hst hi hd hparent).mp heffect, rfl⟩, hst.write _ res M⟩

/-- A phi is not erased. -/
theorem Substitutes.phi_stays {b : BlockId} {bd : BlockData} {i : InstId}
    (hb : C.block ⟨f, b⟩ = some bd) (hi : i ∈ bd.phis) : (⟨f, i⟩ : InstRef) ∉ erased := by
  intro hmem
  obtain ⟨d, hd, hpure⟩ := h.pure _ hmem
  obtain ⟨d', hd', -, hphi, -⟩ := hwf.owned b bd i hb (Or.inl hi)
  rw [hd] at hd'
  cases hd'
  have hkind := hphi.mp hi
  rw [InstKind.isPhi_of_isPure hpure] at hkind
  cases hkind

theorem Substitutes.terminator_stays {b : BlockId} {bd : BlockData} {i : InstId}
    (hb : C.block ⟨f, b⟩ = some bd) (hi : bd.terminator = some i) : (⟨f, i⟩ : InstRef) ∉ erased := by
  intro hmem
  obtain ⟨d, hd, hpure⟩ := h.pure _ hmem
  obtain ⟨d', hd', -, -, -, hterm⟩ := hwf.owned b bd i hb (Or.inr (Or.inr hi))
  rw [hd] at hd'
  cases hd'
  have hkind := hterm.mp hi
  rw [InstKind.isTerminator_of_isPure hpure] at hkind
  cases hkind

/-- A phi takes the same value in matching states. -/
theorem Substitutes.phiTakes_iff {source b : BlockId} {bd : BlockData} {s : State} {regs : Regs}
    (hstanding : C.Standing f fd.entry E (.enter (some source) b s))
    (hb : C.block ⟨f, b⟩ = some bd) (hregs : ∀ r, r ∉ erased → regs r = s.regs r)
    {i : InstId} (hi : i ∈ bd.phis) {v : Val} :
    ((C.mapOperands σ).withoutInsts erased).PhiTakes E f source regs i v ↔
      C.PhiTakes E f source s.regs i v := by
  obtain ⟨d, hd, hparent, -⟩ := hwf.owned b bd i hb (Or.inl hi)
  have hstays := h.phi_stays hwf hb hi
  have hparent := Option.isSome_of_eq_some hparent
  have hinst := inst_substituted (σ := σ) hd hparent hstays
  have heval : ∀ {incomings idx k incoming}, d.kind = .phi incomings idx →
      incomings.lookup k = some incoming → incoming.block = source →
      ((C.mapOperands σ).withoutInsts erased).evalOperand E regs (σ incoming.value) =
        C.evalOperand E s.regs incoming.value := by
    intro incomings idx k incoming hk hin hsource
    have hop : (incoming.value, OperandSlot.phiIncomingVal k) ∈ d.kind.valueOperands := by
      rw [hk]
      exact List.mem_map.mpr ⟨⟨k, incoming⟩, AList.mem_lookup_iff.mp hin, rfl⟩
    exact h.evalOperand hstanding hd hparent hstays hop
      (hwf.computed_incoming hb hi hd hk hin hsource) hregs
  constructor
  -- from the substituted phi to the old one
  · rintro ⟨d', incomings', idx, k, incoming', hd', hk', hin', hsource, hv⟩
    rw [hinst] at hd'
    cases hd'
    cases hk : d.kind with
    | phi incomings _ =>
      rw [hk] at hk'
      cases hk'
      rw [HashMap.lookup_mapVal] at hin'
      obtain ⟨incoming, hin, rfl⟩ := Option.map_eq_some_iff.mp hin'
      exact ⟨d, incomings, idx, k, incoming, hd, hk, hin, hsource,
        (heval hk hin hsource).symm.trans hv⟩
    | _ =>
      rw [hk] at hk'
      cases hk'
  -- and back
  · rintro ⟨d', incomings, idx, k, incoming, hd', hk, hin, hsource, hv⟩
    rw [hd] at hd'
    cases hd'
    refine ⟨_, incomings.mapVal fun p => { p with value := σ p.value }, idx, k,
      { incoming with value := σ incoming.value }, hinst, by rw [hk]; rfl, ?_, hsource,
      (heval hk hin hsource).trans hv⟩
    rw [HashMap.lookup_mapVal, hin, Option.map_some]

theorem Substitutes.phis_right {source b : BlockId} {bd : BlockData} {s : State} {regs regs' : Regs}
    (hstanding : C.Standing f fd.entry E (.enter (some source) b s))
    (hb : C.block ⟨f, b⟩ = some bd) (hregs : ∀ r, r ∉ erased → regs r = s.regs r)
    {is : List InstId} (his : ∀ i ∈ is, i ∈ bd.phis) (hphis : C.Phis E f source s.regs is regs') :
    ∃ regs'', ((C.mapOperands σ).withoutInsts erased).Phis E f source regs is regs'' ∧
      ∀ r, r ∉ erased → regs'' r = regs' r := by
  induction is generalizing regs' with
  | nil =>
    cases hphis
    exact ⟨regs, .nil, hregs⟩
  | cons i is ih =>
    obtain ⟨v, next, hrest, htakes, rfl⟩ := phis_cons_iff.mp hphis
    obtain ⟨next', hrest', hsame⟩ := ih (fun j hj => his j (List.mem_cons_of_mem _ hj)) hrest
    have htakes' := (h.phiTakes_iff hwf hstanding hb hregs (his i List.mem_cons_self)).mpr htakes
    exact ⟨_, phis_cons_iff.mpr ⟨v, next', hrest', htakes', rfl⟩, sameRegs_update hsame _ _⟩

theorem Substitutes.phis_left {source b : BlockId} {bd : BlockData} {s : State} {regs regs' : Regs}
    (hstanding : C.Standing f fd.entry E (.enter (some source) b s))
    (hb : C.block ⟨f, b⟩ = some bd) (hregs : ∀ r, r ∉ erased → regs r = s.regs r)
    {is : List InstId} (his : ∀ i ∈ is, i ∈ bd.phis)
    (hphis : ((C.mapOperands σ).withoutInsts erased).Phis E f source regs is regs') :
    ∃ regs'', C.Phis E f source s.regs is regs'' ∧ ∀ r, r ∉ erased → regs' r = regs'' r := by
  induction is generalizing regs' with
  | nil =>
    cases hphis
    exact ⟨s.regs, .nil, hregs⟩
  | cons i is ih =>
    obtain ⟨v, next, hrest, htakes, rfl⟩ := phis_cons_iff.mp hphis
    obtain ⟨next', hrest', hsame⟩ := ih (fun j hj => his j (List.mem_cons_of_mem _ hj)) hrest
    have htakes' := (h.phiTakes_iff hwf hstanding hb hregs (his i List.mem_cons_self)).mp htakes
    exact ⟨_, phis_cons_iff.mpr ⟨v, next', hrest', htakes', rfl⟩, sameRegs_update hsame _ _⟩

/-! ## Terminators -/

omit h hwf in
theorem withoutInsts_block {b : BlockId} {bd : BlockData} (hb : C.block ⟨f, b⟩ = some bd) :
    ((C.mapOperands σ).withoutInsts erased).block ⟨f, b⟩ =
      some { bd with insts := bd.insts.filter fun i => (⟨f, i⟩ : InstRef) ∉ erased } := by
  show (C.block ⟨f, b⟩).map _ = _
  rw [hb, Option.map_some]

theorem Substitutes.terminatorIs_right {b : BlockId} {k : InstKind} (hterm : C.TerminatorIs f b k) :
    ((C.mapOperands σ).withoutInsts erased).TerminatorIs f b (k.mapOperands σ) := by
  obtain ⟨bd, t, d, hb, ht, hd, rfl⟩ := hterm
  obtain ⟨d', hd', hparent, -⟩ := hwf.owned b bd t hb (Or.inr (Or.inr ht))
  rw [hd] at hd'
  cases hd'
  exact ⟨_, t, _, withoutInsts_block hb, ht, inst_substituted hd (Option.isSome_of_eq_some hparent)
    (h.terminator_stays hwf hb ht), rfl⟩

theorem Substitutes.terminatorIs_left {b : BlockId} {k' : InstKind}
    (hterm : ((C.mapOperands σ).withoutInsts erased).TerminatorIs f b k') :
    ∃ k, C.TerminatorIs f b k ∧ k' = k.mapOperands σ := by
  obtain ⟨bd', t, d', hb', ht, hd', rfl⟩ := hterm
  obtain ⟨bd, hb, rfl⟩ := Option.map_eq_some_iff.mp hb'
  obtain ⟨d, hd, hparent, -⟩ := hwf.owned b bd t hb (Or.inr (Or.inr ht))
  rw [inst_substituted hd (Option.isSome_of_eq_some hparent) (h.terminator_stays hwf hb ht)] at hd'
  cases hd'
  exact ⟨d.kind, ⟨bd, t, d, hb, ht, hd, rfl⟩, rfl⟩

/-- What the terminator reads has the same value in matching states. -/
theorem Substitutes.evalOperand_terminator {b : BlockId} {s : State} {k : InstKind} {regs : Regs}
    (hstanding : C.Standing f fd.entry E (.inside b [] s)) (hterm : C.TerminatorIs f b k)
    (hregs : ∀ r, r ∉ erased → regs r = s.regs r) {op : ValueId × OperandSlot}
    (hop : op ∈ k.valueOperands) :
    ((C.mapOperands σ).withoutInsts erased).evalOperand E regs (σ op.1) =
      C.evalOperand E s.regs op.1 := by
  have hcomputed := hwf.computed_terminator hstanding.located hterm hop
  obtain ⟨bd, t, d, hb, ht, hd, rfl⟩ := hterm
  obtain ⟨d', hd', hparent, -⟩ := hwf.owned b bd t hb (Or.inr (Or.inr ht))
  rw [hd] at hd'
  cases hd'
  exact h.evalOperand hstanding hd (Option.isSome_of_eq_some hparent) (h.terminator_stays hwf hb ht)
    hop hcomputed hregs

theorem Substitutes.branchTo_iff {b thenBlock target : BlockId} {cond : Option CondBranch}
    {s : State} {regs : Regs} (hstanding : C.Standing f fd.entry E (.inside b [] s))
    (hterm : C.TerminatorIs f b (.branch thenBlock cond))
    (hregs : ∀ r, r ∉ erased → regs r = s.regs r) :
    ((C.mapOperands σ).withoutInsts erased).BranchTo E regs thenBlock target
        (cond.map fun c => { c with cond := σ c.cond }) ↔
      C.BranchTo E s.regs thenBlock target cond := by
  cases cond with
  | none => exact Iff.rfl
  | some c =>
    have heval := h.evalOperand_terminator hwf hstanding hterm hregs
      (show (c.cond, OperandSlot.branchCond) ∈ _ from List.mem_singleton_self _)
    show (∃ taken, _ = _ ∧ _) ↔ ∃ taken, _ = _ ∧ _
    simp only [heval]

theorem Substitutes.evalReturn_eq {b : BlockId} {value : Option ValueId} {s : State} {regs : Regs}
    (hstanding : C.Standing f fd.entry E (.inside b [] s)) (hterm : C.TerminatorIs f b (.ret value))
    (hregs : ∀ r, r ∉ erased → regs r = s.regs r) :
    ((C.mapOperands σ).withoutInsts erased).evalReturn E regs (value.map σ) =
      C.evalReturn E s.regs value := by
  cases value with
  | none => rfl
  | some v =>
    have heval := h.evalOperand_terminator hwf hstanding hterm hregs
      (show (v, OperandSlot.retVal) ∈ _ from List.mem_singleton_self _)
    exact congrArg (Option.map some) heval

/-! ## Runs -/

/-- A step of the function is a run of the function with the substitution, which may be empty. -/
theorem Substitutes.flow_right {c c' t : FlowState} {evs : List Event}
    (hstanding : C.Standing f fd.entry E c) (hmatch : FlowMatches f erased c t)
    (hstep : C.EventStep E f c evs c') :
    ∃ t', Flow.Labelled (((C.mapOperands σ).withoutInsts erased).EventStep E f) t evs t' ∧
      FlowMatches f erased c' t' := by
  obtain ⟨acts, hstep, rfl⟩ := hstep
  cases hstep with
  -- the entry
  | entry hb hphis =>
    cases hmatch with
    | enter hst =>
      exact ⟨_, .single ⟨[], .entry (withoutInsts_block hb) hphis, rfl⟩, .inside hst⟩
  -- the phis of a block
  | @phis source b bd s regs hb hphis =>
    cases hmatch with
    | enter hst =>
      obtain ⟨regs', hphis', hsame⟩ :=
        h.phis_right hwf hstanding hb hst.regs (fun _ hi => hi) hphis
      exact ⟨_, .single ⟨[], .phis (withoutInsts_block hb) hphis', rfl⟩, .inside ⟨hst.mem, hsame⟩⟩
  -- an instruction is executed by both, or skipped by the new code
  | @inst b i rest s s' ev hexec =>
    cases hmatch with
    | @inside _ _ _ t hst =>
      by_cases hi : (⟨f, i⟩ : InstRef) ∈ erased
      · obtain ⟨d, v, hd, hv⟩ := h.progress E b i rest s hstanding hi
        obtain ⟨rfl, rfl⟩ := hexec.pure_inv hd hv
        rw [List.filter_cons_of_neg (by simpa using hi)]
        refine ⟨_, .refl _, .inside ⟨hst.mem, fun r hr => ?_⟩⟩
        exact (hst.regs r hr).trans (Function.update_of_ne (ne_of_mem_of_not_mem hi hr).symm _ _).symm
      · obtain ⟨-, bd, before, hb, hinsts⟩ := hstanding.located
        obtain ⟨d, hd, hparent, -⟩ := hwf.owned b bd i hb (Or.inr (Or.inl (by rw [hinsts]; simp)))
        obtain ⟨t', hexec', hst'⟩ := h.exec_right hwf hstanding hst hi
          (fun d' hd' => by
            rw [hd] at hd'
            cases hd'
            exact Option.isSome_of_eq_some hparent) hexec
        rw [List.filter_cons_of_pos (by simpa using hi)]
        exact ⟨_, .single ⟨_, .inst hexec', rfl⟩, .inside hst'⟩
  -- a branch
  | branch hterm htarget =>
    cases hmatch with
    | inside hst =>
      exact ⟨_, .single ⟨[], .branch (h.terminatorIs_right hwf hterm)
        ((h.branchTo_iff hwf hstanding hterm hst.regs).mpr htarget), rfl⟩, .enter hst⟩
  -- a return
  | @ret b value result s hterm hresult =>
    cases hmatch with
    | @inside _ _ _ t hst =>
      have hresult' := (h.evalReturn_eq hwf hstanding hterm hst.regs).trans hresult
      refine ⟨_, .single ⟨[], .ret (h.terminatorIs_right hwf hterm) hresult', rfl⟩, ?_⟩
      rw [hst.mem]
      exact .returned result s.mem

/-- The function executes the erased instructions that come next. -/
theorem Substitutes.skip {b : BlockId} {rest : List InstId} {s t : State}
    (hstanding : C.Standing f fd.entry E (.inside b rest s)) (hst : StateMatches erased s t) :
    ∃ rest' s', Flow.Labelled (C.EventStep E f) (.inside b rest s) [] (.inside b rest' s') ∧
      C.Standing f fd.entry E (.inside b rest' s') ∧ StateMatches erased s' t ∧
      (rest'.filter fun i => (⟨f, i⟩ : InstRef) ∉ erased) =
        (rest.filter fun i => (⟨f, i⟩ : InstRef) ∉ erased) ∧
      ∀ i ∈ rest'.head?, (⟨f, i⟩ : InstRef) ∉ erased := by
  induction rest generalizing s with
  | nil => exact ⟨[], s, .refl _, hstanding, hst, rfl, fun i hi => by cases hi⟩
  | cons i rest ih =>
    by_cases hi : (⟨f, i⟩ : InstRef) ∈ erased
    · obtain ⟨d, v, hd, hv⟩ := h.progress E b i rest s hstanding hi
      have hstep : C.FlowStep E f (.inside b (i :: rest) s) _ (.inside b rest _) :=
        .inst (.pure hd hv)
      have hst' : StateMatches erased (s.set ⟨f, i⟩ v) t := by
        refine ⟨hst.mem, fun r hr => (hst.regs r hr).trans ?_⟩
        exact (Function.update_of_ne (ne_of_mem_of_not_mem hi hr).symm _ _).symm
      obtain ⟨rest', s', hrun, hstanding', hst'', hfilter, hhead⟩ :=
        ih (hwf.standing_step hstanding hstep) hst'
      refine ⟨rest', s', ?_, hstanding', hst'', ?_, hhead⟩
      · exact Flow.Labelled.trans (.single ⟨_, hstep, rfl⟩) hrun
      · rw [hfilter, List.filter_cons_of_neg (by simpa using hi)]
    · refine ⟨i :: rest, s, .refl _, hstanding, hst, rfl, fun j hj => ?_⟩
      cases hj
      exact hi

/-- A step of the function with the substitution is a run of the function. -/
theorem Substitutes.flow_left {c t t' : FlowState} {evs : List Event}
    (hstanding : C.Standing f fd.entry E c) (hmatch : FlowMatches f erased c t)
    (hstep : ((C.mapOperands σ).withoutInsts erased).EventStep E f t evs t') :
    ∃ c', Flow.Labelled (C.EventStep E f) c evs c' ∧ C.Standing f fd.entry E c' ∧
      FlowMatches f erased c' t' := by
  obtain ⟨acts, hstep, hevs⟩ := hstep
  -- a step of the new code that the old code makes as well
  have hone : ∀ {c c' : FlowState} {acts : List Action}, C.Standing f fd.entry E c →
      C.FlowStep E f c acts c' → acts.flatMap Action.events = evs → FlowMatches f erased c' t' →
      ∃ c', Flow.Labelled (C.EventStep E f) c evs c' ∧
        C.Standing f fd.entry E c' ∧ FlowMatches f erased c' t' :=
    fun hstanding hstep hevs hmatch =>
      ⟨_, .single ⟨_, hstep, hevs⟩, hwf.standing_step hstanding hstep, hmatch⟩
  -- by where the new code stands
  cases hmatch with
  | enter hst =>
    cases hstep with
    | entry hb hphis =>
      obtain ⟨bd, hb', rfl⟩ := Option.map_eq_some_iff.mp hb
      exact hone hstanding (.entry hb' hphis) hevs (.inside hst)
    | phis hb hphis =>
      obtain ⟨bd, hb', rfl⟩ := Option.map_eq_some_iff.mp hb
      obtain ⟨regs', hphis', hsame⟩ :=
        h.phis_left hwf hstanding hb' hst.regs (fun _ hi => hi) hphis
      exact hone hstanding (.phis hb' hphis') hevs (.inside ⟨hst.mem, hsame⟩)
  -- inside a block the old code first runs the erased instructions
  | @inside b rest s t hst =>
    obtain ⟨rest', s', hrun, hstanding', hst', hfilter, hhead⟩ := h.skip hwf hstanding hst
    rw [← hfilter] at hstep
    have hafter : (∃ c', Flow.Labelled (C.EventStep E f) (.inside b rest' s')
        evs c' ∧ C.Standing f fd.entry E c' ∧ FlowMatches f erased c' t') →
        ∃ c', Flow.Labelled (C.EventStep E f) (.inside b rest s) evs c' ∧
          C.Standing f fd.entry E c' ∧ FlowMatches f erased c' t' := by
      rintro ⟨c', hrun', hrest⟩
      exact ⟨c', hrun.trans hrun', hrest⟩
    refine hafter ?_
    -- then both are at the terminator
    cases rest' with
    | nil =>
      cases hstep with
      | branch hterm htarget =>
        obtain ⟨k, hterm', hk⟩ := h.terminatorIs_left hwf hterm
        cases k <;> cases hk
        exact hone hstanding' (.branch hterm' ((h.branchTo_iff hwf hstanding' hterm' hst'.regs).mp
          htarget)) hevs (.enter hst')
      | ret hterm hresult =>
        obtain ⟨k, hterm', hk⟩ := h.terminatorIs_left hwf hterm
        cases k <;> cases hk
        have hresult' := (h.evalReturn_eq hwf hstanding' hterm' hst'.regs).symm.trans hresult
        refine hone hstanding' (.ret hterm' hresult') hevs ?_
        rw [hst'.mem]
        exact .returned _ _
    -- or at an instruction that stays
    | cons i rest' =>
      have hi := hhead i rfl
      rw [List.filter_cons_of_pos (by simpa using hi)] at hstep
      cases hstep with
      | inst hexec =>
        obtain ⟨-, bd, before, hb, hinsts⟩ := hstanding'.located
        obtain ⟨d, hd, hparent, -⟩ := hwf.owned b bd i hb (Or.inr (Or.inl (by rw [hinsts]; simp)))
        obtain ⟨s'', hexec', hst''⟩ := h.exec_left hwf hstanding' hst' hi hd
          (Option.isSome_of_eq_some hparent) hexec
        exact hone hstanding' (.inst hexec') hevs (.inside hst'')
  | returned => cases hstep

/-- The function shows the same behaviour with the substitution. -/
theorem Substitutes.behavesAs :
    C.BehavesAs ((C.mapOperands σ).withoutInsts erased) f fd.entry := by
  intro E s evs o
  have hstart : C.Standing f fd.entry E (.enter none fd.entry s) := standing_enter s
  have hmatch : FlowMatches f erased (.enter none fd.entry s) (.enter none fd.entry s) :=
    .enter ⟨rfl, fun _ _ => rfl⟩
  constructor
  · rintro ⟨c, hrun, rfl⟩
    obtain ⟨t, hrun', -, hmatch'⟩ := hrun.simulate
      (R := fun c t => C.Standing f fd.entry E c ∧ FlowMatches f erased c t)
      (fun c t evs c' hR hstep => by
        obtain ⟨t', hrun', hmatch'⟩ := h.flow_right hwf hR.1 hR.2 hstep
        obtain ⟨acts, hstep, -⟩ := hstep
        exact ⟨t', hrun', hwf.standing_step hR.1 hstep, hmatch'⟩) ⟨hstart, hmatch⟩
    exact ⟨t, hrun', hmatch'.seen⟩
  · rintro ⟨t, hrun, rfl⟩
    obtain ⟨c, hrun', -, hmatch'⟩ := hrun.simulate
      (R := fun t c => C.Standing f fd.entry E c ∧ FlowMatches f erased c t)
      (fun t c evs t' hR hstep => h.flow_left hwf hR.1 hR.2 hstep) ⟨hstart, hmatch⟩
    exact ⟨c, hrun', hmatch'.seen.symm⟩

end

end Code

end Ir
