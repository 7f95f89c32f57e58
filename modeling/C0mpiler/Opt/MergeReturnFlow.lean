import C0mpiler.Ir.UseListRun
import C0mpiler.Opt.MergeReturnSound
import Mathlib

/-!
# Merging returns preserves runs

The function with merged returns runs as the one before, until a return: there it jumps to the new
block, takes the value into the phi and returns that. `Merged.sameFlow` compares the runs as far as
they are in blocks that both functions have, or behind the return.

The pass collects the returns of the arena. One that stands in no block makes it panic, so that
`funcMergeReturn_correct_iff` has an exact condition.
-/

namespace Ir

namespace Code

variable {C C' : Code} {f : FunctionId} {fd : FunctionData} {rets : List InstId} {nb : BlockId}
  {ret : InstId} {phi : Option JoinPhi} {jump : InstId → InstId} {E : Env}

/-- A step stays in the function. -/
theorem WellFormed.flowStep_in (hwf : C.WellFormed f fd) {a b : FlowState} {acts : List Action}
    (ha : C.FlowStateIn f a) (hstep : C.FlowStep E f a acts b) : C.FlowStateIn f b := by
  cases hstep with
  | entry hb hphis => exact ⟨_, hb, fun _ h => h⟩
  | phis hb hphis => exact ⟨_, hb, fun _ h => h⟩
  | inst hexec =>
    obtain ⟨bd, hb, hrest⟩ := ha
    exact ⟨bd, hb, fun i hi => hrest i (List.mem_cons_of_mem _ hi)⟩
  | @branch _ thenBlock target cond _ hterm htarget =>
    cases cond with
    | none =>
      cases htarget
      exact hwf.target_isSome hterm (List.mem_singleton_self _)
    | some c =>
      obtain ⟨taken, -, rfl⟩ := htarget
      cases taken
      · have hmem : (c.elseBlock, BlockOperandSlot.branchElse) ∈
            (InstKind.branch thenBlock (some c)).blockOperands := by simp [InstKind.blockOperands]
        exact hwf.target_isSome hterm hmem
      · have hmem : (thenBlock, BlockOperandSlot.branchThen) ∈
            (InstKind.branch thenBlock (some c)).blockOperands := by simp [InstKind.blockOperands]
        exact hwf.target_isSome hterm hmem
  | ret => trivial

section

variable (hwf : C.WellFormed f fd) (h : C.Merged C' f rets nb ret phi jump)
  (hrets : ∀ i ∈ rets, ∃ b value, C.ReturnAt f i b value)
include h hrets hwf

/-- A body instruction is executed alike. -/
theorem Merged.exec_iff {b : BlockId} {bd : BlockData} {i : InstId} (hb : C.block ⟨f, b⟩ = some bd)
    (hi : i ∈ bd.insts) {s s' : State} {ev : List Event} :
    C'.Exec E s ⟨f, i⟩ ev s' ↔ C.Exec E s ⟨f, i⟩ ev s' := by
  obtain ⟨d, hd, hparent, -, hinsts, -⟩ := hwf.owned b bd i hb (Or.inr (Or.inl hi))
  -- an instruction in a block is not a return
  have hd' : C'.inst ⟨f, i⟩ = some d := by
    refine h.inst_old hd fun j hj heq => ?_
    obtain ⟨b', value, hret⟩ := hrets j hj
    obtain ⟨name, hinst⟩ := hret.inst
    rw [← heq, hd] at hinst
    cases hinst
    cases (hinsts.mp hi).2
  -- and its operands have the types they had
  have hty : ∀ op ∈ d.kind.valueOperands, C'.operandTy op.1 = C.operandTy op.1 := by
    intro op hop
    obtain ⟨ty, hty, hvoid⟩ := hwf.operands i d hd (Option.isSome_of_eq_some hparent) op hop
    have hty' := h.valueTy hrets hty hvoid
    generalize op.1 = v at hty hty'
    cases v with
    | global g => rfl
    | _ => exact hty'.trans hty.symm
  constructor
  -- both directions exchange the operands
  · intro hexec
    refine hexec.congr_operands (hd.trans hd'.symm) (fun d₁ hd₁ op hop => ?_) h.rest.2.2.symm
    rw [hd'] at hd₁
    cases hd₁
    exact (hty op hop).symm
  · intro hexec
    refine hexec.congr_operands (hd'.trans hd.symm) (fun d₁ hd₁ op hop => ?_) h.rest.2.2
    rw [hd] at hd₁
    cases hd₁
    exact hty op hop

/-- The phis of an old block take the same values. -/
theorem Merged.phis_iff {b : BlockId} {bd : BlockData} (hb : C.block ⟨f, b⟩ = some bd)
    {source : BlockId} {regs regs' : Regs} :
    C'.Phis E f source regs bd.phis regs' ↔ C.Phis E f source regs bd.phis regs' := by
  have hinst : ∀ i ∈ bd.phis, C'.inst ⟨f, i⟩ = C.inst ⟨f, i⟩ := by
    intro i hi
    obtain ⟨d, hd, -, hphis, -⟩ := hwf.owned b bd i hb (Or.inl hi)
    rw [hd, h.inst_old hd fun j hj heq => ?_]
    obtain ⟨b', value, hret⟩ := hrets j hj
    obtain ⟨name, hinst⟩ := hret.inst
    rw [← heq, hd] at hinst
    cases hinst
    cases hphis.mp hi
  exact ⟨fun hphis => hphis.congr (fun i hi => (hinst i hi).symm) h.rest.2.2.symm,
    fun hphis => hphis.congr hinst h.rest.2.2⟩

variable (hphi : C.PhiFor f rets fd.ty.returnType phi)
  (hall : ∀ i d value, C.inst ⟨f, i⟩ = some d → d.kind = .ret value → i ∈ rets)
include hphi hall

omit hphi hwf h in
theorem returnAt_of_terminator {b : BlockId} {value : Option ValueId}
    (hterm : C.TerminatorIs f b (.ret value)) : ∃ i ∈ rets, C.ReturnAt f i b value := by
  obtain ⟨bd, t, d, hb, ht, hd, hk⟩ := hterm
  have hmem := hall t d value hd hk
  obtain ⟨b', value', hret⟩ := hrets t hmem
  obtain rfl := hret.only b bd hb ht
  obtain ⟨name, hinst⟩ := hret.inst
  rw [hd] at hinst
  cases hinst
  cases hk
  exact ⟨t, hmem, hret⟩

omit hrets hall in
/-- What the new block makes of the value a return hands to it: the phi takes it, and the new
return reads it there. -/
theorem Merged.join_iff {b : BlockId} {value : Option ValueId} {i : InstId} (hi : i ∈ rets)
    (hret : C.ReturnAt f i b value) {regs : Regs} {result : Option Val} :
    C.evalReturn E regs value = some result ↔
      ∃ regs', C'.Phis E f b regs (phi.map JoinPhi.inst).toList regs' ∧
        C'.evalReturn E regs' (phi.map fun p => .inst ⟨f, p.inst⟩) = some result := by
  obtain ⟨name, hinst⟩ := hret.inst
  have hnone := (hwf.returnAt hinst rfl rfl rfl).2
  -- without a phi nothing is returned
  cases phi with
  | none =>
    obtain rfl := hnone.mpr hphi
    constructor
    · intro hresult
      exact ⟨regs, .nil, hresult⟩
    · rintro ⟨regs', -, hresult⟩
      exact hresult
  -- the phi holds the value that came from `b`
  | some p =>
    obtain ⟨v, rfl⟩ := Option.ne_none_iff_exists'.mp fun hv => hphi.1 (hnone.mp hv)
    have hvalue : C'.evalOperand E regs = C.evalOperand E regs := evalOperand_consts h.rest.2.2 regs
    constructor
    -- from the old return to the new one
    · intro hresult
      obtain ⟨x, hx, rfl⟩ := Option.map_eq_some_iff.mp hresult
      obtain ⟨k, hk⟩ := List.mem_iff_getElem?.mp hi
      have hlookup := (hphi.2.2 k ⟨b, v⟩).mpr ⟨i, hk, hret⟩
      refine ⟨_, .cons .nil (h.joinPhi p rfl) rfl hlookup rfl (by rw [hvalue]; exact hx), ?_⟩
      show (Function.update regs (⟨f, p.inst⟩ : InstRef) (some x) ⟨f, p.inst⟩).map some = _
      rw [Function.update_self, Option.map_some]
    -- from the new return to the old one: the incoming selects one block
    · rintro ⟨regs', hphis, hresult⟩
      cases hphis with
      | cons hrest hd hk hlookup hsource hv =>
        cases hrest
        rw [h.joinPhi p rfl] at hd
        cases hd
        cases hk
        obtain ⟨j, hj, hret'⟩ := (hphi.2.2 _ _).mp hlookup
        rw [hsource] at hret'
        cases hret.terminatorIs.unique hret'.terminatorIs
        rw [hvalue] at hv
        have hset : (Function.update regs (⟨f, p.inst⟩ : InstRef) (some _) ⟨f, p.inst⟩).map some =
            some result := hresult
        rw [Function.update_self, Option.map_some] at hset
        rw [evalReturn, hv, ← hset]
        -- two returns of one block are the same
        rfl

/-- A step of the function is one of the function with merged returns, or a way through the new
block. -/
theorem Merged.flow_right {a b : FlowState} {acts : List Action} (ha : C.FlowStateIn f a)
    (hstep : C.FlowStep E f a acts b) : Flow.Labelled (C'.FlowStep E f) a acts b := by
  -- each step of the old code, in the new one
  cases hstep with
  | @entry b bd s hb hphis =>
    have henter : C'.FlowStep E f (.enter none b s) [] (.inside b (bd.retarget rets jump).insts s) :=
      .entry (h.block_old hb).2 hphis
    exact .single henter
  | @phis source b bd s regs hb hphis =>
    have henter : C'.FlowStep E f (.enter (some source) b s) []
        (.inside b (bd.retarget rets jump).insts { s with regs := regs }) :=
      .phis (h.block_old hb).2 ((h.phis_iff hwf hrets hb).mpr hphis)
    exact .single henter
  | inst hexec =>
    obtain ⟨bd, hb, hrest⟩ := ha
    exact .single (.inst ((h.exec_iff hwf hrets hb (hrest _ List.mem_cons_self)).mpr hexec))
  -- a jump or a branch of the old code is still there
  | branch hterm htarget =>
    have hterm' := (h.terminatorIs_iff hwf hrets).mpr (Or.inr (Or.inr ⟨hterm, fun i hi value hret => by
      cases hterm.unique hret.terminatorIs⟩))
    exact .single (.branch hterm' (htarget.congr h.rest.2.2))
  -- a return becomes a jump, the phis of the join block, and the new return
  | @ret b value result s hterm hresult =>
    obtain ⟨i, hi, hret⟩ := returnAt_of_terminator hrets hall hterm
    obtain ⟨regs', hphis, hresult'⟩ := (h.join_iff hwf hphi hi hret).mp hresult
    have hjump := (h.terminatorIs_iff hwf hrets).mpr (Or.inr (Or.inl ⟨rfl, i, hi, value, hret⟩))
    have hjoin := (h.terminatorIs_iff hwf hrets (b := nb)).mpr (Or.inl ⟨rfl, rfl⟩)
    have henter : C'.FlowStep E f (.inside b [] s) [] (.enter (some b) nb s) := .branch hjump rfl
    have hfill : C'.FlowStep E f (.enter (some b) nb s) [] (.inside nb [] { s with regs := regs' }) :=
      .phis h.joinBlock hphis
    have hreturn : C'.FlowStep E f (.inside nb [] { s with regs := regs' }) []
        (.returned result s.mem) := .ret hjoin hresult'
    exact ((Flow.Labelled.single henter).snoc hfill).snoc hreturn

/-- The states of the two functions: the same one, or the new block and the end of the block it was
entered from. -/
inductive Merged.Behind (C C' : Code) (f : FunctionId) (nb : BlockId) (phi : Option JoinPhi) (E : Env) :
    FlowState → FlowState → Prop
  | same {a : FlowState} (ha : C.FlowStateIn f a) : Behind C C' f nb phi E a a
  | joining {b : BlockId} {value : Option ValueId} {s : State}
      (hterm : C.TerminatorIs f b (.ret value)) :
      Behind C C' f nb phi E (.enter (some b) nb s) (.inside b [] s)
  | joined {b : BlockId} {value : Option ValueId} {s : State} {regs : Regs}
      (hterm : C.TerminatorIs f b (.ret value))
      (hphis : C'.Phis E f b s.regs (phi.map JoinPhi.inst).toList regs) :
      Behind C C' f nb phi E (.inside nb [] { s with regs := regs }) (.inside b [] s)

/-- A step of the function with merged returns is one of the function, or stays behind it. -/
theorem Merged.flow_left {a b c : FlowState} {acts : List Action}
    (hbehind : Merged.Behind C C' f nb phi E a c) (hstep : C'.FlowStep E f a acts b) :
    ∃ d, Flow.Labelled (C.FlowStep E f) c acts d ∧ Merged.Behind C C' f nb phi E b d := by
  -- the join block is new
  have hfresh : ∀ {k}, ¬C.TerminatorIs f nb k := by
    rintro k ⟨bd, t, d, hb, -⟩
    rw [h.fresh] at hb
    cases hb
  have hkeep : ∀ {a b acts}, C.FlowStateIn f a → C.FlowStep E f a acts b →
      ∃ d, Flow.Labelled (C.FlowStep E f) a acts d ∧ Merged.Behind C C' f nb phi E b d :=
    fun ha hstep => ⟨_, .single hstep, .same (hwf.flowStep_in ha hstep)⟩
  -- the new code is at the same place, at the join block, or past its phis
  cases hbehind with
  | same ha =>
    cases hstep with
    | @entry b _ s hb hphis =>
      rcases h.block_cases hb with ⟨rfl, -⟩ | ⟨-, bd₀, hb₀, rfl⟩
      · rw [FlowStateIn, h.fresh] at ha
        cases ha
      · have henter : C.FlowStep E f (.enter none b s) [] (.inside b bd₀.insts s) := .entry hb₀ hphis
        exact hkeep ha henter
    | @phis source b _ s regs hb hphis =>
      rcases h.block_cases hb with ⟨rfl, -⟩ | ⟨-, bd₀, hb₀, rfl⟩
      · rw [FlowStateIn, h.fresh] at ha
        cases ha
      · have henter : C.FlowStep E f (.enter (some source) b s) []
            (.inside b bd₀.insts { s with regs := regs }) :=
          .phis hb₀ ((h.phis_iff hwf hrets hb₀).mp hphis)
        exact hkeep ha henter
    | inst hexec =>
      obtain ⟨bd, hb, hrest⟩ := id ha
      exact hkeep ha (.inst ((h.exec_iff hwf hrets hb (hrest _ List.mem_cons_self)).mp hexec))
    | branch hterm htarget =>
      rcases (h.terminatorIs_iff hwf hrets).mp hterm with ⟨-, hk⟩ | ⟨hk, i, hi, value, hret⟩ | ⟨hold, -⟩
      · cases hk
      -- a jump of the new code to the join block stands where the old one returns
      · cases hk
        cases htarget
        exact ⟨_, .refl _, .joining hret.terminatorIs⟩
      · exact hkeep ha (.branch hold (htarget.congr h.rest.2.2.symm))
    | ret hterm hresult =>
      -- an old return would have become a jump
      rcases (h.terminatorIs_iff hwf hrets).mp hterm with ⟨rfl, -⟩ | ⟨hk, -⟩ | ⟨hold, hnot⟩
      · obtain ⟨bd, hb, -⟩ := ha
        rw [h.fresh] at hb
        cases hb
      · cases hk
      · obtain ⟨i, hi, hret⟩ := returnAt_of_terminator hrets hall hold
        exact absurd hret (hnot i hi _)
  -- the new code enters the join block
  | joining hterm =>
    cases hstep with
    | phis hb hphis =>
      rw [h.joinBlock] at hb
      cases hb
      exact ⟨_, .refl _, .joined hterm hphis⟩
  -- the new code has read the phis: its return is the one of the old code
  | @joined b₀ value s regs hterm hphis =>
    cases hstep with
    | branch hterm' _ =>
      rcases (h.terminatorIs_iff hwf hrets).mp hterm' with ⟨-, hk⟩ | ⟨-, i, hi, _, hret⟩ | ⟨hold, -⟩
      · cases hk
      · exact absurd hret.terminatorIs hfresh
      · exact absurd hold hfresh
    | ret hterm' hresult =>
      rcases (h.terminatorIs_iff hwf hrets).mp hterm' with ⟨-, hk⟩ | ⟨hk, -⟩ | ⟨hold, -⟩
      · cases hk
        obtain ⟨i, hi, hret⟩ := returnAt_of_terminator hrets hall hterm
        have hresult' := (h.join_iff hwf hphi hi hret).mpr ⟨regs, hphis, hresult⟩
        have hreturn : C.FlowStep E f (.inside b₀ [] s) [] (.returned _ s.mem) := .ret hterm hresult'
        exact ⟨_, .single hreturn, .same trivial⟩
      · cases hk
      · exact absurd hold hfresh

/-- Both functions run alike. -/
theorem Merged.sameFlow : C.SameFlow C' f := by
  intro E b s acts c hb hc
  constructor
  · intro hrun
    have hsim : ∃ c', C'.FlowRun E f (.enter none b s) acts c' ∧ C.FlowStateIn f c ∧ c' = c :=
      Flow.Labelled.simulate (R := fun a a' => C.FlowStateIn f a ∧ a' = a)
        (fun a a' acts b hR hstep => by
          obtain ⟨ha, rfl⟩ := hR
          exact ⟨b, h.flow_right hwf hrets hphi hall ha hstep, hwf.flowStep_in ha hstep, rfl⟩)
        ⟨hb, rfl⟩ hrun
    obtain ⟨c', hrun', -, rfl⟩ := hsim
    exact hrun'
  · intro hrun
    obtain ⟨d, hrun', hbehind⟩ := Flow.Labelled.simulate (R := Merged.Behind C C' f nb phi E)
      (fun a c acts b hR hstep => h.flow_left hwf hrets hphi hall hR hstep) (.same hb) hrun
    cases hbehind with
    | same => exact hrun'
    | joining =>
      rw [FlowStateIn, h.fresh] at hc
      cases hc
    | joined =>
      obtain ⟨bd, hbd, -⟩ := hc
      rw [h.fresh] at hbd
      cases hbd

end

end Code

namespace ModuleCore

variable {m : ModuleCore} {f : FunctionId} {fd : FunctionData}

/-- A well-formed function of a module; nothing uses a return. What stands in no block is free. -/
structure WellFormedFunction (m : ModuleCore) (f : FunctionId) : Prop where
  code : ∃ fd, m.code.WellFormed f fd
  unused : ∀ i d value, m.inst ⟨f, i⟩ = some d → d.parent.isSome → d.kind = .ret value → d.uses = []

theorem WellFormedFunction.header (hwf : m.WellFormedFunction f) (hfd : m.func f = some fd) :
    m.code.WellFormed f fd.header := by
  obtain ⟨header, hcode⟩ := hwf.code
  have hfunc : m.code.func f = some fd.header := by
    show (m.func f).map FunctionData.header = _
    rw [hfd, Option.map_some]
  obtain rfl := Option.some.inj (hfunc.symm.trans hcode.func)
  exact hcode

/-- `m'` is `m` with the returns of `f` merged: the block `nb` at the end is new, its return `ret`
is the only one, every phi has one incoming for each edge, and the function runs as before. -/
structure ReturnsMerged (m m' : ModuleCore) (slots : SlotOrder) (f : FunctionId) (nb : BlockId)
    (ret : InstId) : Prop where
  wellFormed : m'.WellFormedFunction f
  order : ∃ fd fd', m.func f = some fd ∧ m'.func f = some fd' ∧
    fd'.blockOrder = fd.blockOrder ++ [nb] ∧ nb ∉ fd.blockOrder ∧ fd'.returnInsts slots f = [ret]
  last : ∃ value, m'.code.ReturnAt f ret nb value
  phis : ∀ b bd i d incomings idx, m'.code.block ⟨f, b⟩ = some bd → i ∈ bd.phis →
    m'.code.inst ⟨f, i⟩ = some d → d.kind = .phi incomings idx →
    (b ≠ nb → m.code.PhiMatches f b incomings) → m'.code.PhiMatches f b incomings
  kept : ∀ i d, m.code.inst ⟨f, i⟩ = some d → (∀ value, d.kind ≠ .ret value) →
    m'.code.inst ⟨f, i⟩ = some d
  sameFlow : m.code.SameFlow m'.code f

/-- The use lists are exact but for the jumps to `nb`: these are in none. -/
structure JumpsUnlisted (m : ModuleCore) (nb : BlockRef) : Prop where
  values : ∀ v l, m.valueUses v = some l →
    ListsExactly l fun u => m.Inserted u.user ∧ m.OperandOf u v
  blocks : ∀ b l, b ≠ nb → m.blockUses b = some l →
    ListsExactly l fun u => m.Inserted u.user ∧ m.BlockOperandOf u b
  newBlock : m.blockUses nb = some []

/-- The returns that stand in a block. -/
theorem WellFormedFunction.returnsPlaced (hwf : m.WellFormedFunction f) (hfd : m.func f = some fd)
    {rets : List InstId} (hrets : ∀ i ∈ rets, ∃ d value, m.inst ⟨f, i⟩ = some d ∧
      d.kind = .ret value ∧ d.parent.isSome) : m.ReturnsPlaced f fd.ty.returnType rets := by
  intro i hi
  obtain ⟨d, value, hd, hk, hparent⟩ := hrets i hi
  obtain ⟨⟨b, hat⟩, hvoid⟩ := (hwf.header hfd).returnAt (code_inst_of_inst hd) hparent rfl hk
  refine ⟨⟨b, value, hat, hvoid⟩, ?_⟩
  show (m.inst _).map InstData.uses = _
  rw [hd, Option.map_some, hwf.unused i d value hd hparent hk]

section

variable {slots : SlotOrder} {m' : ModuleCore} {rets : List InstId} {nb : BlockId} {ret : InstId}
  {phi : Option JoinPhi} {jump : InstId → InstId}

/-- What the code after the pass says of the module. -/
theorem returnsMerged_of_merged (hwf : m.WellFormedFunction f) (hfd : m.func f = some fd)
    (hplaced : m.ReturnsPlaced f fd.ty.returnType (fd.returnInsts slots f))
    (hmerged : m.code.Merged m'.code f (fd.returnInsts slots f) nb ret phi jump)
    (hphi : m.code.PhiFor f (fd.returnInsts slots f) fd.ty.returnType phi)
    (huses : m'.valueUses (.inst ⟨f, ret⟩) = some []) : m.ReturnsMerged m' slots f nb ret := by
  have hcode := hwf.header hfd
  have hrets : ∀ i ∈ fd.returnInsts slots f, ∃ b value, m.code.ReturnAt f i b value := fun i hi => by
    obtain ⟨⟨b, value, hat, -⟩, -⟩ := hplaced i hi
    exact ⟨b, value, hat⟩
  -- every return of the arena is placed, so every one of them is merged
  have hall : ∀ i d value, m.code.inst ⟨f, i⟩ = some d → d.kind = .ret value →
      i ∈ fd.returnInsts slots f := by
    intro i d value hd hk
    obtain ⟨d, hd', rfl⟩ := inst_of_code_inst hd
    exact (mem_returnInsts hfd).mpr ⟨d, value, hd', hk⟩
  have hwf' := hmerged.wellFormed hcode hrets hphi hall
  obtain ⟨fd', hfd', hheader⟩ := Option.map_eq_some_iff.mp hwf'.func
  -- only the new return is one
  have honly : ∀ i d value, m'.inst ⟨f, i⟩ = some d → d.kind = .ret value → i = ret := by
    intro i d value hd hk
    rcases hmerged.inst_cases hrets (code_inst_of_inst hd) with ⟨rfl, -⟩ | ⟨p, -, -, hdata⟩ |
      ⟨j, -, -, b, value', -, hdata⟩ | ⟨hi, hold⟩
    · rfl
    · cases hk.symm.trans (congrArg InstData.kind hdata :)
    · cases hk.symm.trans (congrArg InstData.kind hdata :)
    · exact absurd (hall i _ value hold hk) hi
  -- the list of returns afterwards
  have hmem : ∀ i, i ∈ fd'.returnInsts slots f ↔ i = ret := by
    intro i
    rw [mem_returnInsts hfd']
    constructor
    · rintro ⟨d, value, hd, hk⟩
      exact honly i d value hd hk
    · rintro rfl
      obtain ⟨d, hd, hdcode⟩ := inst_of_code_inst hmerged.joinRet
      exact ⟨d, _, hd, congrArg InstData.kind hdcode⟩
  have hone : fd'.returnInsts slots f = [ret] := by
    refine List.perm_singleton.mp ((List.perm_ext_iff_of_nodup (fd'.nodup_returnInsts slots f)
      (List.nodup_singleton ret)).mpr fun i => ?_)
    rw [hmem, List.mem_singleton]
  obtain ⟨hold, hnew⟩ := hmerged.phiMatches hcode hrets hphi (fd.nodup_returnInsts slots f)
  exact {
    wellFormed := ⟨⟨_, hwf'⟩, fun i d value hd _ hk => by
      obtain rfl := honly i d value hd hk
      have hu : (m'.inst ⟨f, i⟩).map InstData.uses = some [] := huses
      rw [hd] at hu
      exact Option.some.inj hu⟩
    order := by
      refine ⟨fd, fd', hfd, hfd', (congrArg FunctionData.blockOrder hheader :), fun hnb => ?_, hone⟩
      have hsome := (hcode.blocks nb).mp hnb
      rw [hmerged.fresh] at hsome
      cases hsome
    last := by
      obtain ⟨⟨b, hat⟩, -⟩ := hwf'.returnAt hmerged.joinRet rfl rfl rfl
      obtain ⟨name, hinst⟩ := hat.inst
      rw [hmerged.joinRet] at hinst
      cases hinst
      exact ⟨_, hat⟩
    phis := fun b bd i d incomings idx hb hi hd hk hmatches => by
      rcases hmerged.block_cases hb with ⟨rfl, rfl⟩ | ⟨hne, -⟩
      · obtain ⟨p, hp, rfl⟩ := Option.map_eq_some_iff.mp (Option.mem_toList.mp hi)
        rw [hmerged.joinPhi p hp] at hd
        cases hd
        cases hk
        exact hnew p hp
      · exact (hold b incomings hne).mpr (hmatches hne)
    kept := fun i d hd hk => hmerged.inst_old hd fun j hj heq => by
      obtain ⟨d', value, hd', hk'⟩ := (mem_returnInsts hfd).mp hj
      rw [← heq] at hd'
      rw [code_inst_of_inst hd'] at hd
      cases hd
      exact hk value hk'
    sameFlow := hmerged.sameFlow hcode hrets hphi hall }

/-- The use lists after the pass: the jumps took the place of the returns unregistered. -/
theorem jumpsUnlisted_of_merged (hwf : m.WellFormedFunction f) (hfd : m.func f = some fd)
    (hplaced : m.ReturnsPlaced f fd.ty.returnType (fd.returnInsts slots f))
    (hmerged : m.code.Merged m'.code f (fd.returnInsts slots f) nb ret phi jump)
    (hphi : m.code.PhiFor f (fd.returnInsts slots f) fd.ty.returnType phi)
    (hreg : m'.Registered fun r => m'.Inserted r ∧ ∀ i ∈ fd.returnInsts slots f, r ≠ ⟨f, jump i⟩) :
    m'.JumpsUnlisted ⟨f, nb⟩ := by
  have hcode := hwf.header hfd
  have hrets : ∀ i ∈ fd.returnInsts slots f, ∃ b value, m.code.ReturnAt f i b value := fun i hi => by
    obtain ⟨⟨b, value, hat, -⟩, -⟩ := hplaced i hi
    exact ⟨b, value, hat⟩
  have hjump : ∀ i ∈ fd.returnInsts slots f, m'.Inserted ⟨f, jump i⟩ ∧
      m'.kindOf ⟨f, jump i⟩ = some (.branch nb none) := by
    intro i hi
    obtain ⟨b, value, hat⟩ := hrets i hi
    obtain ⟨d, hd, hdcode⟩ := inst_of_code_inst (hmerged.jumps i hi b value hat)
    refine ⟨⟨d, hd, ?_⟩, ?_⟩
    · exact Option.isSome_of_eq_some (congrArg InstData.parent hdcode)
    · exact (kindOf_of_inst hd).trans (congrArg (fun d => some d.kind) hdcode)
  -- nothing but the jumps goes to the new block
  have htarget : ∀ u, m'.Inserted u.user → (∀ i ∈ fd.returnInsts slots f, u.user ≠ ⟨f, jump i⟩) →
      ¬m'.BlockOperandOf u ⟨f, nb⟩ := by
    rintro ⟨⟨f', k⟩, slot⟩ hin hnot ⟨d, hd, hf, hop⟩
    obtain rfl : f = f' := hf
    have hblock : ∀ {bd}, m.code.block ⟨f, nb⟩ ≠ some bd := by
      rw [hmerged.fresh]
      exact Option.some_ne_none _ ∘ Eq.symm
    rcases hmerged.inst_cases hrets (code_inst_of_inst hd) with ⟨-, hdata⟩ | ⟨p, hp, -, hdata⟩ |
      ⟨j, hj, heq, -⟩ | ⟨-, hold⟩
    · have hkind : d.kind = _ := (congrArg InstData.kind hdata :)
      rw [hkind] at hop
      cases hop
    · have hkind : d.kind = _ := (congrArg InstData.kind hdata :)
      rw [hkind] at hop
      obtain ⟨e, he, heq⟩ := List.mem_map.mp hop
      obtain ⟨i, -, hret⟩ := hphi.returnAt hp (AList.mem_lookup_iff.mpr he)
      obtain ⟨bd, hbd, -⟩ := hret.block
      have hnb : e.2.block = nb := congrArg Prod.fst heq
      rw [hnb] at hbd
      exact hblock hbd
    · exact hnot j hj (congrArg (InstRef.mk f) heq)
    · obtain ⟨d', hd', hparent⟩ := hin
      obtain rfl := Option.some.inj (hd.symm.trans hd')
      obtain ⟨bd, hbd⟩ := Option.isSome_iff_exists.mp (hcode.targets k _ hold hparent _ hop)
      exact hblock hbd
  refine ⟨fun v l hv => ?_, fun b l hb hl => ?_, ?_⟩
  · refine (hreg.values.lists v l hv).congr fun u => ?_
    refine ⟨fun hu => ⟨hu.1.1, hu.2⟩, fun hu => ⟨⟨hu.1, fun i hi heq => ?_⟩, hu.2⟩⟩
    -- a jump has no operand
    obtain ⟨k, hk, hop⟩ := operandOf_iff.mp hu.2
    rw [heq, (hjump i hi).2] at hk
    cases hk
    cases hop
  · refine (hreg.blocks.lists b l hl).congr fun u => ?_
    refine ⟨fun hu => ⟨hu.1.1, hu.2⟩, fun hu => ⟨⟨hu.1, fun i hi heq => hb ?_⟩, hu.2⟩⟩
    -- a jump goes to the new block only
    obtain ⟨k, hk, hf, hop⟩ := blockOperandOf_iff.mp hu.2
    rw [heq, (hjump i hi).2] at hk
    cases hk
    rw [heq] at hf
    obtain ⟨f', b⟩ := b
    obtain rfl : f' = f := hf
    exact congrArg _ (congrArg Prod.fst (List.mem_singleton.mp hop))
  · obtain ⟨bd, hbd, -⟩ := block_of_code_block hmerged.joinBlock
    have hl : m'.blockUses ⟨f, nb⟩ = some bd.uses := by
      show (m'.block _).map _ = _
      rw [hbd, Option.map_some]
    have hnil : bd.uses = [] := List.eq_nil_iff_forall_not_mem.mpr fun u hu => by
      obtain ⟨⟨hin, hnot⟩, hop⟩ := (hreg.blocks.mem_iff hl).mp hu
      exact htarget u hin hnot hop
    rw [hl, hnil]

end

/-- Merging the returns of a well-formed function that has several does what it is for if and only
if each of them stands in a block; otherwise the pass panics. The jumps to the new block are in no
use list, so that the new block seems unused. -/
theorem funcMergeReturn_correct_iff {slots : SlotOrder} (hwf : m.WellFormedFunction f)
    (hfd : m.func f = some fd) (htwo : 2 ≤ (fd.returnInsts slots f).length) :
    ((∃ m' nb ret, m.funcMergeReturn slots f = some m' ∧ m.ReturnsMerged m' slots f nb ret) ↔
      ∀ i ∈ fd.returnInsts slots f, m.Inserted ⟨f, i⟩) ∧
    (m.Indexed → ∀ m' nb ret, m.funcMergeReturn slots f = some m' →
      m.ReturnsMerged m' slots f nb ret → m'.JumpsUnlisted ⟨f, nb⟩) := by
  have hdefined : fd.isDeclare = false := (hwf.header hfd).isDefined
  -- a return without a parent is not merged
  have hstray : ∀ i ∈ fd.returnInsts slots f, ¬m.Inserted ⟨f, i⟩ →
      m.funcMergeReturn slots f = none := by
    refine fun i hi hdet => funcMergeReturn_detached hfd hdefined htwo ?_ hi hdet
    refine hwf.returnsPlaced hfd fun j hj => ?_
    obtain ⟨hj, hin⟩ := List.mem_filter.mp hj
    obtain ⟨d, value, hd, hk⟩ := (mem_returnInsts hfd).mp hj
    rw [parentOf_of_inst hd] at hin
    exact ⟨d, value, hd, hk, hin⟩
  -- when all of them have a parent they are all placed
  have hplaced : (∀ i ∈ fd.returnInsts slots f, m.Inserted ⟨f, i⟩) →
      m.ReturnsPlaced f fd.ty.returnType (fd.returnInsts slots f) := by
    refine fun hin => hwf.returnsPlaced hfd fun j hj => ?_
    obtain ⟨d, value, hd, hk⟩ := (mem_returnInsts hfd).mp hj
    obtain ⟨d', hd', hparent⟩ := hin j hj
    obtain rfl := Option.some.inj (hd.symm.trans hd')
    exact ⟨d, value, hd, hk, hparent⟩
  refine ⟨⟨fun hdone => ?_, fun hin => ?_⟩, fun hindexed m' nb ret hrun hdone => ?_⟩
  -- a detached return makes the pass stop
  · obtain ⟨m', nb, ret, hrun, -⟩ := hdone
    intro i hi
    by_contra hdet
    rw [hstray i hi hdet] at hrun
    cases hrun
  -- otherwise the result is the merged code
  · obtain ⟨m', nb, ret, phi, jump, hrun, hmerged, hphi, huses, -⟩ :=
      funcMergeReturn_merged hfd hdefined htwo (hplaced hin)
    exact ⟨m', nb, ret, hrun, returnsMerged_of_merged hwf hfd (hplaced hin) hmerged hphi huses⟩
  -- the use list of the new block
  · have hin : ∀ i ∈ fd.returnInsts slots f, m.Inserted ⟨f, i⟩ := by
      intro i hi
      by_contra hdet
      rw [hstray i hi hdet] at hrun
      cases hrun
    obtain ⟨m₁, nb', ret', phi, jump, hrun₁, hmerged, hphi, -, hreg⟩ :=
      funcMergeReturn_merged hfd hdefined htwo (hplaced hin)
    obtain rfl := Option.some.inj (hrun₁.symm.trans hrun)
    -- the new block is the last one of the order
    obtain ⟨fd₀, fd', hfd₀, hfd', horder, -⟩ := hdone.order
    obtain rfl := Option.some.inj (hfd.symm.trans hfd₀)
    have horder' : fd'.blockOrder = fd.blockOrder ++ [nb'] := by
      have hheader := hmerged.func
      change (m₁.func f).map FunctionData.header = ((m.func f).map FunctionData.header).map _ at hheader
      rw [hfd, hfd'] at hheader
      exact congrArg FunctionData.blockOrder (Option.some.inj hheader)
    obtain rfl : nb' = nb := by
      have hsame := List.append_cancel_left (horder'.symm.trans horder)
      exact (List.cons.inj hsame).1
    exact jumpsUnlisted_of_merged hwf hfd (hplaced hin) hmerged hphi (hreg hindexed)

def twoReturnsEdits : List Edit :=
  [.createFunction "f" ⟨.int 32, []⟩, .appendBlock 1 none,
    .addConst (.int 32) (.int ⟨1, 32⟩), .addConst (.int 32) (.int ⟨2, 32⟩),
    .newInst 1 .void (.ret (some (.const 1))) none, .setTerminator ⟨1, 1⟩ ⟨1, 1⟩,
    .newInst 1 .void (.ret (some (.const 2))) none, .setTerminator ⟨1, 2⟩ ⟨1, 2⟩]

/-- A function with two returns, one of them in a block that nothing reaches. -/
def twoReturns : ModuleCore := (runEdits twoReturnsEdits).getD .new

theorem indexed_twoReturns : twoReturns.Indexed :=
  (reachable_of_plain (show ∀ e ∈ twoReturnsEdits, e.plain = true by decide) rfl).indexed

theorem twoReturns_inst {i : InstId} {d : InstData} (hd : twoReturns.code.inst ⟨1, i⟩ = some d) :
    (i = 1 ∨ i = 2) ∧ d = ⟨some ⟨1, i⟩, .void, .ret (some (.const i)), [], none⟩ := by
  rcases i with _ | _ | _ | i
  · cases hd
  · cases hd
    exact ⟨Or.inl rfl, rfl⟩
  · cases hd
    exact ⟨Or.inr rfl, rfl⟩
  · cases hd

theorem twoReturns_block {b : BlockId} {bd : BlockData}
    (hb : twoReturns.code.block ⟨1, b⟩ = some bd) : (b = 1 ∨ b = 2) ∧ bd.phis = [] ∧ bd.insts = [] ∧
      bd.terminator = some b := by
  rcases b with _ | _ | _ | b
  · cases hb
  · cases hb
    exact ⟨Or.inl rfl, rfl, rfl, rfl⟩
  · cases hb
    exact ⟨Or.inr rfl, rfl, rfl, rfl⟩
  · cases hb

theorem twoReturns_holdsAs {b : BlockId} {bd : BlockData}
    (hb : twoReturns.code.block ⟨1, b⟩ = some bd) (value : Option ValueId) :
    bd.HoldsAs b (.ret value) := by
  obtain ⟨-, hphis, hinsts, hterm⟩ := twoReturns_block hb
  simp [BlockData.HoldsAs, hphis, hinsts, hterm, InstKind.isPhi, InstKind.isTerminator]

theorem wellFormed_twoReturns : twoReturns.WellFormedFunction 1 where
  code := ⟨⟨"f", ⟨.int 32, []⟩, .empty, .empty, .empty, [1, 2], 1, false⟩, {
    func := rfl
    isDefined := rfl
    nodup := by decide
    entry := by decide
    blocks := fun b => by
      refine ⟨fun hb => ?_, fun hb => ?_⟩
      · rcases List.mem_cons.mp hb with rfl | hb
        · rfl
        · obtain rfl := List.mem_singleton.mp hb
          rfl
      · obtain ⟨bd, hbd⟩ := Option.isSome_iff_exists.mp hb
        obtain ⟨rfl | rfl, -⟩ := twoReturns_block hbd <;> decide
    terminated := fun b bd hb => ⟨b, (twoReturns_block hb).2.2.2⟩
    distinct := fun b bd hb => by
      obtain ⟨-, hphis, hinsts, -⟩ := twoReturns_block hb
      rw [hphis, hinsts]
      exact ⟨List.nodup_nil, List.nodup_nil⟩
    owned := fun b bd i hb hholds => by
      obtain ⟨hb12, hphis, hinsts, hterm⟩ := twoReturns_block hb
      rw [BlockData.Holds, hphis, hinsts, hterm] at hholds
      obtain rfl : b = i := by simpa using hholds
      refine ⟨⟨some ⟨1, b⟩, .void, .ret (some (.const b)), [], none⟩, ?_, rfl,
        twoReturns_holdsAs hb _⟩
      rcases hb12 with rfl | rfl <;> rfl
    placed := fun i d b hd hparent => by
      obtain ⟨hi, rfl⟩ := twoReturns_inst hd
      cases hparent
      rcases hi with rfl | rfl <;> exact ⟨rfl, _, rfl, twoReturns_holdsAs rfl _⟩
    targets := fun i d hd _ op hop => by
      obtain ⟨-, rfl⟩ := twoReturns_inst hd
      cases hop
    operands := fun i d hd _ op hop => by
      obtain ⟨hi, rfl⟩ := twoReturns_inst hd
      cases List.mem_singleton.mp hop
      rcases hi with rfl | rfl <;> exact ⟨.int 32, rfl, Ty.noConfusion⟩
    available := fun i d b hd _ _ op hop => by
      obtain ⟨-, rfl⟩ := twoReturns_inst hd
      cases List.mem_singleton.mp hop
      exact fun _ hj => by cases hj
    incoming := fun i d incomings idx hd _ hk => by
      obtain ⟨-, rfl⟩ := twoReturns_inst hd
      cases hk
    returns := fun i d value hd _ hk => by
      obtain ⟨hi, rfl⟩ := twoReturns_inst hd
      cases hk
      rcases hi with rfl | rfl <;> exact ⟨rfl, rfl⟩ }⟩
  unused i d value hd _ _ := by
    obtain ⟨hi, -⟩ := twoReturns_inst (code_inst_of_inst hd)
    rcases hi with rfl | rfl <;> cases hd <;> rfl

/-- The function with two returns gets a third block with the only return. -/
theorem funcMergeReturn_twoReturns :
    ∃ m' nb ret, twoReturns.funcMergeReturn .byCreation 1 = some m' ∧
      twoReturns.ReturnsMerged m' .byCreation 1 nb ret ∧ m'.JumpsUnlisted ⟨1, nb⟩ := by
  have htwo : 2 ≤ ((twoReturns.func 1).elim 0 fun fd =>
      (fd.returnInsts .byCreation 1).length) := by decide
  obtain ⟨hiff, huses⟩ := funcMergeReturn_correct_iff wellFormed_twoReturns rfl htwo
  have hin : ∀ i ∈ [1, 2], twoReturns.Inserted ⟨1, i⟩ := by
    intro i hi
    rcases List.mem_cons.mp hi with rfl | hi
    · exact ⟨_, rfl, rfl⟩
    · obtain rfl := List.mem_singleton.mp hi
      exact ⟨_, rfl, rfl⟩
  obtain ⟨m', nb, ret, hrun, hmerged⟩ := hiff.mpr hin
  exact ⟨m', nb, ret, hrun, hmerged, huses indexed_twoReturns m' nb ret hrun hmerged⟩

/-- A third return that was made and never inserted. -/
def strayReturn : ModuleCore :=
  (twoReturns.newInst 1 .void (.ret (some (.const 1))) none).elim twoReturns Prod.snd

theorem wellFormed_strayReturn : strayReturn.WellFormedFunction 1 := by
  obtain ⟨fd, hcode⟩ := wellFormed_twoReturns.code
  have hnew : twoReturns.newInst 1 .void (.ret (some (.const 1))) none =
      some (⟨1, 3⟩, strayReturn) := rfl
  obtain ⟨-, -, -, hcode'⟩ := newInst_code hnew
  refine ⟨⟨fd, ?_⟩, fun i d value hd hparent hk => ?_⟩
  · rw [hcode']
    exact hcode.detached rfl rfl
  · rcases i with _ | _ | _ | _ | i
    · cases hd
    · cases hd
      rfl
    · cases hd
      rfl
    · cases hd
      cases hparent
    · cases hd

/-- The pass panics on a well-formed function with two returns in its blocks. -/
theorem funcMergeReturn_strayReturn : strayReturn.WellFormedFunction 1 ∧
    (∃ fd, strayReturn.func 1 = some fd ∧ fd.returnInsts .byCreation 1 = [1, 2, 3]) ∧
    strayReturn.Inserted ⟨1, 1⟩ ∧ strayReturn.Inserted ⟨1, 2⟩ ∧
    strayReturn.funcMergeReturn .byCreation 1 = none :=
  ⟨wellFormed_strayReturn, ⟨_, rfl, rfl⟩, ⟨_, rfl, rfl⟩, ⟨_, rfl, rfl⟩, rfl⟩

end ModuleCore

end Ir
