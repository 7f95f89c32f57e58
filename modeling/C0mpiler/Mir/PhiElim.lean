import C0mpiler.Mir.LowerSetup
import C0mpiler.Data.OptionFold
import Mathlib

/-!
# Phi elimination

Control leaves a block through the code of its branch, perhaps passes through transit blocks, and
arrives at the machine block of another IR block (`Arrives`). On the way the incoming values of the
phis of that block are copied into the registers of the phis; `lowerBranch_effect` says what the
registers hold on arrival, for every edge and every state of the registers at the end of the block.
-/

namespace Mir

open Ir (ModuleCore ValueId BlockRef InstRef FunctionId InstKind CondBranch)

variable {R I : Type} {w : Nat} [DecidableEq R] [MachineSemantics R w I]

/-! ## Going to a block -/

/-- The machine block comes from an IR block. -/
def FunctionLoweringState.Lowered (S : FunctionLoweringState) (k : BlockId) : Prop :=
  ∃ b, S.blockId b = some k

/-- Control that goes to the block `l` arrives at the block `t` of the IR, through blocks that are
not of the IR. -/
inductive Goes (F : MachineFunction R I) (S : FunctionLoweringState) (sym : SymbolId → BitVec w) :
    BlockId → Regs R I w → BlockId → Regs R I w → Prop
  | here {l : BlockId} {ρ : Regs R I w} (h : S.Lowered l) : Goes F S sym l ρ l ρ
  | transit {l l' t : BlockId} {ρ ρ' ρ'' : Regs R I w} {b : MachineBlock I}
      (h : ¬ S.Lowered l) (hb : F.getBlock l = some b)
      (hrun : runInsts sym b.instructions ρ = some (ρ', some l')) (hrest : Goes F S sym l' ρ' t ρ'') :
      Goes F S sym l ρ t ρ''

/-- Control that runs `code` leaves it for some block and arrives at the block `t` of the IR. -/
def Arrives (F : MachineFunction R I) (S : FunctionLoweringState) (sym : SymbolId → BitVec w)
    (code : List I) (ρ : Regs R I w) (t : BlockId) (ρ' : Regs R I w) : Prop :=
  ∃ l ρ₁, runInsts sym code ρ = some (ρ₁, some l) ∧ Goes F S sym l ρ₁ t ρ'

section

variable {F : MachineFunction R I} {S : FunctionLoweringState} {sym : SymbolId → BitVec w}

/-- Code goes one way only. -/
theorem Goes.unique {l t t' : BlockId} {ρ ρ' ρ'' : Regs R I w} (h : Goes F S sym l ρ t ρ')
    (h' : Goes F S sym l ρ t' ρ'') : t' = t ∧ ρ'' = ρ' := by
  induction h with
  | here hl =>
    cases h' with
    | here => exact ⟨rfl, rfl⟩
    | transit hnot => exact absurd hl hnot
  | transit hnot hb hrun _ ih =>
    cases h' with
    | here hl => exact absurd hl hnot
    | transit _ hb' hrun' hrest' =>
      rw [hb] at hb'
      cases hb'
      rw [hrun] at hrun'
      cases hrun'
      exact ih hrest'

/-- And arrives at one block only. -/
theorem Arrives.unique {code : List I} {t t' : BlockId} {ρ ρ' ρ'' : Regs R I w}
    (h : Arrives F S sym code ρ t ρ') (h' : Arrives F S sym code ρ t' ρ'') :
    t' = t ∧ ρ'' = ρ' := by
  obtain ⟨l, ρ₁, hrun, hgoes⟩ := h
  obtain ⟨l', ρ₁', hrun', hgoes'⟩ := h'
  rw [hrun] at hrun'
  cases hrun'
  exact hgoes.unique hgoes'

end

/-! ## One edge -/

/-- What an edge with the copies `phis` does to the registers: every destination holds what its
operand held before, and nothing else changes but the registers allocated on the way. -/
structure EdgeEffect (m : ModuleCore) (symbols : HashMap String SymbolId)
    (S : FunctionLoweringState) (sym : SymbolId → BitVec w) (phis : List (VRegId × ValueId))
    (c c' : Nat) (ρ ρ' : Regs R I w) : Prop where
  copied : ∀ p ∈ phis, operandValue m symbols S sym ρ p.2 = some (ρ'.get (.virtual p.1))
  frame : ∀ x, x ∉ copyDsts phis → ¬ Allocated c c' x → ρ'.get x = ρ.get x

/-- The blocks of `F'` behind those of `F` are blocks of `G`. -/
def HasNewBlocks (F F' G : MachineFunction R I) : Prop :=
  ∀ k b, F.blocks.length ≤ k → F'.blocks[k]? = some b → G.blocks[k]? = some b

section

variable {m : ModuleCore} {symbols : HashMap String SymbolId} {S : FunctionLoweringState}
  {sym : SymbolId → BitVec w} {blocks : List BlockRef} {F F' G : MachineFunction R I}
  {order : KeyOrder (Register R) (List (Register R))}

omit [DecidableEq R] in
/-- A block behind the lowered ones has none lowered into it. -/
theorem Prepared.not_lowered (h : Prepared m blocks S F) {k : Nat} (hk : F.blocks.length ≤ k) :
    ¬ S.Lowered k := by
  rintro ⟨b, hb⟩
  have hlt := h.numbers.lt hb
  have hle := h.length_le
  exact absurd (hlt.trans_le (hle.trans hk)) (Nat.lt_irrefl k)

/-- The effect of copies. -/
theorem EdgeEffect.of_emits {phis : List (VRegId × ValueId)} {e e' : Emitter I}
    {ρ ρ' : Regs R I w} (h : Emits sym (copyDsts phis) e e' ρ ρ')
    (hcopied : ∀ p ∈ phis, operandValue m symbols S sym ρ p.2 = some (ρ'.get (.virtual p.1))) :
    EdgeEffect m symbols S sym phis e.vregCounter e'.vregCounter ρ ρ' :=
  ⟨hcopied, h.frame⟩

/-- Code in front of an edge that leaves the registers of the values alone. -/
theorem EdgeEffect.after {phis : List (VRegId × ValueId)} {a b c c' : Nat}
    {e e' : Emitter I} {ρ ρ₁ ρ' : Regs R I w} (h : EdgeEffect m symbols S sym phis a b ρ₁ ρ')
    (hemits : Emits sym [] e e' ρ ρ₁) (hS : S.Below e.vregCounter) (hca : c ≤ a) (hbc : b ≤ c')
    (hce : c ≤ e.vregCounter) (hec : e'.vregCounter ≤ c') :
    EdgeEffect m symbols S sym phis c c' ρ ρ' where
  copied := by
    intro p hp
    rw [← h.copied p hp]
    exact (operandValue_congr (fun v r hr => hemits.get_old (hS v r hr) List.not_mem_nil) p.2).symm
  frame := by
    intro x hx hnot
    rw [h.frame x hx fun ha => hnot (ha.mono hca hbc)]
    exact hemits.frame x List.not_mem_nil fun ha => hnot (ha.mono hce hec)

variable [LawfulMachine R w I]

/-- Code with a jump behind it. -/
theorem runInsts_jump {e e' : Emitter I} {ws : List (Register R)} {ρ ρ' : Regs R I w}
    (h : Emits sym ws e e' ρ ρ') (he : e.out = []) (l : BlockId) :
    runInsts sym (e'.out ++ [emitJump l]) ρ = some (ρ', some l) := by
  obtain ⟨code, hout, hrun⟩ := h.run
  rw [hout, he, List.nil_append, runInsts_append hrun,
    runInsts_taken _ (LawfulMachine.branch_jump l ρ'.get)]

variable (sym) in
/-- An edge of a conditional branch: going to its block makes the copies and arrives. -/
theorem edgeBlock_effect (hP : Prepared m blocks S F)
    (hphis : (blocks.flatMap (blockPhis m)).Nodup) {b : BlockRef} (hb : b ∈ blocks)
    {target l : BlockId} (ht : S.blockId b = some target) {pid : BlockId}
    (h : edgeBlock m symbols order S pid target F = some (l, F')) :
    Appends F F' ∧ ∀ G : MachineFunction R I, G.Indexed → HasNewBlocks F F' G → ∀ ρ : Regs R I w,
      ∃ ρ', Goes G S sym l ρ target ρ' ∧
        EdgeEffect m symbols S sym (edgePhis S pid target) F.vregCounter F'.vregCounter ρ ρ' := by
  simp only [edgeBlock] at h
  split at h
  · next hempty =>
    cases h
    rw [List.isEmpty_iff.mp hempty]
    exact ⟨Appends.refl F, fun G _ _ ρ => ⟨ρ, .here ⟨b, ht⟩, by simp, fun _ _ _ => rfl⟩⟩
  · obtain ⟨e, hcopy, h⟩ := Option.bind_eq_some_iff.mp h
    cases h
    obtain ⟨hnodup, hlt⟩ := edgePhis_dsts hP hphis hb ht pid
    have hemits := parallelCopy_emits sym hcopy hP.vregs.below hnodup hlt
    have hcounter : F.vregCounter ≤ e.vregCounter := by
      obtain ⟨ρ', hrun, -⟩ := hemits ⟨fun _ => 0, rfl⟩
      exact hrun.counter_le
    refine ⟨((Appends.refl F).setCounter hcounter).pushBlock _, ?_⟩
    intro G hG hnew ρ
    obtain ⟨ρ', hrun, hcopied⟩ := hemits ρ
    have hblock : G.getBlock F.blocks.length =
        some ⟨F.blocks.length, e.out ++ [emitJump target]⟩ :=
      hG.getBlock (hnew _ _ le_rfl (by simp [MachineFunction.pushBlock]))
    exact ⟨ρ', .transit (hP.not_lowered le_rfl) hblock (runInsts_jump hrun rfl target)
      (.here ⟨b, ht⟩), EdgeEffect.of_emits hrun hcopied⟩

omit [DecidableEq R] in
/-- A comparison and a branch go to their label or fall through. -/
theorem branch_emitIcmpBranch (icmpCode : Ir.ICmpCode) (rs1 rs2 : Register R) (label : BlockId)
    (g : Register R → BitVec w) :
    MachineSemantics.branch (emitIcmpBranch icmpCode rs1 rs2 label : I) g = some (some label) ∨
      MachineSemantics.branch (emitIcmpBranch icmpCode rs1 rs2 label : I) g = some none := by
  cases icmpCode <;>
    simp only [emitIcmpBranch, LawfulMachine.branch_eq, LawfulMachine.branch_ne,
      LawfulMachine.branch_lt, LawfulMachine.branch_ge, LawfulMachine.branch_ltu,
      LawfulMachine.branch_geu] <;>
    split <;> simp

/-- Integer types have at least one bit. -/
def IntTypesWf (m : ModuleCore) : Prop :=
  ∀ v bits, m.valueTy v = some (.int bits) → 1 ≤ bits

variable (sym) in
/-- Normalizing an operand of a comparison writes new registers only. -/
theorem normalizeIcmpOperand_emits (hm : IntTypesWf m) {icmpCode : Ir.ICmpCode} {value : ValueId}
    {rs r : Register R} {e e' : Emitter I}
    (h : normalizeIcmpOperand m icmpCode value rs e = some (r, e')) (ρ : Regs R I w) :
    ∃ ρ', Emits sym [] e e' ρ ρ' := by
  obtain ⟨bits, hbits, h⟩ := Option.bind_eq_some_iff.mp h
  cases bits with
  | none =>
    cases h
    exact ⟨ρ, Emits.refl _ ρ⟩
  | some bits =>
    refine emitNormalizedIntOperand_emits sym ?_ h ρ
    obtain ⟨ty, hty, hint⟩ := Option.bind_eq_some_iff.mp hbits
    cases ty with
    | int n =>
      cases hint
      exact hm value bits hty
    | _ => cases hint

variable (sym) in
/-- The test of a conditional branch: new registers only, and then a branch to the label. -/
theorem lowerTest_emits (hm : IntTypesWf m) {cond : ValueId} {label : BlockId} {e e' : Emitter I}
    (h : lowerTest m symbols S cond label e = some e') (hS : S.Below e.vregCounter)
    (ρ : Regs R I w) :
    ∃ e₁ i ρ₁, Emits sym [] e e₁ ρ ρ₁ ∧ e' = e₁.push i ∧
      (MachineSemantics.branch i ρ₁.get = some (some label) ∨
        MachineSemantics.branch i ρ₁.get = some none) := by
  obtain ⟨icmp, -, h⟩ := Option.bind_eq_some_iff.mp h
  cases icmp with
  | none =>
    obtain ⟨⟨r, e₁⟩, hop, h⟩ := Option.bind_eq_some_iff.mp h
    cases h
    obtain ⟨ρ₁, hemits, -, -⟩ := lowerOperand_emits sym hop hS ρ
    refine ⟨e₁, _, ρ₁, hemits, rfl, ?_⟩
    rw [LawfulMachine.branch_ne]
    split <;> simp
  | some icmp =>
    obtain ⟨icmpCode, lhs, rhs⟩ := icmp
    obtain ⟨⟨rs1, rs2, e₄⟩, hops, h⟩ := Option.bind_eq_some_iff.mp h
    cases h
    obtain ⟨⟨r1, e₁⟩, hlhs, hops⟩ := Option.bind_eq_some_iff.mp hops
    obtain ⟨⟨r2, e₂⟩, hrhs, hops⟩ := Option.bind_eq_some_iff.mp hops
    obtain ⟨⟨s1, e₃⟩, hn1, hops⟩ := Option.bind_eq_some_iff.mp hops
    obtain ⟨⟨s2, e₄'⟩, hn2, hops⟩ := Option.bind_eq_some_iff.mp hops
    cases hops
    obtain ⟨ρ₁, hemits₁, -, -⟩ := lowerOperand_emits sym hlhs hS ρ
    obtain ⟨ρ₂, hemits₂, -, -⟩ := lowerOperand_emits sym hrhs (hS.mono hemits₁.counter_le) ρ₁
    obtain ⟨ρ₃, hemits₃⟩ := normalizeIcmpOperand_emits sym hm hn1 ρ₂
    obtain ⟨ρ₄, hemits₄⟩ := normalizeIcmpOperand_emits sym hm hn2 ρ₃
    exact ⟨e₄, _, ρ₄, ((hemits₁.trans hemits₂).trans hemits₃).trans hemits₄, rfl,
      branch_emitIcmpBranch ..⟩

/-- The blocks a branch of the block `p` names. -/
def branchTargets (p : BlockRef) (thenBlock : Ir.BlockId) (cond : Option CondBranch) :
    List BlockRef :=
  ⟨p.func, thenBlock⟩ :: cond.toList.map fun c => ⟨p.func, c.elseBlock⟩

variable (sym) in
/-- The code of a branch, in every function that has its transit blocks: from any registers it
arrives at one of the targets, with the copies of that edge made. -/
theorem lowerBranch_effect (hP : Prepared m blocks S F)
    (hphis : (blocks.flatMap (blockPhis m)).Nodup) (hm : IntTypesWf m) {p : BlockRef}
    {pid : BlockId} {thenBlock : Ir.BlockId} {cond : Option CondBranch} {code : List I}
    (h : lowerBranch m symbols order S p pid thenBlock cond F = some (code, F')) :
    Appends F F' ∧ ∀ G : MachineFunction R I, G.Indexed → HasNewBlocks F F' G → ∀ ρ : Regs R I w,
      ∃ b ∈ branchTargets p thenBlock cond, ∃ t ρ', S.blockId b = some t ∧
        Arrives G S sym code ρ t ρ' ∧
        EdgeEffect m symbols S sym (edgePhis S pid t) F.vregCounter F'.vregCounter ρ ρ' := by
  cases cond with
  -- one successor: the copies stand in front of the jump
  | none =>
    obtain ⟨t, ht, h⟩ := Option.bind_eq_some_iff.mp h
    obtain ⟨e, hcopy, h⟩ := Option.bind_eq_some_iff.mp h
    cases h
    have hb := hP.numbers.mem ht
    have hemits : ∀ ρ : Regs R I w, ∃ ρ',
        Emits sym (copyDsts (edgePhis S pid t)) ⟨[], F.vregCounter⟩ e ρ ρ' ∧
        ∀ q ∈ edgePhis S pid t,
          operandValue m symbols S sym ρ q.2 = some (ρ'.get (.virtual q.1)) := by
      intro ρ
      unfold copyPhis at hcopy
      split at hcopy
      · next hempty =>
        cases hcopy
        rw [List.isEmpty_iff.mp hempty]
        exact ⟨ρ, Emits.refl _ ρ, by simp⟩
      · obtain ⟨hnodup, hlt⟩ := edgePhis_dsts hP hphis hb ht pid
        exact parallelCopy_emits sym hcopy hP.vregs.below hnodup hlt ρ
    have hcounter : F.vregCounter ≤ e.vregCounter := by
      obtain ⟨ρ', hrun, -⟩ := hemits ⟨fun _ => 0, rfl⟩
      exact hrun.counter_le
    refine ⟨(Appends.refl F).setCounter hcounter, fun G _ _ ρ => ?_⟩
    obtain ⟨ρ', hrun, hcopied⟩ := hemits ρ
    exact ⟨_, List.mem_cons_self, t, ρ', ht, ⟨t, ρ', runInsts_jump hrun rfl t, .here ⟨_, ht⟩⟩,
      EdgeEffect.of_emits hrun hcopied⟩
  -- two successors: each edge has its own transit block, or none where it copies nothing
  | some c =>
    obtain ⟨t₁, ht₁, h⟩ := Option.bind_eq_some_iff.mp h
    obtain ⟨t₂, ht₂, h⟩ := Option.bind_eq_some_iff.mp h
    obtain ⟨⟨l₁, F₁⟩, hedge₁, h⟩ := Option.bind_eq_some_iff.mp h
    obtain ⟨⟨l₂, F₂⟩, hedge₂, h⟩ := Option.bind_eq_some_iff.mp h
    obtain ⟨e, htest, h⟩ := Option.bind_eq_some_iff.mp h
    cases h
    obtain ⟨happ₁, heff₁⟩ :=
      edgeBlock_effect sym hP hphis (hP.numbers.mem ht₁) ht₁ hedge₁
    have hP₁ := hP.appends happ₁
    obtain ⟨happ₂, heff₂⟩ :=
      edgeBlock_effect sym hP₁ hphis (hP.numbers.mem ht₂) ht₂ hedge₂
    have hS₂ := (hP₁.appends happ₂).vregs.below
    have hcounter : F₂.vregCounter ≤ e.vregCounter := by
      obtain ⟨e₁, i, ρ₁, hemits, rfl, -⟩ :=
        lowerTest_emits sym hm htest hS₂ (⟨fun _ => 0, rfl⟩ : Regs R I w)
      exact hemits.counter_le
    refine ⟨(happ₁.trans happ₂).setCounter hcounter, fun G hG hnew ρ => ?_⟩
    obtain ⟨e₁, i, ρ₁, hemits, rfl, hbranch⟩ := lowerTest_emits sym hm htest hS₂ ρ
    have hle₁ := happ₁.counter_le
    have hle₂ := happ₂.counter_le
    obtain ⟨test, hout, htestrun⟩ := hemits.run
    have hrun : ∀ {target : Option BlockId}, MachineSemantics.branch i ρ₁.get = some target →
        runInsts sym ((e₁.push i).out ++ [emitJump l₂]) ρ = some (ρ₁, some (target.getD l₂)) := by
      intro target htarget
      have hcode : (e₁.push i).out ++ [emitJump l₂] = test ++ [i, emitJump l₂] := by
        simp [Emitter.push, hout]
      rw [hcode, runInsts_append htestrun]
      cases target with
      | none =>
        rw [runInsts_fall _ htarget, runInsts_taken _ (LawfulMachine.branch_jump l₂ ρ₁.get)]
        rfl
      | some l => rw [runInsts_taken _ htarget]; rfl
    -- the branch is taken, or falls through to the jump behind it
    rcases hbranch with htaken | hfall
    · have hnew₁ : HasNewBlocks F F₁ G := fun k b hk hb => hnew k b hk (happ₂.getElem? hb)
      obtain ⟨ρ', hgoes, heff⟩ := heff₁ G hG hnew₁ ρ₁
      exact ⟨_, List.mem_cons_self, t₁, ρ', ht₁, ⟨l₁, ρ₁, hrun htaken, hgoes⟩,
        heff.after hemits hS₂ le_rfl (hle₂.trans hemits.counter_le) (hle₁.trans hle₂) le_rfl⟩
    · have hnew₂ : HasNewBlocks F₁ F₂ G := fun k b hk hb =>
        hnew k b (happ₁.length_le.trans hk) hb
      obtain ⟨ρ', hgoes, heff⟩ := heff₂ G hG hnew₂ ρ₁
      exact ⟨_, List.mem_cons_of_mem _ List.mem_cons_self, t₂, ρ', ht₂,
        ⟨l₂, ρ₁, hrun hfall, hgoes⟩,
        heff.after hemits hS₂ hle₁ hemits.counter_le (hle₁.trans hle₂) le_rfl⟩

/-! ## Whole functions -/

/-- The code of the instructions of the block `id` extends that block and adds blocks behind. -/
structure Grows (id : BlockId) (F F' : MachineFunction R I) : Prop where
  counter_le : F.vregCounter ≤ F'.vregCounter
  indexed : F'.Indexed
  length_le : F.blocks.length ≤ F'.blocks.length
  other : ∀ k b, k ≠ id → F.blocks[k]? = some b → F'.blocks[k]? = some b

omit [LawfulMachine R w I] [DecidableEq R] in
theorem Grows.trans {id : BlockId} {F F' F'' : MachineFunction R I} (h : Grows id F F')
    (h' : Grows id F' F'') : Grows id F F'' :=
  ⟨h.counter_le.trans h'.counter_le, h'.indexed, h.length_le.trans h'.length_le,
    fun k b hk hb => h'.other k b hk (h.other k b hk hb)⟩

omit [LawfulMachine R w I] [DecidableEq R] in
/-- Lowering a block keeps what the lowering rests on. -/
theorem Prepared.grows {id : BlockId} (h : Prepared m blocks S F) (hg : Grows id F F') :
    Prepared m blocks S F' where
  numbers := h.numbers
  vregs := ⟨h.vregs.below.mono hg.counter_le, h.vregs.inj⟩
  infos := h.infos
  indexed := hg.indexed
  length_le := h.length_le.trans hg.length_le

variable {others : OtherLowering R I}

/-- Lowering one instruction appends blocks. -/
theorem lowerInstruction_appends (hP : Prepared m blocks S F)
    (hphis : (blocks.flatMap (blockPhis m)).Nodup) (hm : IntTypesWf m) {p : BlockRef}
    {pid : BlockId} {inst : InstRef} {insts : List I}
    (h : lowerInstruction m symbols order others S p pid inst F = some (insts, F')) :
    Appends F F' := by
  obtain ⟨d, -, h⟩ := Option.bind_eq_some_iff.mp h
  split at h
  · exact (lowerBranch_effect (fun _ => 0) hP hphis hm h).1
  · obtain ⟨_, -, h⟩ := Option.bind_eq_some_iff.mp h
    cases h
    exact Appends.refl F
  · obtain ⟨code, -, h⟩ := Option.bind_eq_some_iff.mp h
    cases h
    exact ⟨Nat.le_add_right _ _, ⟨[], (List.append_nil _).symm⟩, id⟩

omit [LawfulMachine R w I] [DecidableEq R] in
/-- Appending to the block `id` after more blocks have come. -/
theorem Appends.grows {id : BlockId} {insts : List I} {F'' : MachineFunction R I}
    (h : Appends F F') (hF : F.Indexed) (hext : F'.extendBlock id insts = some F'') :
    Grows id F F'' := by
  obtain ⟨-, rfl⟩ := (h.indexed hF).extendBlock hext
  refine ⟨h.counter_le, (h.indexed hF).append _ _, ?_, ?_⟩
  · rw [List.length_modify]
    exact h.length_le
  · intro k b hk hb
    rw [List.getElem?_modify, h.getElem? hb]
    simp [Ne.symm hk]

/-- Its code goes to the end of the block. -/
theorem lowerInto_grows (hP : Prepared m blocks S F)
    (hphis : (blocks.flatMap (blockPhis m)).Nodup) (hm : IntTypesWf m) {p : BlockRef}
    {pid : BlockId} {inst : InstRef}
    (h : lowerInto m symbols order others S p pid F inst = some F') : Grows pid F F' := by
  obtain ⟨⟨insts, F₁⟩, hinst, hext⟩ := Option.bind_eq_some_iff.mp h
  exact (lowerInstruction_appends hP hphis hm hinst).grows hP.indexed hext

/-- Several instructions. -/
theorem lowerInto_loop (hP : Prepared m blocks S F)
    (hphis : (blocks.flatMap (blockPhis m)).Nodup) (hm : IntTypesWf m) {p : BlockRef}
    {pid : BlockId} {insts : List InstRef}
    (h : insts.foldlM (lowerInto m symbols order others S p pid) F = some F') :
    Grows pid F F' := by
  induction insts generalizing F with
  | nil =>
    cases h
    exact ⟨le_rfl, hP.indexed, le_rfl, fun _ _ _ hb => hb⟩
  | cons inst insts ih =>
    rw [List.foldlM_cons] at h
    obtain ⟨F₁, hstep, h⟩ := Option.bind_eq_some_iff.mp h
    have hg := lowerInto_grows hP hphis hm hstep
    exact hg.trans (ih (hP.grows hg) h)

/-- The lowering of a block, up to its terminator and then the terminator. -/
theorem lowerBlock_cases {p : BlockRef} (hP : Prepared m blocks S F)
    (hphis : (blocks.flatMap (blockPhis m)).Nodup) (hm : IntTypesWf m)
    (h : lowerBlock m symbols order others S F p = some F') :
    ∃ pid F₁, S.blockId p = some pid ∧ Grows pid F F₁ ∧
      ((m.terminator p = some none ∧ F' = F₁) ∨
        ∃ inst, m.terminator p = some (some inst) ∧
          lowerInto m symbols order others S p pid F₁ inst = some F') := by
  obtain ⟨pid, hid, h⟩ := Option.bind_eq_some_iff.mp h
  obtain ⟨phis, -, h⟩ := Option.bind_eq_some_iff.mp h
  obtain ⟨F₁, hloop₁, h⟩ := Option.bind_eq_some_iff.mp h
  obtain ⟨insts, -, h⟩ := Option.bind_eq_some_iff.mp h
  obtain ⟨F₂, hloop₂, h⟩ := Option.bind_eq_some_iff.mp h
  obtain ⟨term, hterm, h⟩ := Option.bind_eq_some_iff.mp h
  have hg₁ := lowerInto_loop hP hphis hm hloop₁
  have hg₂ := lowerInto_loop (hP.grows hg₁) hphis hm hloop₂
  refine ⟨pid, F₂, hid, hg₁.trans hg₂, ?_⟩
  cases term with
  | none =>
    cases h
    exact Or.inl ⟨hterm, rfl⟩
  | some inst => exact Or.inr ⟨inst, hterm, h⟩

/-- A whole block. -/
theorem lowerBlock_grows {p : BlockRef} (hP : Prepared m blocks S F)
    (hphis : (blocks.flatMap (blockPhis m)).Nodup) (hm : IntTypesWf m)
    (h : lowerBlock m symbols order others S F p = some F') :
    ∃ pid, S.blockId p = some pid ∧ Grows pid F F' := by
  obtain ⟨pid, F₁, hid, hg, hcases⟩ := lowerBlock_cases hP hphis hm h
  refine ⟨pid, hid, ?_⟩
  rcases hcases with ⟨-, rfl⟩ | ⟨inst, -, hinto⟩
  · exact hg
  · exact hg.trans (lowerInto_grows (hP.grows hg) hphis hm hinto)

/-- The blocks that are lowered leave those of other ids. -/
theorem lowerBlock_loop {l : List BlockRef} (hP : Prepared m blocks S F)
    (hphis : (blocks.flatMap (blockPhis m)).Nodup) (hm : IntTypesWf m)
    (h : l.foldlM (lowerBlock m symbols order others S) F = some F') :
    Prepared m blocks S F' ∧ ∀ k b, (∀ p ∈ l, S.blockId p ≠ some k) → F.blocks[k]? = some b →
      F'.blocks[k]? = some b := by
  induction l generalizing F with
  | nil =>
    cases h
    exact ⟨hP, fun _ _ _ hb => hb⟩
  | cons p l ih =>
    rw [List.foldlM_cons] at h
    obtain ⟨F₁, hstep, h⟩ := Option.bind_eq_some_iff.mp h
    obtain ⟨pid, hid, hg⟩ := lowerBlock_grows hP hphis hm hstep
    obtain ⟨hP', hkeep⟩ := ih (hP.grows hg) h
    refine ⟨hP', fun k b hk hb => hkeep k b (fun q hq => hk q (List.mem_cons_of_mem _ hq)) ?_⟩
    refine hg.other k b (fun heq => hk p List.mem_cons_self ?_) hb
    rw [hid, heq]

/-- The code of a branch in the finished function: at the end of the block, with its transit
blocks. -/
theorem lowerFunction_branch {f : FunctionId} (hblocks : m.blocksInOrder f = some blocks)
    (hnodup : blocks.Nodup) (hphis : (blocks.flatMap (blockPhis m)).Nodup) (hm : IntTypesWf m)
    (h : lowerFunction m symbols order others f = some (S, F)) {p : BlockRef} (hp : p ∈ blocks)
    {inst : InstRef} (hterm : m.terminator p = some (some inst)) {d : Ir.InstData}
    (hd : m.inst inst = some d) {thenBlock : Ir.BlockId} {cond : Option CondBranch}
    (hkind : d.kind = .branch thenBlock cond) :
    ∃ pid code F₁ F₂, S.blockId p = some pid ∧ Prepared m blocks S F₁ ∧
      lowerBranch m symbols order S p pid thenBlock cond F₁ = some (code, F₂) ∧
      Prepared m blocks S F ∧ HasNewBlocks F₁ F₂ F ∧
      ∃ b pre, F.getBlock pid = some b ∧ b.instructions = pre ++ code := by
  obtain ⟨F₀, hP₀, hloop⟩ := lowerFunction_prepared hblocks hnodup hphis h
  obtain ⟨l₁, l₂, rfl⟩ := List.append_of_mem hp
  obtain ⟨Fa, hloop₁, hloop⟩ := OptionFold.append_eq_some.mp hloop
  obtain ⟨Fb, hblock, hloop₂⟩ := OptionFold.cons_eq_some.mp hloop
  obtain ⟨hPa, -⟩ := lowerBlock_loop hP₀ hphis hm hloop₁
  obtain ⟨pid, F₁, hid, hg, hcases⟩ := lowerBlock_cases hPa hphis hm hblock
  have hP₁ := hPa.grows hg
  rcases hcases with ⟨hnone, -⟩ | ⟨inst', hterm', hinto⟩
  · rw [hterm] at hnone
    cases hnone
  rw [hterm] at hterm'
  cases hterm'
  obtain ⟨⟨code, F₂⟩, hlower, hext⟩ := Option.bind_eq_some_iff.mp hinto
  obtain ⟨d', hd', hlower⟩ := Option.bind_eq_some_iff.mp hlower
  rw [hd] at hd'
  cases hd'
  simp only [hkind] at hlower
  have happ := (lowerBranch_effect (fun _ => 0) hP₁ hphis hm hlower).1
  have hPb := hP₁.grows (happ.grows hP₁.indexed hext)
  obtain ⟨hP, hkeep⟩ := lowerBlock_loop hPb hphis hm hloop₂
  obtain ⟨hlt, hFb⟩ := (happ.indexed hP₁.indexed).extendBlock hext
  -- the later blocks are different ones
  have hrest : ∀ k, (k = pid ∨ F₁.blocks.length ≤ k) → ∀ q ∈ l₂, S.blockId q ≠ some k := by
    intro k hk q hq hqk
    rcases hk with rfl | hk
    · have hsame := hP.numbers.inj hqk hid
      have hnd := (List.nodup_cons.mp (List.nodup_append.mp hnodup).2.1).1
      exact hnd (hsame ▸ hq)
    · exact hP₁.not_lowered hk ⟨q, hqk⟩
  refine ⟨pid, code, F₁, F₂, hid, hP₁, hlower, hP, ?_, ?_⟩
  -- the transit blocks made for the branch are kept by everything that follows
  · intro k b hk hb
    refine hkeep k b (hrest k (Or.inr hk)) ?_
    have hne : k ≠ pid := by
      rintro rfl
      exact hP₁.not_lowered hk ⟨p, hid⟩
    rw [hFb]
    dsimp only
    rw [List.getElem?_modify, hb]
    simp [Ne.symm hne]
  · obtain ⟨b, hb⟩ : ∃ b, F₂.blocks[pid]? = some b := ⟨_, List.getElem?_eq_getElem hlt⟩
    refine ⟨{ b with instructions := b.instructions ++ code }, b.instructions, ?_, rfl⟩
    refine hP.indexed.getBlock (hkeep pid _ (hrest pid (Or.inl rfl)) ?_)
    rw [hFb]
    dsimp only
    rw [List.getElem?_modify, hb]
    simp

end

end Mir
