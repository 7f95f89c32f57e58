import C0mpiler.Ir.TerminatorEdits
import C0mpiler.Opt.Strength
import Mathlib

/-!
# Merging returns

`func_merge_return` gives a function with several returns one more block, which holds the only
return, and makes a jump to it of each old one. The value returned is a phi of the values the old
returns had. Here: the pass, and the code it leaves (`Merged`).
-/

namespace Ir

def InstKind.isRet : InstKind → Bool
  | .ret _ => true
  | _ => false

namespace FunctionData

variable (function : FunctionData)

/-- The returns of the arena, in its `slots` order. -/
def returnInsts (slots : SlotOrder) (id : FunctionId) : List InstId :=
  (function.insts.keysIn slots id).filter fun i => (function.insts.get? i).any (·.kind.isRet)

/-- The incoming of the phi for a return and its index. -/
def returnIncoming (entry : InstId × Nat) : Option (Nat × PhiIncoming) := do
  let ret ← function.insts.get? entry.1
  match ret.kind with
  | .ret (some value) => do
    let parent ← ret.parent
    some (entry.2, ⟨parent.block, value⟩)
  | _ => none

end FunctionData

namespace ModuleCore

variable (m : ModuleCore)

/-- The return of the new block. -/
def mergedReturn (id : FunctionId) (newBlock : BlockRef) (returnInsts : List InstId) :
    Option ModuleCore := do
  let function ← m.func id
  let ty := function.ty.returnType
  if ty ≠ .void then
    let incomings ← returnInsts.zipIdx.mapM function.returnIncoming
    let incomings := HashMap.collect incomings
    let (phi, m) ← m.newInst id ty (.phi incomings incomings.entries.length) none
    let m ← m.appendPhi newBlock phi
    let (ret, m) ← m.newInst id .void (.ret (some (.inst phi))) none
    m.setTerminator newBlock ret
  else
    let (ret, m) ← m.newInst id .void (.ret none) none
    m.setTerminator newBlock ret

/-- The body of the last loop. -/
def jumpTo (id : FunctionId) (newBlock : BlockId) (inst : InstId) : Option ModuleCore := do
  let (jal, m) ← m.newInst id .void (.branch newBlock none) none
  m.overwriteInst ⟨id, inst⟩ jal

def funcMergeReturn (slots : SlotOrder) (id : FunctionId) : Option ModuleCore := do
  let function ← m.func id
  if function.isDeclare then some m
  else
    let returnInsts := function.returnInsts slots id
    if returnInsts.length ≤ 1 then some m
    else
      let (newBlock, m) ← m.appendBlock id (some ".ret")
      let m ← m.mergedReturn id newBlock returnInsts
      returnInsts.foldlM (fun m inst => m.jumpTo id newBlock.block inst) m

def optMergeReturn (slots : SlotOrder) : Option ModuleCore :=
  m.functionsInOrder.foldlM (fun m id => m.funcMergeReturn slots id) m

end ModuleCore

/-! ## One return becomes a jump -/

/-- The block with another terminator, where that is one of `rets`. -/
def BlockData.retarget (bd : BlockData) (rets : List InstId) (jump : InstId → InstId) : BlockData :=
  { bd with terminator := bd.terminator.map fun t => if t ∈ rets then jump t else t }

namespace Code

/-- The return `i` at the end of `b`, which is the terminator of no other block. -/
structure ReturnAt (C : Code) (f : FunctionId) (i : InstId) (b : BlockId)
    (value : Option ValueId) : Prop where
  inst : ∃ name, C.inst ⟨f, i⟩ = some ⟨some ⟨f, b⟩, .void, .ret value, [], name⟩
  block : ∃ bd, C.block ⟨f, b⟩ = some bd ∧ bd.terminator = some i ∧ i ∉ bd.insts ∧ i ∉ bd.phis
  only : ∀ b' bd, C.block ⟨f, b'⟩ = some bd → bd.terminator = some i → b' = b
  value : ∀ v ∈ value, ∃ ty, C.valueTy v = some ty ∧ ty ≠ .void

/-- The code with the return `i` at the end of `b` replaced by the jump `jal` to `nb`. -/
def jumpAt (C : Code) (f : FunctionId) (nb : BlockId) (i : InstId) (b : BlockId) (jal : InstId) :
    Code :=
  { C with
    inst := Function.update (Function.update C.inst ⟨f, jal⟩
      (some ⟨some ⟨f, b⟩, .void, .branch nb none, [], none⟩)) ⟨f, i⟩ none
    block := Function.update C.block ⟨f, b⟩
      ((C.block ⟨f, b⟩).map fun bd => { bd with terminator := some jal }) }

/-- `C'` is `C` with jumps to `nb` in the place of the returns `rets`. -/
structure Jumps (C C' : Code) (f : FunctionId) (nb : BlockId) (rets : List InstId)
    (jump : InstId → InstId) : Prop where
  jumps : ∀ i ∈ rets, ∀ b value, C.ReturnAt f i b value →
    C'.inst ⟨f, jump i⟩ = some ⟨some ⟨f, b⟩, .void, .branch nb none, [], none⟩
  erased : ∀ i ∈ rets, C'.inst ⟨f, i⟩ = none
  insts : ∀ r, (∀ i ∈ rets, r ≠ ⟨f, i⟩ ∧ r ≠ ⟨f, jump i⟩) → C'.inst r = C.inst r
  block : ∀ b, C'.block b =
    if b.func = f then (C.block b).map (·.retarget rets jump) else C.block b
  rest : C'.func = C.func ∧ C'.arg = C.arg ∧ C'.global = C.global ∧ C'.constData = C.constData

variable {C : Code} {f : FunctionId} {nb b jal : Nat} {i : InstId}

theorem jumpAt_inst_of_ne {r : InstRef} (hi : r ≠ ⟨f, i⟩) (hjal : r ≠ ⟨f, jal⟩) :
    (C.jumpAt f nb i b jal).inst r = C.inst r := by
  show Function.update (Function.update C.inst _ _) _ _ r = C.inst r
  rw [Function.update_of_ne hi, Function.update_of_ne hjal]

theorem jumpAt_block_of_ne {b' : BlockRef} (h : b' ≠ ⟨f, b⟩) :
    (C.jumpAt f nb i b jal).block b' = C.block b' := Function.update_of_ne h _ _

/-- The other returns stay where they are. -/
theorem ReturnAt.jumpAt {i' : InstId} {b' : BlockId} {value value' : Option ValueId}
    (h : C.ReturnAt f i b value) (h' : C.ReturnAt f i' b' value') (hne : i' ≠ i)
    (hfresh : C.inst ⟨f, jal⟩ = none) : (C.jumpAt f nb i b jal).ReturnAt f i' b' value' where
  inst := by
    obtain ⟨name, hinst⟩ := h'.inst
    -- the return stays: only instruction `i` changes, and `jal` is new
    refine ⟨name, ?_⟩
    rw [jumpAt_inst_of_ne (fun heq => hne (InstRef.mk.inj heq).2) fun heq => ?_, hinst]
    rw [heq, hfresh] at hinst
    cases hinst
  block := by
    obtain ⟨bd, hb, hterm, hnot⟩ := h'.block
    refine ⟨bd, ?_, hterm, hnot⟩
    rw [jumpAt_block_of_ne, hb]
    intro heq
    obtain ⟨bd₀, hb₀, hterm₀, -⟩ := h.block
    rw [heq, hb₀] at hb
    cases hb
    rw [hterm₀] at hterm
    exact hne (Option.some.inj hterm).symm
  only b'' bd hb hterm := by
    -- its block stays, or is the block of `i`, whose terminator is the jump
    by_cases hbb : (⟨f, b''⟩ : BlockRef) = ⟨f, b⟩
    · rw [hbb] at hb
      obtain ⟨bd₀, hb₀, -⟩ := h.block
      have hnew : (C.jumpAt f nb i b jal).block ⟨f, b⟩ = some { bd₀ with terminator := some jal } := by
        show Function.update C.block ⟨f, b⟩ _ ⟨f, b⟩ = _
        rw [Function.update_self, hb₀, Option.map_some]
      rw [hnew] at hb
      cases hb
      obtain rfl : jal = i' := Option.some.inj hterm
      obtain ⟨name, hinst⟩ := h'.inst
      rw [hfresh] at hinst
      cases hinst
    · rw [jumpAt_block_of_ne hbb] at hb
      exact h'.only b'' bd hb hterm
  value v hv := by
    obtain ⟨ty, hty, hvoid⟩ := h'.value v hv
    refine ⟨ty, ?_, hvoid⟩
    -- the value returned is defined by an instruction that stays, or is a constant
    cases v with
    | inst r =>
      obtain ⟨d, hd, hdty⟩ := Option.map_eq_some_iff.mp hty
      refine Option.map_eq_some_iff.mpr ⟨d, ?_, hdty⟩
      rw [jumpAt_inst_of_ne (fun heq => ?_) fun heq => ?_, hd]
      · -- a return has no value
        obtain ⟨name, hinst⟩ := h.inst
        rw [heq, hinst] at hd
        cases hd
        exact hvoid hdty.symm
      · rw [heq, hfresh] at hd
        cases hd
    | _ => exact hty

theorem ReturnAt.unique {b' : BlockId} {value value' : Option ValueId}
    (h : C.ReturnAt f i b value) (h' : C.ReturnAt f i b' value') : b' = b ∧ value' = value := by
  obtain ⟨name, hinst⟩ := h.inst
  obtain ⟨name', hinst'⟩ := h'.inst
  rw [hinst] at hinst'
  cases hinst'
  exact ⟨rfl, rfl⟩

/-- A return is no value of another one. -/
theorem ReturnAt.notMem_value {i' : InstId} {b' : BlockId} {value value' : Option ValueId}
    (h : C.ReturnAt f i b value) (h' : C.ReturnAt f i' b' value') : .inst ⟨f, i⟩ ∉ value' := by
  intro hmem
  obtain ⟨ty, hty, hvoid⟩ := h'.value _ hmem
  obtain ⟨name, hinst⟩ := h.inst
  rw [Code.valueTy, hinst] at hty
  exact hvoid (Option.some.inj hty).symm

namespace Jumps

theorem nil : C.Jumps C f nb [] id where
  jumps := nofun
  erased := nofun
  insts _ _ := rfl
  block b := by
    have hsame : ∀ bd : BlockData, bd.retarget [] id = bd := fun bd => by
      cases bd
      simp [BlockData.retarget]
    simp [hsame]
  rest := ⟨rfl, rfl, rfl, rfl⟩

/-- One more return in front of the others; `n` is the key of its jump. -/
theorem cons {C' : Code} {rets : List InstId} {jump : InstId → InstId} {n : InstId}
    {value : Option ValueId} (hret : C.ReturnAt f i b value) (hfresh : C.inst ⟨f, n⟩ = none)
    (hlt : ∀ k ∈ i :: rets, k < n) (hi : i ∉ rets) (hle : ∀ k ∈ rets, n < jump k)
    (h : (C.jumpAt f nb i b n).Jumps C' f nb rets jump) :
    C.Jumps C' f nb (i :: rets) (Function.update jump i n) := by
  have hne : ∀ k ∈ rets, k ≠ i := fun k hk h => hi (h ▸ hk)
  have hin : i < n := hlt i List.mem_cons_self
  -- the jumps that come later leave the first one and its return alone
  have hn : C'.inst ⟨f, n⟩ = (C.jumpAt f nb i b n).inst ⟨f, n⟩ := h.insts _ fun k hk =>
    ⟨fun heq => (hlt k (List.mem_cons_of_mem _ hk)).ne (InstRef.mk.inj heq).2.symm,
      fun heq => (hle k hk).ne (InstRef.mk.inj heq).2⟩
  have hold : C'.inst ⟨f, i⟩ = (C.jumpAt f nb i b n).inst ⟨f, i⟩ := h.insts _ fun k hk =>
    ⟨fun heq => hne k hk (InstRef.mk.inj heq).2.symm,
      fun heq => (hin.trans (hle k hk)).ne (InstRef.mk.inj heq).2⟩
  refine ⟨fun k hk b' value' h' => ?_, fun k hk => ?_, fun r hr => ?_, fun b' => ?_, ?_⟩
  · rcases List.mem_cons.mp hk with rfl | hk'
    · obtain ⟨rfl, rfl⟩ := hret.unique h'
      rw [Function.update_self, hn]
      show Function.update (Function.update C.inst _ _) _ _ _ = _
      rw [Function.update_of_ne, Function.update_self]
      exact fun heq => hin.ne (InstRef.mk.inj heq).2.symm
    · rw [Function.update_of_ne (hne k hk')]
      exact h.jumps k hk' b' value' (hret.jumpAt h' (hne k hk') hfresh)
  · rcases List.mem_cons.mp hk with rfl | hk'
    · rw [hold]
      exact Function.update_self ..
    · exact h.erased k hk'
  · obtain ⟨hri, hrn⟩ := hr i List.mem_cons_self
    rw [Function.update_self] at hrn
    rw [h.insts, jumpAt_inst_of_ne hri hrn]
    intro k hk
    have hrk := hr k (List.mem_cons_of_mem _ hk)
    rw [Function.update_of_ne (hne k hk)] at hrk
    exact hrk
  · rw [h.block]
    by_cases hf : b'.func = f
    · rw [if_pos hf, if_pos hf]
      by_cases hb : b' = ⟨f, b⟩
      · subst hb
        obtain ⟨bd, hbd, hterm, -⟩ := hret.block
        show (Function.update C.block _ _ _).map _ = _
        rw [Function.update_self, hbd]
        simp only [Option.map_some, BlockData.retarget, hterm, List.mem_cons_self, if_true,
          Function.update_self]
        rw [if_neg fun hmem => (hlt n (List.mem_cons_of_mem _ hmem)).ne rfl]
      · rw [jumpAt_block_of_ne hb]
        cases hbd : C.block b' with
        | none => rfl
        | some bd =>
          -- the block ends in none or another one of the returns
          have hterm : ∀ t ∈ bd.terminator, t ≠ i := by
            rintro t ht rfl
            obtain ⟨f', b'⟩ := b'
            obtain rfl : f' = f := hf
            exact hb (by rw [hret.only b' bd hbd ht])
          simp only [Option.map_some, BlockData.retarget, Option.some.injEq]
          refine congrArg (fun t => { bd with terminator := t }) (Option.map_congr fun t ht => ?_)
          simp only [List.mem_cons, hterm t ht, false_or, Function.update_of_ne (hterm t ht)]
    · rw [if_neg hf, if_neg hf, jumpAt_block_of_ne]
      exact fun heq => hf (heq ▸ rfl)
  · obtain ⟨hfunc, harg, hglobal, hconsts⟩ := h.rest
    rw [hfunc, harg, hglobal, hconsts]
    exact ⟨rfl, rfl, rfl, rfl⟩

end Jumps

end Code

namespace ModuleCore

variable {m m' : ModuleCore} {f : FunctionId} {nb : BlockId} {i : InstId} {b : BlockId}
  {value : Option ValueId}

/-- The step lemma: a return becomes a jump. -/
theorem jumpTo_spec (nb : BlockId) (h : m.code.ReturnAt f i b value)
    (huses : m.valueUses (.inst ⟨f, i⟩) = some []) :
    ∃ m' jal, m.jumpTo f nb i = some m' ∧ m.nextInst f = some jal ∧
      m'.nextInst f = some (jal + 1) ∧ m'.code = m.code.jumpAt f nb i b jal ∧
      m.code.inst ⟨f, jal⟩ = none ∧
      ∀ v, v ∉ value → v ≠ .inst ⟨f, i⟩ → v ≠ .inst ⟨f, jal⟩ → m'.valueUses v = m.valueUses v := by
  obtain ⟨name, hinst⟩ := h.inst
  obtain ⟨bd, hblock, hterm, hinsts, hphis⟩ := h.block
  obtain ⟨d, hd, hdcode⟩ := inst_of_code_inst hinst
  obtain ⟨bd, hb, rfl⟩ := block_of_code_block hblock
  have hfunc : (m.func f).isSome := by
    obtain ⟨fd, hfd, -⟩ := Option.bind_eq_some_iff.mp hd
    exact Option.isSome_of_eq_some hfd
  obtain ⟨⟨f', jal⟩, m₁, hnew⟩ := newInst_total hfunc .void (.branch nb none) none
  obtain ⟨hf', hfresh, hjal, hcode₁⟩ := newInst_code hnew
  obtain ⟨huses₁, hnext, hnext₁⟩ := newInst_edited hnew
  obtain rfl : f' = f := hf'
  -- the return is there, the new jump was not
  have hne : (⟨f', i⟩ : InstRef) ≠ ⟨f', jal⟩ := fun heq => by
    rw [heq, hfresh] at hd
    cases hd
  -- the new instruction leaves the return as it was
  have hd₁ : ∃ d₁, m₁.inst ⟨f', i⟩ = some d₁ ∧ d₁.code = d.code := by
    refine inst_of_code_inst ?_
    rw [hcode₁]
    show Function.update m.code.inst _ _ _ = _
    rw [Function.update_of_ne hne, code_inst_of_inst hd]
  obtain ⟨d₁, hd₁, hd₁code⟩ := hd₁
  rw [hdcode] at hd₁code
  have hb₁ : ∃ bd₁, m₁.block ⟨f', b⟩ = some bd₁ ∧ bd₁.code = bd.code := by
    refine block_of_code_block ?_
    rw [hcode₁]
    exact hblock
  obtain ⟨bd₁, hb₁, hbd₁⟩ := hb₁
  -- the jump is unused when it is overwritten
  have hd₁uses : d₁.uses = [] := by
    have hu := huses₁ (.inst ⟨f', i⟩) fun heq => hne (ValueId.inst.inj heq)
    rw [huses] at hu
    have hd₁' : m₁.valueUses (.inst ⟨f', i⟩) = some d₁.uses := by
      show (m₁.inst _).map InstData.uses = _
      rw [hd₁, Option.map_some]
    rw [hd₁'] at hu
    exact Option.some.inj hu
  have hkind : d₁.kind = .ret value := (congrArg InstData.kind hd₁code :)
  -- a return reads the value it returns
  have hreads : ∀ v, d₁.kind.Reads v ↔ v ∈ value := by
    intro v
    rw [hkind]
    cases value <;> simp [InstKind.Reads, InstKind.valueOperands, eq_comm]
  have hdefined : ∀ op ∈ d₁.kind.valueOperands, m₁.Defined op.1 := by
    intro op hop
    have hv := (hreads op.1).mp ⟨op.2, hop⟩
    obtain ⟨ty, hty, -⟩ := h.value op.1 hv
    rw [defined_iff, huses₁, ← defined_iff, Defined, hty]
    · rfl
    · intro heq
      rw [heq] at hty
      obtain ⟨d, hd', -⟩ := Option.map_eq_some_iff.mp hty
      rw [code_inst, hfresh] at hd'
      cases hd'
  -- every value the jump reads is defined
  obtain ⟨m', hrun, hedited⟩ := overwriteInst_total hne rfl hd₁
    (congrArg InstData.parent hd₁code :) hb₁ ((congrArg BlockData.terminator hbd₁ :).trans hterm)
    (fun hmem => hinsts ((congrArg BlockData.insts hbd₁ :) ▸ hmem))
    (fun hmem => hphis ((congrArg BlockData.phis hbd₁ :) ▸ hmem)) hd₁uses hdefined
    (by rw [hkind]; rfl) hjal rfl rfl (congrArg InstData.ty hd₁code :)
  -- the module that results: run, next instruction, code, freshness and uses
  refine ⟨m', jal, ?_, hnext, ?_, ?_, ?_, fun v hv hvi hvj => ?_⟩
  · unfold jumpTo
    simp only [hnew, Option.bind_eq_bind, Option.bind_some, hrun]
  · rw [hedited.next, hnext₁, Function.update_self]
  · rw [hedited.code, hcode₁]
    refine Code.ext rfl ?_ rfl rfl rfl rfl
    show Function.update (Function.update (Function.update m.code.inst _ _) _
      ((Function.update m.code.inst (⟨f', jal⟩ : InstRef)
        (some ⟨none, .void, .branch nb none, [], none⟩) ⟨f', jal⟩).map _)) _ none = _
    rw [Function.update_idem, Function.update_self]
    rfl
  · rw [code_inst, hfresh]
    rfl
  · rw [hedited.uses v, huses₁ v hvj]
    rintro (hread | heq)
    · exact hv ((hreads v).mp hread)
    · exact hvi heq

theorem inst_of_nextInst_le {n k : InstId} (hn : m.nextInst f = some n) (hk : n ≤ k) :
    m.inst ⟨f, k⟩ = none := by
  obtain ⟨fd, hfd, rfl⟩ := Option.map_eq_some_iff.mp hn
  simp only [inst, hfd, Option.bind_eq_bind, Option.bind_some]
  exact fd.insts.fresh k hk

/-- The run lemma: the returns become jumps. -/
theorem jumpTo_run (nb : BlockId) {rets : List InstId} (hnodup : rets.Nodup)
    (hrets : ∀ i ∈ rets, (∃ b value, m.code.ReturnAt f i b value) ∧
      m.valueUses (.inst ⟨f, i⟩) = some []) {n : InstId} (hn : m.nextInst f = some n) :
    ∃ m' jump, rets.foldlM (fun m inst => m.jumpTo f nb inst) m = some m' ∧
      m.code.Jumps m'.code f nb rets jump ∧ (∀ i ∈ rets, n ≤ jump i) ∧
      (∀ i ∈ rets, ∀ j ∈ rets, jump i = jump j → i = j) ∧
      ∀ v, m.Defined v → (∀ i ∈ rets, v ≠ .inst ⟨f, i⟩ ∧
        ∀ b value, m.code.ReturnAt f i b value → v ∉ value) → m'.valueUses v = m.valueUses v := by
  induction rets generalizing m n with
  | nil => exact ⟨m, id, rfl, .nil, nofun, nofun, fun _ _ _ => rfl⟩
  | cons i rets ih =>
    obtain ⟨hi, hnodup⟩ := List.nodup_cons.mp hnodup
    obtain ⟨⟨b, value, hret⟩, huses⟩ := hrets i List.mem_cons_self
    obtain ⟨m₁, jal, hstep, hjal, hn₁, hcode₁, hfresh, huses₁⟩ := jumpTo_spec nb hret huses
    obtain rfl : n = jal := Option.some.inj (hn.symm.trans hjal)
    -- a return that is there has a number below the next one
    have hlt : ∀ k ∈ i :: rets, k < n := by
      intro k hk
      refine Nat.lt_of_not_le fun hle => ?_
      obtain ⟨⟨b, value, h⟩, -⟩ := hrets k hk
      obtain ⟨name, hinst⟩ := h.inst
      rw [code_inst, inst_of_nextInst_le hn hle] at hinst
      cases hinst
    have hne : ∀ k ∈ rets, k ≠ i := fun k hk h => hi (h ▸ hk)
    -- the step for `i` leaves the other returns as they were
    have hret₁ : ∀ k ∈ rets, ∀ b' value', m.code.ReturnAt f k b' value' →
        m₁.code.ReturnAt f k b' value' := by
      intro k hk b' value' h
      rw [hcode₁]
      exact hret.jumpAt h (hne k hk) hfresh
    have hrets₁ : ∀ k ∈ rets, (∃ b value, m₁.code.ReturnAt f k b value) ∧
        m₁.valueUses (.inst ⟨f, k⟩) = some [] := by
      intro k hk
      obtain ⟨⟨b', value', h⟩, hu⟩ := hrets k (List.mem_cons_of_mem _ hk)
      refine ⟨⟨b', value', hret₁ k hk b' value' h⟩, ?_⟩
      rw [huses₁, hu]
      · exact h.notMem_value hret
      · exact fun heq => hne k hk (InstRef.mk.inj (ValueId.inst.inj heq)).2
      · exact fun heq => (hlt k (List.mem_cons_of_mem _ hk)).ne
          (InstRef.mk.inj (ValueId.inst.inj heq)).2
    obtain ⟨m', jump, hrun, hjumps, hle, hinj, huses'⟩ := ih hnodup hrets₁ hn₁
    rw [hcode₁] at hjumps
    refine ⟨m', Function.update jump i n, OptionFold.cons_eq_some.mpr ⟨m₁, hstep, hrun⟩,
      hjumps.cons hret hfresh hlt hi hle, ?_, ?_, ?_⟩
    -- the jumps are numbered from `n` on
    · intro k hk
      rcases List.mem_cons.mp hk with rfl | hk'
      · rw [Function.update_self]
      · rw [Function.update_of_ne (hne k hk')]
        exact (Nat.le_succ n).trans (hle k hk')
    -- so no two of them are the same
    · intro k hk j hj heq
      rcases List.mem_cons.mp hk with rfl | hk' <;> rcases List.mem_cons.mp hj with rfl | hj'
      · rfl
      · rw [Function.update_self, Function.update_of_ne (hne j hj')] at heq
        exact absurd heq (Nat.ne_of_lt (hle j hj'))
      · rw [Function.update_self, Function.update_of_ne (hne k hk')] at heq
        exact absurd heq.symm (Nat.ne_of_lt (hle k hk'))
      · rw [Function.update_of_ne (hne k hk'), Function.update_of_ne (hne j hj')] at heq
        exact hinj k hk' j hj' heq
    -- only values that were returned lose uses
    · intro v hv hall
      obtain ⟨hvi, hvalue⟩ := hall i List.mem_cons_self
      have hvn : v ≠ .inst ⟨f, n⟩ := by
        rintro rfl
        have hty : ((m.code.inst ⟨f, n⟩).map InstData.ty).isSome := hv
        rw [hfresh] at hty
        cases hty
      have hv₁ := huses₁ v (hvalue b value hret) hvi hvn
      rw [huses', hv₁]
      · rw [defined_iff, hv₁]
        exact defined_iff.mp hv
      · intro k hk
        obtain ⟨hvk, hvk'⟩ := hall k (List.mem_cons_of_mem _ hk)
        refine ⟨hvk, fun b' value' h => ?_⟩
        obtain ⟨⟨b₀, value₀, h₀⟩, -⟩ := hrets k (List.mem_cons_of_mem _ hk)
        obtain ⟨rfl, rfl⟩ := h.unique (hret₁ k hk b₀ value₀ h₀)
        exact hvk' _ _ h₀

/-! ### The use lists -/

/-- `jumpTo` takes the return out of the registered instructions; its jump does not come in. -/
theorem jumpTo_registered {P : InstRef → Prop} (h : m.Registered P)
    (hP : ∀ r, P r → m.Inserted r) (hrun : m.jumpTo f nb i = some m') :
    m'.Registered (fun r => P r ∧ r ≠ ⟨f, i⟩) ∧ ∀ r, P r ∧ r ≠ ⟨f, i⟩ → m'.Inserted r := by
  obtain ⟨⟨jal, m₁⟩, hnew, hoverwrite⟩ := Option.bind_eq_some_iff.mp hrun
  obtain ⟨hreg, hjal, hparents, -⟩ := newInst_registered h (fun r hr => by
    obtain ⟨d, hd, -⟩ := hP r hr
    exact Option.isSome_of_eq_some hd) hnew
  obtain ⟨hreg', -, -, hnone, hparents'⟩ := overwriteInst_spec hreg hjal hoverwrite
  refine ⟨hreg', fun r hr => ?_⟩
  obtain ⟨hPr, hne⟩ := hr
  have hin := inserted_iff.mp (hP r hPr)
  have hnejal : r ≠ jal := by
    rintro rfl
    rw [← hparents, hnone] at hin
    cases hin
  rw [inserted_iff, hparents', Function.update_of_ne hne, Function.update_of_ne hnejal, hparents]
  exact hin

theorem jumpTo_run_registered {rets : List InstId} {P : InstRef → Prop} (h : m.Registered P)
    (hP : ∀ r, P r → m.Inserted r)
    (hrun : rets.foldlM (fun m inst => m.jumpTo f nb inst) m = some m') :
    m'.Registered (fun r => P r ∧ ∀ i ∈ rets, r ≠ ⟨f, i⟩) := by
  induction rets generalizing m P with
  | nil =>
    cases hrun
    exact h.congr rfl rfl (fun r => by simp) fun _ _ => rfl
  | cons i rets ih =>
    obtain ⟨m₁, hstep, hrun⟩ := OptionFold.cons_eq_some.mp hrun
    obtain ⟨hreg, hP₁⟩ := jumpTo_registered h hP hstep
    refine (ih hreg hP₁ hrun).congr rfl rfl (fun r => ?_) fun _ _ => rfl
    rw [List.forall_mem_cons, and_assoc]

end ModuleCore

end Ir
