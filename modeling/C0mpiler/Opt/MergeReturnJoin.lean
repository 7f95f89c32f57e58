import C0mpiler.Opt.MergeReturn
import Mathlib

/-!
# The code after merging returns

The new block holds a return and, in a function that returns a value, a phi with one incoming for
each old return. `Merged` says what the whole pass leaves of the code, and `funcMergeReturn_merged`
that the pass succeeds and leaves it when every return stands in a block. Otherwise it panics
(`funcMergeReturn_detached`).
-/

namespace Ir

/-- The phi of the new block. -/
structure JoinPhi where
  inst : InstId
  ty : Ty
  incomings : HashMap Nat PhiIncoming

def JoinPhi.data (p : JoinPhi) (b : BlockRef) : InstData :=
  ⟨some b, p.ty, .phi p.incomings p.incomings.entries.length, [], none⟩

namespace Code

/-- The code with the empty block `nb` filled. -/
def joinWith (C : Code) (f : FunctionId) (nb : BlockId) (ret : InstId) (phi : Option JoinPhi) :
    Code :=
  { C with
    inst := Function.update
      (phi.elim C.inst fun p => Function.update C.inst ⟨f, p.inst⟩ (some (p.data ⟨f, nb⟩)))
      ⟨f, ret⟩ (some ⟨some ⟨f, nb⟩, .void, .ret (phi.map fun p => .inst ⟨f, p.inst⟩), [], none⟩)
    block := Function.update C.block ⟨f, nb⟩ ((C.block ⟨f, nb⟩).map fun bd =>
      { bd with phis := bd.phis ++ (phi.map JoinPhi.inst).toList, terminator := some ret }) }

/-- What the return with this index hands to the phi. -/
def ReturnsFrom (C : Code) (f : FunctionId) (rets : List InstId) (k : Nat)
    (incoming : PhiIncoming) : Prop :=
  ∃ i, rets[k]? = some i ∧ C.ReturnAt f i incoming.block (some incoming.value)

/-- The phi the new block gets. -/
def PhiFor (C : Code) (f : FunctionId) (rets : List InstId) (returnType : Ty) :
    Option JoinPhi → Prop
  | none => returnType = .void
  | some p => returnType ≠ .void ∧ p.ty = returnType ∧ ∀ k incoming,
      p.incomings.lookup k = some incoming ↔ C.ReturnsFrom f rets k incoming

end Code

namespace ModuleCore

variable {m m' : ModuleCore} {f : FunctionId} {nb : BlockId} {bd : BlockData}

/-- `m'` is `m` with the new instruction `n` in the block `nb`, which `g` changes. -/
structure WithInst (m m' : ModuleCore) (f : FunctionId) (nb : BlockId) (n : InstId) (ty : Ty)
    (kind : InstKind) (g : BlockData → BlockData) : Prop where
  code : m'.code = { m.code with
    inst := Function.update m.code.inst ⟨f, n⟩ (some ⟨some ⟨f, nb⟩, ty, kind, [], none⟩)
    block := Function.update m.code.block ⟨f, nb⟩ ((m.code.block ⟨f, nb⟩).map g) }
  fresh : m.code.inst ⟨f, n⟩ = none
  unused : m'.valueUses (.inst ⟨f, n⟩) = some []
  kept : ∀ v, ¬kind.Reads v → v ≠ .inst ⟨f, n⟩ → m'.valueUses v = m.valueUses v
  next : m'.nextInst f = some (n + 1)

/-- A new instruction that is inserted in a block at once. -/
theorem newInst_inserted (ty : Ty) (kind : InstKind) (g : BlockData → BlockData)
    (insert : ModuleCore → InstRef → Option ModuleCore) (hb : m.block ⟨f, nb⟩ = some bd)
    (hops : ∀ v, kind.Reads v → m.Defined v) {n : InstId} (hn : m.nextInst f = some n)
    (hinsert : ∀ m₁ bd₁, m₁.inst ⟨f, n⟩ = some ⟨none, ty, kind, [], none⟩ →
      m₁.block ⟨f, nb⟩ = some bd₁ → bd₁.code = bd.code → (∀ op ∈ kind.valueOperands, m₁.Defined op.1) →
      (∀ b, (m.block b).isSome → (m₁.block b).isSome) → ∃ m', insert m₁ ⟨f, n⟩ = some m' ∧
        Edited m₁ ((m₁.code.updBlock ⟨f, nb⟩ g).updInst ⟨f, n⟩ fun d =>
          { d with parent := some ⟨f, nb⟩ }) kind.Reads m') :
    ∃ m₁ m', m.newInst f ty kind none = some (⟨f, n⟩, m₁) ∧ insert m₁ ⟨f, n⟩ = some m' ∧
      m.WithInst m' f nb n ty kind g := by
  obtain ⟨fd, hfd, -⟩ := Option.bind_eq_some_iff.mp hb
  obtain ⟨⟨f', n'⟩, m₁, hnew⟩ := newInst_total (m := m) (f := f) (Option.isSome_of_eq_some hfd) ty kind
    none
  obtain ⟨hf', hfresh, hr, hcode₁⟩ := newInst_code hnew
  obtain ⟨huses₁, hnext, hnext₁⟩ := newInst_edited hnew
  obtain rfl : f' = f := hf'
  obtain rfl : n = n' := Option.some.inj (hn.symm.trans hnext)
  have hblocks : m₁.code.block = m.code.block := by rw [hcode₁]
  obtain ⟨bd₁, hb₁, hbd₁⟩ := block_of_code_block
    ((congrFun hblocks ⟨f', nb⟩).trans (code_block_of_block hb))
  -- the new instruction is not among the values it reads itself
  have hnot : ∀ v, kind.Reads v → v ≠ .inst ⟨f', n⟩ := by
    rintro v hv rfl
    have hty : ((m.code.inst ⟨f', n⟩).map InstData.ty).isSome := hops _ hv
    rw [code_inst, hfresh] at hty
    cases hty
  have hops₁ : ∀ op ∈ kind.valueOperands, m₁.Defined op.1 := by
    intro op hop
    have hv : kind.Reads op.1 := ⟨op.2, hop⟩
    rw [defined_iff, huses₁ _ (hnot _ hv)]
    exact defined_iff.mp (hops _ hv)
  have hexists : ∀ b, (m.block b).isSome → (m₁.block b).isSome := fun b hb => by
    rw [← code_block_isSome, hblocks, code_block_isSome]
    exact hb
  obtain ⟨m', hrun, hedited⟩ := hinsert m₁ bd₁ hr hb₁ hbd₁ hops₁ hexists
  have hcode : m.code.inst ⟨f', n⟩ = none := by
    rw [code_inst, hfresh]
    rfl
  -- the new instruction is in the code with its parent, and `g` has put it in the block
  refine ⟨m₁, m', hnew, hrun, ?_, hcode, ?_, fun v hv hvn => ?_, ?_⟩
  · rw [hedited.code, hcode₁]
    refine Code.ext rfl ?_ rfl rfl rfl rfl
    show Function.update (Function.update m.code.inst _ _) _
      ((Function.update m.code.inst (⟨f', n⟩ : InstRef) (some ⟨none, ty, kind, [], none⟩)
        ⟨f', n⟩).map _) = _
    rw [Function.update_idem, Function.update_self]
    rfl
  -- nothing uses it yet
  · rw [hedited.uses _ fun h => hnot _ h rfl]
    show (m₁.inst _).map InstData.uses = _
    rw [hr]
    rfl
  · rw [hedited.uses v hv, huses₁ v hvn]
  · rw [hedited.next, hnext₁, Function.update_self]

theorem reads_ret {value : Option ValueId} {v : ValueId} :
    InstKind.Reads (.ret value) v ↔ v ∈ value := by
  cases value <;> simp [InstKind.Reads, InstKind.valueOperands, eq_comm]

/-- The incomings of the phi, when all returns have a value. -/
theorem returnIncoming_spec {fd : FunctionData} {rets : List InstId} (hfd : m.func f = some fd)
    (hrets : ∀ i ∈ rets, ∃ b v, m.code.ReturnAt f i b (some v)) :
    ∃ l, rets.zipIdx.mapM fd.returnIncoming = some l ∧ ∀ k incoming,
      (HashMap.collect l).lookup k = some incoming ↔ m.code.ReturnsFrom f rets k incoming := by
  -- the entry of each return
  have hone : ∀ i ∈ rets, ∀ k, ∃ b v, m.code.ReturnAt f i b (some v) ∧
      fd.returnIncoming (i, k) = some (k, ⟨b, v⟩) := by
    intro i hi k
    obtain ⟨b, v, h⟩ := hrets i hi
    obtain ⟨name, hinst⟩ := h.inst
    obtain ⟨d, hd, hdcode⟩ := inst_of_code_inst hinst
    have hget : fd.insts.get? i = some d := by
      simpa only [inst, hfd, Option.bind_eq_bind, Option.bind_some] using hd
    have hkind : d.kind = .ret (some v) := (congrArg InstData.kind hdcode :)
    have hparent : d.parent = some ⟨f, b⟩ := (congrArg InstData.parent hdcode :)
    refine ⟨b, v, h, ?_⟩
    simp only [FunctionData.returnIncoming, hget, hkind, hparent, Option.bind_eq_bind,
      Option.bind_some]
  -- no entry fails: every return has a value and a parent
  have htotal : ∃ l, rets.zipIdx.mapM fd.returnIncoming = some l := by
    refine OptionFold.exists_mapM fun entry hentry => ?_
    obtain ⟨b, v, -, heq⟩ := hone entry.1 (List.fst_mem_of_mem_zipIdx hentry) entry.2
    exact ⟨_, heq⟩
  obtain ⟨l, hl⟩ := htotal
  -- the keys are the positions in the list of returns, so none is there twice
  have hkeys : l.map Prod.fst = rets.zipIdx.map Prod.snd := by
    have hall := OptionFold.mapM_eq_some hl
    have hkey : ∀ entry ∈ rets.zipIdx, ∀ p, fd.returnIncoming entry = some p → p.1 = entry.2 := by
      intro entry hentry p hp
      obtain ⟨b, v, -, heq⟩ := hone entry.1 (List.fst_mem_of_mem_zipIdx hentry) entry.2
      cases hp.symm.trans heq
      rfl
    clear hl
    generalize rets.zipIdx = entries at hall hkey
    induction hall with
    | nil => rfl
    | cons hhead _ ih =>
      rw [List.map_cons, List.map_cons, hkey _ List.mem_cons_self _ hhead,
        ih fun entry hentry => hkey entry (List.mem_cons_of_mem _ hentry)]
  have hnodup : (l.map Prod.fst).Nodup := by
    rw [hkeys, List.zipIdx_map_snd]
    exact List.nodup_range'
  refine ⟨l, hl, fun k incoming => ?_⟩
  rw [HashMap.lookup_collect hnodup, OptionFold.mem_mapM hl]
  constructor
  · rintro ⟨⟨i, k'⟩, hmem, heq⟩
    obtain ⟨b, v, h, heq'⟩ := hone i (List.fst_mem_of_mem_zipIdx hmem) k'
    cases heq.symm.trans heq'
    exact ⟨i, List.mem_zipIdx_iff_getElem?.mp hmem, h⟩
  · rintro ⟨i, hi, h⟩
    have hmem : (i, k) ∈ rets.zipIdx := List.mem_zipIdx_iff_getElem?.mpr hi
    obtain ⟨b, v, h', heq⟩ := hone i (List.fst_mem_of_mem_zipIdx hmem) k
    obtain ⟨hblock, hvalue⟩ := h.unique h'
    cases incoming
    cases hblock
    cases hvalue
    exact ⟨(i, k), hmem, heq⟩

theorem reads_phi {incomings : HashMap Nat PhiIncoming} {idx : Nat} {v : ValueId}
    (h : InstKind.Reads (.phi incomings idx) v) :
    ∃ k incoming, incomings.lookup k = some incoming ∧ incoming.value = v := by
  obtain ⟨slot, hmem⟩ := h
  obtain ⟨e, he, heq⟩ := List.mem_map.mp hmem
  cases heq
  exact ⟨e.1, e.2, AList.mem_lookup_iff.mpr he, rfl⟩

/-- The phi goes to the new block. -/
theorem joinPhi_inserted {incomings : HashMap Nat PhiIncoming} (ty : Ty)
    (hb : m.block ⟨f, nb⟩ = some bd) {n : InstId} (hn : m.nextInst f = some n)
    (hfrom : ∀ k incoming, incomings.lookup k = some incoming →
      ∃ i, m.code.ReturnAt f i incoming.block (some incoming.value)) :
    ∃ m₁ m', m.newInst f ty (.phi incomings incomings.entries.length) none = some (⟨f, n⟩, m₁) ∧
      m₁.appendPhi ⟨f, nb⟩ ⟨f, n⟩ = some m' ∧
      m.WithInst m' f nb n ty (.phi incomings incomings.entries.length)
        fun b => { b with phis := b.phis ++ [n] } := by
  refine newInst_inserted ty _ _ (fun m r => m.appendPhi ⟨f, nb⟩ r) hb (fun v hv => ?_) hn
    fun m₁ bd₁ hr hb₁ hbd₁ hops hexists =>
      appendPhi_total rfl hr rfl hb₁ hops (fun op hop => ?_) rfl
  -- the values are returned somewhere, so they are defined
  · obtain ⟨k, incoming, hk, rfl⟩ := reads_phi hv
    obtain ⟨i, h⟩ := hfrom k incoming hk
    obtain ⟨ty, hty, -⟩ := h.value _ rfl
    exact Option.isSome_of_eq_some hty
  -- and the blocks are those of the returns
  · obtain ⟨e, he, rfl⟩ := List.mem_map.mp hop
    obtain ⟨i, h⟩ := hfrom e.1 e.2 (AList.mem_lookup_iff.mpr he)
    obtain ⟨bd, hbd, -⟩ := h.block
    refine hexists _ ?_
    rw [← code_block_isSome]
    exact Option.isSome_of_eq_some hbd

/-- The return of the new block. -/
theorem joinRet_inserted (value : Option ValueId) (hb : m.block ⟨f, nb⟩ = some bd)
    (hterm : bd.terminator = none) {n : InstId} (hn : m.nextInst f = some n)
    (hvalue : ∀ v ∈ value, m.Defined v) :
    ∃ m₁ m', m.newInst f .void (.ret value) none = some (⟨f, n⟩, m₁) ∧
      m₁.setTerminator ⟨f, nb⟩ ⟨f, n⟩ = some m' ∧
      m.WithInst m' f nb n .void (.ret value) fun b => { b with terminator := some n } :=
  newInst_inserted .void (.ret value) _ (fun m r => m.setTerminator ⟨f, nb⟩ r) hb
    (fun v hv => hvalue v (reads_ret.mp hv)) hn fun _ _ hr hb₁ hbd₁ hops _ =>
      setTerminator_total rfl hr rfl hb₁ hops nofun rfl
        ((congrArg BlockData.terminator hbd₁ :).trans hterm)

/-- `m'` is `m` with the block `nb` filled for the returns `rets`, which are used as before. -/
structure Filled (m m' : ModuleCore) (f : FunctionId) (rets : List InstId) (returnType : Ty)
    (nb : BlockId) (ret : InstId) (phi : Option JoinPhi) : Prop where
  code : m'.code = m.code.joinWith f nb ret phi
  phiFor : m.code.PhiFor f rets returnType phi
  retFresh : m.code.inst ⟨f, ret⟩ = none
  phiFresh : ∀ p ∈ phi, m.code.inst ⟨f, p.inst⟩ = none ∧ p.inst ≠ ret
  retUnused : m'.valueUses (.inst ⟨f, ret⟩) = some []
  kept : ∀ i ∈ rets, m'.valueUses (.inst ⟨f, i⟩) = m.valueUses (.inst ⟨f, i⟩)
  next : (m'.nextInst f).isSome

section Fill

variable {rets : List InstId} {fd : FunctionData} (hfd : m.func f = some fd)
  (hb : m.block ⟨f, nb⟩ = some bd) (hterm : bd.terminator = none) {n : InstId}
  (hn : m.nextInst f = some n)

/-- An instruction that is new is none of the returns. -/
theorem returnAt_ne_fresh {i : InstId} {b : BlockId} {value : Option ValueId}
    (h : m.code.ReturnAt f i b value) {k : InstId} (hk : m.code.inst ⟨f, k⟩ = none) :
    ValueId.inst ⟨f, i⟩ ≠ .inst ⟨f, k⟩ := by
  intro heq
  obtain ⟨name, hinst⟩ := h.inst
  rw [ValueId.inst.inj heq, hk] at hinst
  cases hinst

include hfd hb hterm hn

/-- Without a value there is no phi. -/
theorem mergedReturn_void (hvoid : fd.ty.returnType = .void)
    (hrets : ∀ i ∈ rets, ∃ b value, m.code.ReturnAt f i b value) :
    ∃ m', m.mergedReturn f ⟨f, nb⟩ rets = some m' ∧
      m.Filled m' f rets fd.ty.returnType nb n none := by
  obtain ⟨m₁, m', hnew, hset, h⟩ := joinRet_inserted none hb hterm hn fun v hv => by
    cases hv
  refine ⟨m', ?_, ?_, hvoid, h.fresh, fun p hp => absurd hp (Option.not_mem_none p), h.unused,
    fun i hi => ?_, ?_⟩
  · simp only [mergedReturn, hfd, hvoid, hnew, hset, ne_eq, not_true_eq_false, if_false,
      Option.bind_eq_bind, Option.bind_some]
  · rw [h.code]
    refine Code.ext rfl rfl ?_ rfl rfl rfl
    show Function.update m.code.block _ _ = Function.update m.code.block _ _
    simp only [Option.map_none, Option.toList_none, List.append_nil]
  · obtain ⟨b, value, hret⟩ := hrets i hi
    exact h.kept _ (fun h => by cases reads_ret.mp h) (returnAt_ne_fresh hret h.fresh)
  · rw [h.next]
    rfl

/-- Every return has a value, and the phi selects it by the block it came from. -/
theorem mergedReturn_value (hvoid : fd.ty.returnType ≠ .void)
    (hrets : ∀ i ∈ rets, ∃ b v, m.code.ReturnAt f i b (some v)) :
    ∃ m' phi, m.mergedReturn f ⟨f, nb⟩ rets = some m' ∧
      m.Filled m' f rets fd.ty.returnType nb (n + 1) phi := by
  obtain ⟨l, hl, hlookup⟩ := returnIncoming_spec hfd hrets
  generalize hinc : HashMap.collect l = incomings at hlookup
  have hfrom : ∀ k incoming, incomings.lookup k = some incoming →
      ∃ i, m.code.ReturnAt f i incoming.block (some incoming.value) := by
    intro k incoming hk
    obtain ⟨i, -, h⟩ := (hlookup k incoming).mp hk
    exact ⟨i, h⟩
  -- the phi
  obtain ⟨m₁, m₂, hnew, happend, h⟩ := joinPhi_inserted fd.ty.returnType hb hn hfrom
  have hb₂ : m₂.code.block ⟨f, nb⟩ = some { bd.code with phis := bd.phis ++ [n] } := by
    rw [h.code]
    show Function.update m.code.block _ _ _ = _
    rw [Function.update_self, code_block_of_block hb]
    rfl
  obtain ⟨bd₂, hb₂, hbd₂⟩ := block_of_code_block hb₂
  have hphi₂ : m₂.code.inst ⟨f, n⟩ =
      some (JoinPhi.data ⟨n, fd.ty.returnType, incomings⟩ ⟨f, nb⟩) := by
    rw [h.code]
    exact Function.update_self ..
  -- the return
  obtain ⟨m₃, m', hnew', hset, h'⟩ := joinRet_inserted (some (.inst ⟨f, n⟩)) hb₂
    ((congrArg BlockData.terminator hbd₂ :).trans hterm) h.next fun v hv => by
      cases hv
      rw [Defined, Code.valueTy, hphi₂]
      rfl
  have hfresh₂ : m.code.inst ⟨f, n + 1⟩ = none := by
    have hfresh' := h'.fresh
    rw [h.code] at hfresh'
    have hne : (⟨f, n + 1⟩ : InstRef) ≠ ⟨f, n⟩ := fun heq =>
      Nat.succ_ne_self n (InstRef.mk.inj heq).2
    exact (Function.update_of_ne hne _ _).symm.trans hfresh'
  refine ⟨m', some ⟨n, fd.ty.returnType, incomings⟩, ?_, ?_, ⟨hvoid, rfl, hlookup⟩, hfresh₂, ?_,
    h'.unused, fun i hi => ?_, ?_⟩
  · simp only [mergedReturn, hfd, hl, hinc, hvoid, hnew, happend, hnew', hset, ne_eq,
      not_false_eq_true, if_true, Option.bind_eq_bind, Option.bind_some]
  -- the two instructions put the join block together
  · rw [h'.code, h.code]
    refine Code.ext rfl rfl ?_ rfl rfl rfl
    show Function.update (Function.update m.code.block _ _) _
      ((Function.update m.code.block _ _ _).map _) = Function.update m.code.block _ _
    rw [Function.update_idem, Function.update_self, Option.map_map]
    rfl
  · intro p hp
    cases hp
    exact ⟨h.fresh, (Nat.succ_ne_self n).symm⟩
  -- no return is read by the phi or by the new return
  · obtain ⟨b, v, hret⟩ := hrets i hi
    rw [h'.kept, h.kept]
    · intro hreads
      obtain ⟨k, incoming, hk, hv⟩ := reads_phi hreads
      obtain ⟨j, hj⟩ := hfrom k incoming hk
      exact hret.notMem_value hj (congrArg some hv)
    · exact returnAt_ne_fresh hret h.fresh
    · exact fun hreads =>
        returnAt_ne_fresh hret h.fresh (Option.some.inj (reads_ret.mp hreads)).symm
    · exact returnAt_ne_fresh hret hfresh₂
  · rw [h'.next]
    rfl

/-- The new block is filled. -/
theorem mergedReturn_total (hrets : ∀ i ∈ rets, ∃ b value, m.code.ReturnAt f i b value ∧
    (value = none ↔ fd.ty.returnType = .void)) :
    ∃ m' ret phi, m.mergedReturn f ⟨f, nb⟩ rets = some m' ∧
      m.Filled m' f rets fd.ty.returnType nb ret phi := by
  by_cases hvoid : fd.ty.returnType = .void
  · obtain ⟨m', hrun, hfilled⟩ := mergedReturn_void hfd hb hterm hn hvoid fun i hi => by
      obtain ⟨b, value, h, -⟩ := hrets i hi
      exact ⟨b, value, h⟩
    exact ⟨m', n, none, hrun, hfilled⟩
  · obtain ⟨m', phi, hrun, hfilled⟩ := mergedReturn_value hfd hb hterm hn hvoid fun i hi => by
      obtain ⟨b, value, h, hnone⟩ := hrets i hi
      cases value with
      | none => exact absurd (hnone.mp rfl) hvoid
      | some v => exact ⟨b, v, h⟩
    exact ⟨m', n + 1, phi, hrun, hfilled⟩

end Fill

end ModuleCore

/-! ## The whole pass -/

namespace Code

/-- `C'` is `C` after its returns `rets` were merged: a new block `nb` with the return `ret` and
the phi `phi`, and a jump to it for each of `rets`. -/
structure Merged (C C' : Code) (f : FunctionId) (rets : List InstId) (nb : BlockId) (ret : InstId)
    (phi : Option JoinPhi) (jump : InstId → InstId) : Prop where
  func : C'.func f = (C.func f).map fun fd => { fd with blockOrder := fd.blockOrder ++ [nb] }
  fresh : C.block ⟨f, nb⟩ = none
  joinBlock : C'.block ⟨f, nb⟩ =
    some ⟨some ".ret", (phi.map JoinPhi.inst).toList, [], some ret, f, []⟩
  block : ∀ b, b ≠ nb → C'.block ⟨f, b⟩ = (C.block ⟨f, b⟩).map (·.retarget rets jump)
  joinRet : C'.inst ⟨f, ret⟩ =
    some ⟨some ⟨f, nb⟩, .void, .ret (phi.map fun p => .inst ⟨f, p.inst⟩), [], none⟩
  joinPhi : ∀ p ∈ phi, C'.inst ⟨f, p.inst⟩ = some (p.data ⟨f, nb⟩)
  jumps : ∀ i ∈ rets, ∀ b value, C.ReturnAt f i b value →
    C'.inst ⟨f, jump i⟩ = some ⟨some ⟨f, b⟩, .void, .branch nb none, [], none⟩
  erased : ∀ i ∈ rets, C'.inst ⟨f, i⟩ = none
  insts : ∀ r, r ≠ ⟨f, ret⟩ → (∀ p ∈ phi, r ≠ ⟨f, p.inst⟩) →
    (∀ i ∈ rets, r ≠ ⟨f, i⟩ ∧ r ≠ ⟨f, jump i⟩) → C'.inst r = C.inst r
  unused : C.inst ⟨f, ret⟩ = none ∧ (∀ p ∈ phi, C.inst ⟨f, p.inst⟩ = none) ∧
    ∀ i ∈ rets, C.inst ⟨f, jump i⟩ = none
  rest : C'.arg = C.arg ∧ C'.global = C.global ∧ C'.constData = C.constData

variable {C C' : Code} {f : FunctionId} {i : InstId} {b : BlockId} {value : Option ValueId}

/-- A return stays one where the code grows around it. -/
theorem ReturnAt.grow (h : C.ReturnAt f i b value) (hgrows : C.Grows C')
    (hblock : C'.block ⟨f, b⟩ = C.block ⟨f, b⟩)
    (honly : ∀ b' bd, C'.block ⟨f, b'⟩ = some bd → bd.terminator = some i →
      C.block ⟨f, b'⟩ = some bd) : C'.ReturnAt f i b value where
  inst := by
    obtain ⟨name, hinst⟩ := h.inst
    exact ⟨name, hgrows.inst _ _ hinst⟩
  block := by
    rw [hblock]
    exact h.block
  only b' bd hb hterm := h.only b' bd (honly b' bd hb hterm) hterm
  value v hv := by
    obtain ⟨ty, hty, hvoid⟩ := h.value v hv
    exact ⟨ty, hgrows.valueTy hty, hvoid⟩

/-- Returns that stay where they are hand the same values to the phi. -/
theorem PhiFor.congr {rets : List InstId} {returnType : Ty} {phi : Option JoinPhi}
    (h : C'.PhiFor f rets returnType phi)
    (hrets : ∀ i ∈ rets, ∀ b value, C'.ReturnAt f i b value ↔ C.ReturnAt f i b value) :
    C.PhiFor f rets returnType phi := by
  cases phi with
  | none => exact h
  | some p =>
    obtain ⟨hvoid, hty, hlookup⟩ := h
    refine ⟨hvoid, hty, fun k incoming => (hlookup k incoming).trans ?_⟩
    refine exists_congr fun i => and_congr_right fun hi => ?_
    exact hrets i (List.mem_of_getElem? hi) _ _

section

variable {nb : BlockId} {ret : InstId} {phi : Option JoinPhi}

/-- The code with an empty block `nb` at the end of the function. -/
def withBlock (C : Code) (f : FunctionId) (nb : BlockId) : Code :=
  { C with
    func := Function.update C.func f
      ((C.func f).map fun fd => { fd with blockOrder := fd.blockOrder ++ [nb] })
    block := Function.update C.block ⟨f, nb⟩ (some ⟨some ".ret", [], [], none, f, []⟩) }

theorem joinWith_inst_phi {p : JoinPhi} (hp : p ∈ phi) (hne : p.inst ≠ ret) :
    (C.joinWith f nb ret phi).inst ⟨f, p.inst⟩ = some (p.data ⟨f, nb⟩) := by
  cases hp
  show Function.update (Function.update C.inst _ _) _ _ _ = _
  rw [Function.update_of_ne fun heq => hne (InstRef.mk.inj heq).2, Function.update_self]

theorem joinWith_inst_of_ne {r : InstRef} (hret : r ≠ ⟨f, ret⟩)
    (hphi : ∀ p ∈ phi, r ≠ ⟨f, p.inst⟩) : (C.joinWith f nb ret phi).inst r = C.inst r := by
  show Function.update _ _ _ r = _
  rw [Function.update_of_ne hret]
  cases phi with
  | none => rfl
  | some p => exact Function.update_of_ne (hphi p rfl) _ _

theorem joinWith_block_of_ne {b : BlockRef} (h : b ≠ ⟨f, nb⟩) :
    (C.joinWith f nb ret phi).block b = C.block b := Function.update_of_ne h _ _

theorem joinWith_block_self : ((C.withBlock f nb).joinWith f nb ret phi).block ⟨f, nb⟩ =
    some ⟨some ".ret", (phi.map JoinPhi.inst).toList, [], some ret, f, []⟩ := by
  show Function.update (Function.update C.block _ _) _ ((Function.update C.block _ _ _).map _) _ = _
  rw [Function.update_self, Function.update_self]
  rfl

theorem grows_joinWith (hret : C.inst ⟨f, ret⟩ = none)
    (hphi : ∀ p ∈ phi, C.inst ⟨f, p.inst⟩ = none) : C.Grows (C.joinWith f nb ret phi) where
  inst r d hd := by
    rw [joinWith_inst_of_ne, hd]
    · rintro rfl
      rw [hret] at hd
      cases hd
    · rintro p hp rfl
      rw [hphi p hp] at hd
      cases hd
  constData _ _ hd := hd
  arg := rfl
  global := rfl

theorem ReturnAt.withBlock (h : C.ReturnAt f i b value) (hfresh : C.block ⟨f, nb⟩ = none) :
    (C.withBlock f nb).ReturnAt f i b value := by
  refine h.grow ⟨fun _ _ h => h, fun _ _ h => h, rfl, rfl⟩ ?_ fun b' bd hb hterm => ?_
  · refine Function.update_of_ne (fun heq => ?_) _ _
    obtain ⟨bd, hb, -⟩ := h.block
    rw [heq, hfresh] at hb
    cases hb
  · by_cases hne : (⟨f, b'⟩ : BlockRef) = ⟨f, nb⟩
    · rw [hne] at hb
      cases (Function.update_self ..).symm.trans hb
      cases hterm
    · exact (Function.update_of_ne hne _ _).symm.trans hb

theorem ReturnAt.joinWith (h : C.ReturnAt f i b value) (hfresh : C.block ⟨f, nb⟩ = none)
    (hret : (C.withBlock f nb).inst ⟨f, ret⟩ = none)
    (hphi : ∀ p ∈ phi, (C.withBlock f nb).inst ⟨f, p.inst⟩ = none) :
    ((C.withBlock f nb).joinWith f nb ret phi).ReturnAt f i b value := by
  have h₁ := h.withBlock hfresh
  refine h₁.grow (grows_joinWith hret hphi) (joinWith_block_of_ne fun heq => ?_)
    fun b' bd hb hterm => ?_
  · obtain ⟨bd, hb, -⟩ := h.block
    rw [heq, hfresh] at hb
    cases hb
  · by_cases hne : (⟨f, b'⟩ : BlockRef) = ⟨f, nb⟩
    · rw [hne, joinWith_block_self] at hb
      cases hb
      obtain rfl : ret = i := Option.some.inj hterm
      obtain ⟨name, hinst⟩ := h.inst
      cases hret.symm.trans hinst
    · rw [← joinWith_block_of_ne hne]
      exact hb

/-- The whole pass: the block, what it holds, and the jumps. -/
theorem Merged.of_jumps {rets : List InstId} {jump : InstId → InstId}
    (hfresh : C.block ⟨f, nb⟩ = none) (hret : C.inst ⟨f, ret⟩ = none)
    (hphi : ∀ p ∈ phi, C.inst ⟨f, p.inst⟩ = none ∧ p.inst ≠ ret)
    (hrets : ∀ i ∈ rets, ∃ b value, C.ReturnAt f i b value)
    (hjump : ∀ i ∈ rets, ((C.withBlock f nb).joinWith f nb ret phi).inst ⟨f, jump i⟩ = none)
    (h : ((C.withBlock f nb).joinWith f nb ret phi).Jumps C' f nb rets jump) :
    C.Merged C' f rets nb ret phi jump := by
  have hblock : C.Grows (C.withBlock f nb) := ⟨fun _ _ h => h, fun _ _ h => h, rfl, rfl⟩
  have hgrows : C.Grows ((C.withBlock f nb).joinWith f nb ret phi) :=
    hblock.trans (grows_joinWith hret fun p hp => (hphi p hp).1)
  -- `ret` and the phi are not instructions of the old code
  have hnot : ∀ r, (C.inst r).isNone → ∀ d, ((C.withBlock f nb).joinWith f nb ret phi).inst r = some d →
      ∀ i ∈ rets, r ≠ ⟨f, i⟩ ∧ r ≠ ⟨f, jump i⟩ := by
    intro r hr d hd i hi
    refine ⟨?_, ?_⟩
    · rintro rfl
      obtain ⟨b, value, h⟩ := hrets i hi
      obtain ⟨name, hinst⟩ := h.inst
      rw [hinst] at hr
      cases hr
    · rintro rfl
      rw [hjump i hi] at hd
      cases hd
  obtain ⟨hfunc, hrest⟩ := h.rest
  have hsame : (⟨f, nb⟩ : BlockRef).func = f := rfl
  refine ⟨?_, hfresh, ?_, fun b hb => ?_, ?_, fun p hp => ?_, fun i hi b value hat => ?_, h.erased,
    fun r hr hp hj => ?_, ⟨hret, fun p hp => (hphi p hp).1, fun i hi => ?_⟩, hrest⟩
  · rw [hfunc]
    exact Function.update_self ..
  -- `ret` is not one of the overwritten returns
  · have hnotmem : ret ∉ rets := fun hmem => by
      obtain ⟨b, value, hat⟩ := hrets ret hmem
      obtain ⟨name, hinst⟩ := hat.inst
      rw [hret] at hinst
      cases hinst
    rw [h.block, if_pos hsame, joinWith_block_self]
    simp only [Option.map_some, BlockData.retarget, if_neg hnotmem]
  -- blocks other than the new one keep what they have
  · have hne : (⟨f, b⟩ : BlockRef) ≠ ⟨f, nb⟩ := fun heq => hb (BlockRef.mk.inj heq).2
    rw [h.block, if_pos rfl, joinWith_block_of_ne hne]
    exact congrArg _ (Function.update_of_ne hne _ _)
  · have hself : ((C.withBlock f nb).joinWith f nb ret phi).inst ⟨f, ret⟩ =
        some ⟨some ⟨f, nb⟩, .void, .ret (phi.map fun p => .inst ⟨f, p.inst⟩), [], none⟩ :=
      Function.update_self ..
    rw [h.insts _ (hnot _ (by rw [hret]; rfl) _ hself), hself]
  · have hself : ((C.withBlock f nb).joinWith f nb ret phi).inst ⟨f, p.inst⟩ =
        some (p.data ⟨f, nb⟩) := joinWith_inst_phi hp (hphi p hp).2
    rw [h.insts _ (hnot _ (by rw [(hphi p hp).1]; rfl) _ hself), hself]
  · exact h.jumps i hi b value
      (hat.joinWith hfresh hret fun p hp => (hphi p hp).1)
  · rw [h.insts r hj, joinWith_inst_of_ne hr hp]
    rfl
  -- the jumps are new
  · cases hd : C.inst ⟨f, jump i⟩ with
    | none => rfl
    | some d =>
      have hsome := hgrows.inst _ _ hd
      rw [hjump i hi] at hsome
      cases hsome

end

end Code

theorem FunctionData.nodup_returnInsts (fd : FunctionData) (slots : SlotOrder) (f : FunctionId) :
    (fd.returnInsts slots f).Nodup :=
  (fd.insts.keysIn_nodup slots f).filter _

namespace ModuleCore

variable {m m' : ModuleCore} {f : FunctionId}

theorem inserted_iff_code {r : InstRef} :
    m.Inserted r ↔ ((m.code.inst r).bind InstData.parent).isSome := by
  rw [inserted_iff, parentOf, code_inst]
  cases m.inst r <;> rfl

theorem not_inserted_iff {r : InstRef} : ¬m.Inserted r ↔ (m.parentOf r).isNone := by
  rw [inserted_iff, Option.not_isSome_iff_eq_none, Option.isNone_iff_eq_none]

theorem mergedReturn_indexed (h : m.Indexed) {nb : BlockRef} {rets : List InstId}
    (hrun : m.mergedReturn f nb rets = some m') : m'.Indexed := by
  obtain ⟨fd, -, hrun⟩ := Option.bind_eq_some_iff.mp hrun
  dsimp only at hrun
  split at hrun
  · obtain ⟨incomings, -, hrun⟩ := Option.bind_eq_some_iff.mp hrun
    obtain ⟨⟨phi, m₁⟩, hphi, hrun⟩ := Option.bind_eq_some_iff.mp hrun
    obtain ⟨m₂, happend, hrun⟩ := Option.bind_eq_some_iff.mp hrun
    obtain ⟨⟨ret, m₃⟩, hret, hset⟩ := Option.bind_eq_some_iff.mp hrun
    have h₂ := (appendPhi_spec (newInst_spec h hphi).1 happend).indexed
    exact (setTerminator_spec (newInst_spec h₂ hret).1 hset).1.indexed
  · obtain ⟨⟨ret, m₁⟩, hret, hset⟩ := Option.bind_eq_some_iff.mp hrun
    exact (setTerminator_spec (newInst_spec h hret).1 hset).1.indexed

/-- `m₂` is `m` with the new block, filled for the returns `rets`, which stay where they are. -/
structure Joined (m m₂ : ModuleCore) (f : FunctionId) (rets : List InstId) (returnType : Ty)
    (nb : BlockId) (ret : InstId) (phi : Option JoinPhi) : Prop where
  fresh : m.code.block ⟨f, nb⟩ = none
  code : m₂.code = (m.code.withBlock f nb).joinWith f nb ret phi
  phiFor : m.code.PhiFor f rets returnType phi
  retFresh : m.code.inst ⟨f, ret⟩ = none
  phiFresh : ∀ p ∈ phi, m.code.inst ⟨f, p.inst⟩ = none ∧ p.inst ≠ ret
  retUnused : m₂.valueUses (.inst ⟨f, ret⟩) = some []
  unused : ∀ i ∈ rets, m₂.valueUses (.inst ⟨f, i⟩) = some []
  next : (m₂.nextInst f).isSome
  indexed : m.Indexed → m₂.Indexed

theorem Joined.returnAt {m₂ : ModuleCore} {rets : List InstId} {returnType : Ty} {nb : BlockId}
    {ret : InstId} {phi : Option JoinPhi} (h : Joined m m₂ f rets returnType nb ret phi)
    {i : InstId} {b : BlockId} {value : Option ValueId} (hat : m.code.ReturnAt f i b value) :
    m₂.code.ReturnAt f i b value := by
  rw [h.code]
  exact hat.joinWith h.fresh h.retFresh fun p hp => (h.phiFresh p hp).1

/-- The returns stand at the ends of their blocks, have a value where the function has one, and
nothing uses them. -/
def ReturnsPlaced (m : ModuleCore) (f : FunctionId) (returnType : Ty) (rets : List InstId) : Prop :=
  ∀ i ∈ rets, (∃ b value, m.code.ReturnAt f i b value ∧ (value = none ↔ returnType = .void)) ∧
    m.valueUses (.inst ⟨f, i⟩) = some []

theorem func_of_withBlock {fd : FunctionData} (hfd : m.func f = some fd) {m₁ : ModuleCore}
    {nb : BlockId} (hcode₁ : m₁.code = m.code.withBlock f nb) :
    ∃ fd₁, m₁.func f = some fd₁ ∧ fd₁.ty = fd.ty := by
  have hfunc₁ : m₁.code.func f = some { fd.header with blockOrder := fd.blockOrder ++ [nb] } := by
    rw [hcode₁]
    show Function.update m.code.func _ _ _ = _
    rw [Function.update_self]
    show ((m.func f).map FunctionData.header).map _ = _
    rw [hfd]
    rfl
  obtain ⟨fd₁, hfd₁, hheader⟩ := Option.map_eq_some_iff.mp hfunc₁
  exact ⟨fd₁, hfd₁, (congrArg FunctionData.ty hheader :)⟩

/-- The new block is made and filled. -/
theorem joinBlock_total {fd : FunctionData} (hfd : m.func f = some fd) {rets : List InstId}
    (hrets : m.ReturnsPlaced f fd.ty.returnType rets) :
    ∃ nb m₁ m₂ ret phi, m.appendBlock f (some ".ret") = some (⟨f, nb⟩, m₁) ∧
      m₁.mergedReturn f ⟨f, nb⟩ rets = some m₂ ∧
      Joined m m₂ f rets fd.ty.returnType nb ret phi := by
  -- the new block is the last one of the function
  have happend : ∃ b m₁, m.appendBlock f (some ".ret") = some (b, m₁) := by
    simp only [appendBlock, hfd, Option.bind_eq_bind, Option.bind_some]
    exact ⟨_, _, rfl⟩
  obtain ⟨⟨f', nb⟩, m₁, happend⟩ := happend
  obtain ⟨hf', hfresh, hedited⟩ := appendBlock_code happend
  obtain rfl : f' = f := hf'
  have hcode₁ : m₁.code = m.code.withBlock f' nb := hedited.code
  have hfresh : m.code.block ⟨f', nb⟩ = none := by
    rw [code_block, hfresh]
    rfl
  have hret₁ : ∀ i ∈ rets, ∀ b value, m.code.ReturnAt f' i b value →
      m₁.code.ReturnAt f' i b value := fun i _ b value h => hcode₁ ▸ h.withBlock hfresh
  -- the returns of the old code are those of the new code
  have hiff : ∀ i ∈ rets, ∀ b value,
      m₁.code.ReturnAt f' i b value ↔ m.code.ReturnAt f' i b value := by
    refine fun i hi b value => ⟨fun h => ?_, hret₁ i hi b value⟩
    obtain ⟨⟨b₀, value₀, h₀, -⟩, -⟩ := hrets i hi
    obtain ⟨rfl, rfl⟩ := h.unique (hret₁ i hi b₀ value₀ h₀)
    exact h₀
  have hjoin₁ : m₁.code.block ⟨f', nb⟩ = some ⟨some ".ret", [], [], none, f', []⟩ := by
    rw [hcode₁]
    exact Function.update_self ..
  obtain ⟨bd₁, hbd₁, hbd₁code⟩ := block_of_code_block hjoin₁
  obtain ⟨fd₁, hfd₁, hty⟩ := func_of_withBlock hfd hcode₁
  have hn₁ : m₁.nextInst f' = some fd.insts.next := by
    rw [hedited.next, nextInst, hfd]
    rfl
  obtain ⟨m₂, ret, phi, hfill, hcode₂, hphi, hretFresh, hphiFresh, huses₂, hkept₂, hnext₂⟩ :=
    mergedReturn_total hfd₁ hbd₁ (congrArg BlockData.terminator hbd₁code :) hn₁ fun i hi => by
      obtain ⟨⟨b, value, h, hvoid⟩, -⟩ := hrets i hi
      exact ⟨b, value, hret₁ i hi b value h, by rw [hty]; exact hvoid⟩
  rw [hcode₁] at hcode₂ hretFresh hphiFresh
  rw [hty] at hphi
  -- the fields of `Joined`
  refine ⟨nb, m₁, m₂, ret, phi, happend, hfill, {
    fresh := hfresh
    code := hcode₂
    phiFor := hphi.congr hiff
    retFresh := hretFresh
    phiFresh := hphiFresh
    retUnused := huses₂
    unused := fun i hi => ?_
    next := hnext₂
    indexed := fun h => mergedReturn_indexed ((appendBlock_spec happend).1.indexed h) hfill }⟩
  obtain ⟨-, huses⟩ := hrets i hi
  rw [hkept₂ i hi, hedited.uses _ not_false, huses]

/-- The pass succeeds, and leaves `Merged`. All instructions are registered but the jumps. -/
theorem funcMergeReturn_merged {slots : SlotOrder} {fd : FunctionData} (hfd : m.func f = some fd)
    (hdefined : fd.isDeclare = false) (htwo : 2 ≤ (fd.returnInsts slots f).length)
    (hrets : m.ReturnsPlaced f fd.ty.returnType (fd.returnInsts slots f)) :
    ∃ m' nb ret phi jump, m.funcMergeReturn slots f = some m' ∧
      m.code.Merged m'.code f (fd.returnInsts slots f) nb ret phi jump ∧
      m.code.PhiFor f (fd.returnInsts slots f) fd.ty.returnType phi ∧
      m'.valueUses (.inst ⟨f, ret⟩) = some [] ∧
      (m.Indexed → m'.Registered fun r => m'.Inserted r ∧
        ∀ i ∈ fd.returnInsts slots f, r ≠ ⟨f, jump i⟩) := by
  have hlen : ¬(fd.returnInsts slots f).length ≤ 1 := Nat.not_le_of_lt htwo
  have hnodup := fd.nodup_returnInsts slots f
  obtain ⟨nb, m₁, m₂, ret, phi, happend, hfill, hjoined⟩ := joinBlock_total hfd hrets
  -- the jumps
  obtain ⟨n₂, hn₂⟩ := Option.isSome_iff_exists.mp hjoined.next
  obtain ⟨m', jump, hrun, hjumps, hle, -, hkept'⟩ := jumpTo_run nb hnodup (fun i hi => by
    obtain ⟨⟨b, value, h, -⟩, -⟩ := hrets i hi
    exact ⟨⟨b, value, hjoined.returnAt h⟩, hjoined.unused i hi⟩) hn₂
  -- a jump is later than all that the join block holds
  have hjumpFresh : ∀ i ∈ fd.returnInsts slots f, m₂.inst ⟨f, jump i⟩ = none := fun i hi =>
    inst_of_nextInst_le hn₂ (hle i hi)
  refine ⟨m', nb, ret, phi, jump, ?_, ?_, hjoined.phiFor, ?_, fun hindexed => ?_⟩
  · simp only [funcMergeReturn, hfd, hdefined, hlen, happend, hfill, hrun, Bool.false_eq_true,
      if_false, Option.bind_eq_bind, Option.bind_some]
  -- the code: `joinWith`, then the jumps
  · have hjumps' := hjumps
    rw [hjoined.code] at hjumps'
    refine .of_jumps hjoined.fresh hjoined.retFresh hjoined.phiFresh (fun i hi => ?_)
      (fun i hi => ?_) hjumps'
    · obtain ⟨⟨b, value, h, -⟩, -⟩ := hrets i hi
      exact ⟨b, value, h⟩
    · rw [← hjoined.code, code_inst, hjumpFresh i hi]
      rfl
  -- no jump reads the new return
  · rw [hkept', hjoined.retUnused]
    · rw [defined_iff, hjoined.retUnused]
      rfl
    · intro i hi
      obtain ⟨⟨b, value, h, -⟩, -⟩ := hrets i hi
      refine ⟨fun heq => ?_, fun b' value' h' hmem => ?_⟩
      · obtain ⟨name, hinst⟩ := h.inst
        rw [← ValueId.inst.inj heq, hjoined.retFresh] at hinst
        cases hinst
      · obtain ⟨rfl, rfl⟩ := h'.unique (hjoined.returnAt h)
        obtain ⟨ty, hty, -⟩ := h.value _ hmem
        rw [Code.valueTy, hjoined.retFresh] at hty
        cases hty
  -- the use lists miss the jumps alone
  · have hreg := jumpTo_run_registered (hjoined.indexed hindexed) (fun _ h => h) hrun
    refine hreg.congr rfl rfl (fun r => ?_) fun _ _ => rfl
    rw [inserted_iff_code, inserted_iff_code]
    constructor
    · rintro ⟨hin, hnot⟩
      have hne : ∀ i ∈ fd.returnInsts slots f, r ≠ ⟨f, i⟩ := by
        rintro i hi rfl
        rw [hjumps.erased i hi] at hin
        cases hin
      rw [hjumps.insts r fun i hi => ⟨hne i hi, hnot i hi⟩] at hin
      exact ⟨hin, hne⟩
    · rintro ⟨hin, hne⟩
      have hnot : ∀ i ∈ fd.returnInsts slots f, r ≠ ⟨f, jump i⟩ := by
        rintro i hi rfl
        rw [code_inst, hjumpFresh i hi] at hin
        cases hin
      rw [hjumps.insts r fun i hi => ⟨hne i hi, hnot i hi⟩]
      exact ⟨hin, hnot⟩

/-! ### Returns that stand in no block -/

theorem mem_returnInsts {slots : SlotOrder} {fd : FunctionData} (hfd : m.func f = some fd)
    {i : InstId} :
    i ∈ fd.returnInsts slots f ↔ ∃ d value, m.inst ⟨f, i⟩ = some d ∧ d.kind = .ret value := by
  have hget : m.inst ⟨f, i⟩ = fd.insts.get? i := by
    simp only [inst, hfd, Option.bind_eq_bind, Option.bind_some]
  rw [FunctionData.returnInsts, List.mem_filter, SlotMap.mem_keysIn, hget]
  cases hd : fd.insts.get? i with
  | none => simp
  | some d =>
    simp only [Option.isSome_some, Option.any_some, true_and, Option.some.injEq,
      exists_and_left, exists_eq_left']
    cases d.kind <;> simp [InstKind.isRet]

/-- Nothing can take the place of an instruction that stands in no block. -/
theorem jumpTo_detached (nb : BlockId) {i : InstId} (hsome : (m.inst ⟨f, i⟩).isSome)
    (hdet : ¬m.Inserted ⟨f, i⟩) : m.jumpTo f nb i = none := by
  refine Option.eq_none_iff_forall_ne_some.mpr fun m' hrun => hdet ?_
  obtain ⟨⟨jal, m₁⟩, hnew, hoverwrite⟩ := Option.bind_eq_some_iff.mp hrun
  obtain ⟨-, hfresh, -, hcode₁⟩ := newInst_code hnew
  obtain ⟨m₂, hreplace, -⟩ := Option.bind_eq_some_iff.mp hoverwrite
  obtain ⟨od, parent, -, -, hod, hparent, -⟩ := replaceInst_eq_some hreplace
  have hne : (⟨f, i⟩ : InstRef) ≠ jal := by
    rintro rfl
    rw [hfresh] at hsome
    cases hsome
  have hin : m₁.Inserted ⟨f, i⟩ := ⟨od, hod, Option.isSome_of_eq_some hparent⟩
  rw [inserted_iff_code, hcode₁] at hin
  rw [inserted_iff_code, ← Function.update_of_ne hne _ m.code.inst]
  exact hin

/-- The phi asks every return for its block. -/
theorem mergedReturn_detached {fd : FunctionData} (hfd : m.func f = some fd)
    (hty : fd.ty.returnType ≠ .void) (nb : BlockRef) {rets : List InstId} {i : InstId}
    (hi : i ∈ rets) (hdet : ¬m.Inserted ⟨f, i⟩) : m.mergedReturn f nb rets = none := by
  have hnone : rets.zipIdx.mapM fd.returnIncoming = none := by
    obtain ⟨k, hk⟩ := List.mem_iff_getElem?.mp hi
    have hmem : (i, k) ∈ rets.zipIdx := List.mem_zipIdx_iff_getElem?.mpr hk
    refine OptionFold.mapM_eq_none hmem ?_
    refine Option.eq_none_iff_forall_ne_some.mpr fun incoming hincoming => hdet ?_
    obtain ⟨d, hd, hincoming⟩ := Option.bind_eq_some_iff.mp hincoming
    dsimp only at hincoming
    have hinst : m.inst ⟨f, i⟩ = some d := by
      simp only [inst, hfd, Option.bind_eq_bind, Option.bind_some]
      exact hd
    split at hincoming
    · obtain ⟨parent, hparent, -⟩ := Option.bind_eq_some_iff.mp hincoming
      exact ⟨d, hinst, Option.isSome_of_eq_some hparent⟩
    · cases hincoming
  simp only [mergedReturn, hfd, hnone, hty, ne_eq, not_false_eq_true, if_true, Option.bind_eq_bind,
    Option.bind_some, Option.bind_none]

/-- The jumps stop at the first return that stands in no block. -/
theorem jumpTo_run_detached (nb : BlockId) {rets : List InstId} (hnodup : rets.Nodup)
    (hexists : ∀ i ∈ rets, (m.inst ⟨f, i⟩).isSome)
    (hrets : ∀ i ∈ rets, m.Inserted ⟨f, i⟩ → (∃ b value, m.code.ReturnAt f i b value) ∧
      m.valueUses (.inst ⟨f, i⟩) = some [])
    {i₀ : InstId} (hi₀ : i₀ ∈ rets) (hdet₀ : ¬m.Inserted ⟨f, i₀⟩) {n : InstId}
    (hn : m.nextInst f = some n) :
    rets.foldlM (fun m inst => m.jumpTo f nb inst) m = none := by
  have hfind : (rets.find? fun i => (m.parentOf ⟨f, i⟩).isNone).isSome := by
    refine List.find?_isSome.mpr ⟨i₀, hi₀, ?_⟩
    exact not_inserted_iff.mp hdet₀
  obtain ⟨i, hfind⟩ := Option.isSome_iff_exists.mp hfind
  obtain ⟨hdet, before, after, rfl, hbefore⟩ := List.find?_eq_some_iff_append.mp hfind
  have hi : i ∈ before ++ i :: after := List.mem_append_right _ List.mem_cons_self
  have hdisjoint : i ∉ before := fun hmem => by
    have hnot := hbefore i hmem
    rw [hdet] at hnot
    cases hnot
  -- the returns before it become jumps, which leave it as it is
  obtain ⟨m', jump, hrun, hjumps, hle, -⟩ := jumpTo_run nb (hnodup.sublist (List.sublist_append_left ..))
    (fun j hj => hrets j (List.mem_append_left _ hj) (by
      by_contra hnot
      have hin := hbefore j hj
      rw [not_inserted_iff.mp hnot] at hin
      cases hin)) hn
  have hkept : m'.code.inst ⟨f, i⟩ = m.code.inst ⟨f, i⟩ := by
    refine hjumps.insts _ fun j hj => ⟨fun heq => hdisjoint ((InstRef.mk.inj heq).2 ▸ hj), fun heq => ?_⟩
    have hsome := hexists i hi
    rw [(InstRef.mk.inj heq).2, inst_of_nextInst_le hn (hle j hj)] at hsome
    cases hsome
  have hstop : m'.jumpTo f nb i = none := by
    refine jumpTo_detached nb ?_ ?_
    · rw [← Option.isSome_map (f := InstData.code), ← code_inst, hkept, code_inst, Option.isSome_map]
      exact hexists i hi
    · rw [inserted_iff_code, hkept, ← inserted_iff_code]
      exact not_inserted_iff.mpr hdet
  refine Option.eq_none_iff_forall_ne_some.mpr fun m'' hall => ?_
  obtain ⟨m₁, hrun₁, hrest⟩ := OptionFold.append_eq_some.mp hall
  obtain rfl := Option.some.inj (hrun₁.symm.trans hrun)
  obtain ⟨m₂, hstep, -⟩ := OptionFold.cons_eq_some.mp hrest
  cases hstop.symm.trans hstep

/-- The pass panics when a return stands in no block, wherever the others stand. -/
theorem funcMergeReturn_detached {slots : SlotOrder} {fd : FunctionData}
    (hfd : m.func f = some fd) (hdefined : fd.isDeclare = false)
    (htwo : 2 ≤ (fd.returnInsts slots f).length)
    (hrets : m.ReturnsPlaced f fd.ty.returnType
      ((fd.returnInsts slots f).filter fun i => (m.parentOf ⟨f, i⟩).isSome))
    {i : InstId} (hi : i ∈ fd.returnInsts slots f) (hdet : ¬m.Inserted ⟨f, i⟩) :
    m.funcMergeReturn slots f = none := by
  have hlen : ¬(fd.returnInsts slots f).length ≤ 1 := Nat.not_le_of_lt htwo
  obtain ⟨nb, m₁, m₂, ret, phi, happend, hfill, hjoined⟩ := joinBlock_total hfd hrets
  have hcode₁ : m₁.code = m.code.withBlock f nb := by
    obtain ⟨-, -, hedited⟩ := appendBlock_code happend
    exact hedited.code
  obtain ⟨fd₁, hfd₁, hty⟩ := func_of_withBlock hfd hcode₁
  -- on a void function the loop stops at the detached return
  by_cases hvoid : fd.ty.returnType = .void
  · -- without a phi the list is not looked at before the jumps
    have hsame : m₁.mergedReturn f ⟨f, nb⟩ (fd.returnInsts slots f) = some m₂ := by
      rw [← hfill]
      simp only [mergedReturn, hfd₁, hty, hvoid, ne_eq, not_true_eq_false, if_false,
        Option.bind_eq_bind, Option.bind_some]
    have hkept : ∀ j ∈ fd.returnInsts slots f, ∃ d, m.code.inst ⟨f, j⟩ = some d ∧
        m₂.code.inst ⟨f, j⟩ = some d := by
      intro j hj
      obtain ⟨d, value, hd, -⟩ := (mem_returnInsts hfd).mp hj
      refine ⟨d.code, code_inst_of_inst hd, ?_⟩
      rw [hjoined.code]
      exact (Code.grows_joinWith hjoined.retFresh fun p hp => (hjoined.phiFresh p hp).1).inst _ _
        (code_inst_of_inst hd)
    have hin : ∀ j ∈ fd.returnInsts slots f, m₂.Inserted ⟨f, j⟩ ↔ m.Inserted ⟨f, j⟩ := by
      intro j hj
      obtain ⟨d, hd, hd₂⟩ := hkept j hj
      rw [inserted_iff_code, inserted_iff_code, hd, hd₂]
    obtain ⟨n₂, hn₂⟩ := Option.isSome_iff_exists.mp hjoined.next
    have hstop := jumpTo_run_detached nb (fd.nodup_returnInsts slots f) (fun j hj => by
      obtain ⟨d, -, hd₂⟩ := hkept j hj
      obtain ⟨d', hd', -⟩ := inst_of_code_inst hd₂
      exact Option.isSome_of_eq_some hd') (fun j hj hinserted => by
      have hmem : j ∈ (fd.returnInsts slots f).filter fun i => (m.parentOf ⟨f, i⟩).isSome :=
        List.mem_filter.mpr ⟨hj, inserted_iff.mp ((hin j hj).mp hinserted)⟩
      obtain ⟨⟨b, value, hat, -⟩, -⟩ := hrets j hmem
      exact ⟨⟨b, value, hjoined.returnAt hat⟩, hjoined.unused j hmem⟩) hi
      (fun h => hdet ((hin i hi).mp h)) hn₂
    simp only [funcMergeReturn, hfd, hdefined, hlen, happend, hsame, hstop, Bool.false_eq_true,
      if_false, Option.bind_eq_bind, Option.bind_some]
  -- otherwise the phi asks for its parent first
  · have hstop : m₁.mergedReturn f ⟨f, nb⟩ (fd.returnInsts slots f) = none := by
      refine mergedReturn_detached hfd₁ (by rw [hty]; exact hvoid) _ hi ?_
      rw [inserted_iff_code, hcode₁]
      rw [inserted_iff_code] at hdet
      exact hdet
    simp only [funcMergeReturn, hfd, hdefined, hlen, happend, hstop, Bool.false_eq_true,
      if_false, Option.bind_eq_bind, Option.bind_some, Option.bind_none]

end ModuleCore

end Ir
