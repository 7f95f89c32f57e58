import C0mpiler.Ir.UseList
import Mathlib

/-!
# What the edits do to the use lists

One lemma for each edit: what it does to the registered instructions, to the parents and to the
kinds. From `Indexed m` follows `Indexed m'` for every edit but three. `replaceInstOperand` and
`replaceBlockOperand` need an inserted instruction, `phiAddIncoming` an inserted phi with a free
index, and `overwriteInst` a new instruction without operands, since `replaceInst` does not
register them.
-/

namespace Ir

namespace ModuleCore

variable {m m' : ModuleCore} {P : InstRef → Prop}

/-! ## Inserting -/

/-- The effect of inserting `inst` into `block`. -/
structure InsertedInto (m : ModuleCore) (block : BlockRef) (inst : InstRef) (m' : ModuleCore) :
    Prop where
  detached : m.parentOf inst = none
  indexed : m'.Indexed
  kinds : m'.kindOf = m.kindOf
  parents : m'.parentOf = Function.update m.parentOf inst (some block)

/-- One more instruction is inserted. -/
theorem inserted_update {i : InstRef} {b : BlockRef}
    (hp : m'.parentOf = Function.update m.parentOf i (some b)) (r : InstRef) :
    m'.Inserted r ↔ m.Inserted r ∨ r = i := by
  rw [inserted_iff, inserted_iff, hp]
  by_cases h : r = i
  · subst h; simp
  · rw [Function.update_of_ne h]; simp [h]

/-- One instruction is not inserted any more. -/
theorem inserted_update_none {i : InstRef}
    (hp : m'.parentOf = Function.update m.parentOf i none) (r : InstRef) :
    m'.Inserted r ↔ m.Inserted r ∧ r ≠ i := by
  rw [inserted_iff, inserted_iff, hp]
  by_cases h : r = i
  · subst h; simp
  · rw [Function.update_of_ne h]; simp [h]

/-- What `assert_can_insert` asserts. -/
theorem assertCanInsert_spec {block : BlockRef} {inst : InstRef} {d : InstData}
    (h : m.assertCanInsert block inst = some d) :
    block.func = inst.func ∧ m.inst inst = some d ∧ d.parent = none := by
  simp only [assertCanInsert, Option.bind_eq_bind, Option.bind_eq_some_iff,
    Option.guard_eq_some'] at h
  obtain ⟨-, hf, d', hd, -, hp, heq⟩ := h
  cases heq
  exact ⟨hf, hd, Option.isNone_iff_eq_none.mp hp⟩

/-- A change of the lists of one block followed by `attachInst`. -/
theorem attachInst_spec (h : m.Indexed) {block : BlockRef} {inst : InstRef} {d : InstData}
    {b : BlockRef} {g : BlockData → BlockData} (hg : ∀ bd, (g bd).uses = bd.uses)
    (hd : m.inst inst = some d) (hp : d.parent = none)
    (hrun : (m.updBlock b g).attachInst block inst = some m') :
    InsertedInto m block inst m' := by
  have hnot : ¬ m.Inserted inst := by
    rw [inserted_iff, parentOf_of_inst hd, hp]
    exact Bool.false_ne_true
  -- everything before the registration leaves the use lists and the kinds alone
  have hd₁ : (m.updBlock b g).inst inst = some d := by rw [inst_updBlock, hd]
  have hkind : ((m.updBlock b g).updInst inst fun d => { d with parent := some block }).kindOf =
      m.kindOf := by
    rw [kindOf_updInst (by intro; rfl), kindOf_updBlock]
  have hbefore : ((m.updBlock b g).updInst inst fun d => { d with parent := some block }).Registered
      m.Inserted :=
    Registered.congr h ((valueUses_updInst (by intro; rfl)).trans valueUses_updBlock)
      (blockUses_updInst.trans (blockUses_updBlock hg)) (fun _ => Iff.rfl)
      fun r _ => by rw [hkind]
  obtain ⟨hreg, hcode⟩ := registerInstUse_spec hbefore hnot hrun
  have hparents : m'.parentOf = Function.update m.parentOf inst (some block) := by
    rw [hcode.parentOf, parentOf_setParent hd₁, parentOf_updBlock]
  refine ⟨by rw [parentOf_of_inst hd, hp], ?_, by rw [hcode.kindOf, hkind], hparents⟩
  exact hreg.congr rfl rfl (inserted_update hparents) fun _ _ => rfl

/-- `append_inst` inserts what is no phi. -/
theorem appendInst_spec (h : m.Indexed) {block : BlockRef} {inst : InstRef}
    (hrun : m.appendInst block inst = some m') :
    InsertedInto m block inst m' ∧ ∀ k, m.kindOf inst = some k → k.isPhi = false := by
  simp only [appendInst, Option.bind_eq_bind, Option.bind_eq_some_iff, Option.guard_eq_some'] at hrun
  obtain ⟨d, hd, -, hk, bd, -, hrun⟩ := hrun
  obtain ⟨-, hd, hp⟩ := assertCanInsert_spec hd
  refine ⟨attachInst_spec h (by intro; rfl) hd hp hrun, fun k hk' => ?_⟩
  rw [kindOf_of_inst hd] at hk'
  cases hk'
  simp only [Bool.and_eq_true, Bool.not_eq_true'] at hk
  exact hk.1

/-- `push_front_inst` inserts. -/
theorem pushFrontInst_spec (h : m.Indexed) {block : BlockRef} {inst : InstRef}
    (hrun : m.pushFrontInst block inst = some m') : InsertedInto m block inst m' := by
  simp only [pushFrontInst, Option.bind_eq_bind, Option.bind_eq_some_iff] at hrun
  obtain ⟨d, hd, -, -, bd, -, hrun⟩ := hrun
  obtain ⟨-, hd, hp⟩ := assertCanInsert_spec hd
  exact attachInst_spec h (by intro; rfl) hd hp hrun

/-- `insert_before` inserts in the block of the anchor. -/
theorem insertBefore_spec (h : m.Indexed) {anchor inst : InstRef}
    (hrun : m.insertBefore anchor inst = some m') : ∃ block, InsertedInto m block inst m' := by
  simp only [insertBefore, Option.bind_eq_bind, Option.bind_eq_some_iff] at hrun
  obtain ⟨a, -, parent, -, d, hd, pos, -, hrun⟩ := hrun
  obtain ⟨-, hd, hp⟩ := assertCanInsert_spec hd
  refine ⟨parent, ?_⟩
  cases pos with
  | phi i => exact attachInst_spec h (by intro; rfl) hd hp hrun
  | inst i => exact attachInst_spec h (by intro; rfl) hd hp hrun
  | terminator => exact attachInst_spec h (by intro; rfl) hd hp hrun

/-- `insert_after` inserts in the block of the anchor. -/
theorem insertAfter_spec (h : m.Indexed) {anchor inst : InstRef}
    (hrun : m.insertAfter anchor inst = some m') : ∃ block, InsertedInto m block inst m' := by
  simp only [insertAfter, Option.bind_eq_bind, Option.bind_eq_some_iff] at hrun
  obtain ⟨a, -, parent, -, d, hd, pos, -, hrun⟩ := hrun
  obtain ⟨-, hd, hp⟩ := assertCanInsert_spec hd
  refine ⟨parent, ?_⟩
  cases pos with
  | phi i => exact attachInst_spec h (by intro; rfl) hd hp hrun
  | inst i => exact attachInst_spec h (by intro; rfl) hd hp hrun
  | terminator => cases hrun

/-- `append_phi` inserts. -/
theorem appendPhi_spec (h : m.Indexed) {block : BlockRef} {inst : InstRef}
    (hrun : m.appendPhi block inst = some m') : InsertedInto m block inst m' := by
  simp only [appendPhi, Option.bind_eq_bind, Option.bind_eq_some_iff] at hrun
  obtain ⟨d, hd, -, -, bd, -, hrun⟩ := hrun
  obtain ⟨-, hd, hp⟩ := assertCanInsert_spec hd
  exact attachInst_spec h (by intro; rfl) hd hp hrun

/-- `set_terminator` inserts what is no phi. -/
theorem setTerminator_spec (h : m.Indexed) {block : BlockRef} {inst : InstRef}
    (hrun : m.setTerminator block inst = some m') :
    InsertedInto m block inst m' ∧ ∀ k, m.kindOf inst = some k → k.isPhi = false := by
  simp only [setTerminator, Option.bind_eq_bind, Option.bind_eq_some_iff,
    Option.guard_eq_some'] at hrun
  obtain ⟨d, hd, -, hk, bd, -, -, -, hrun⟩ := hrun
  obtain ⟨-, hd, hp⟩ := assertCanInsert_spec hd
  refine ⟨attachInst_spec h (by intro; rfl) hd hp hrun, fun k hk' => ?_⟩
  rw [kindOf_of_inst hd] at hk'
  cases hk'
  generalize d.kind = k at hk
  cases k <;> first | rfl | cases hk

/-- `append_to_block` inserts, whichever place it chooses. -/
theorem appendToBlock_spec (h : m.Indexed) {block : BlockRef} {inst : InstRef}
    (hrun : m.appendToBlock block inst = some m') : InsertedInto m block inst m' := by
  simp only [appendToBlock, Option.bind_eq_bind, Option.bind_eq_some_iff] at hrun
  obtain ⟨d, -, -, -, -, -, bd, -, -, -, hrun⟩ := hrun
  split at hrun
  · obtain ⟨-, -, hrun⟩ := Option.bind_eq_some_iff.mp hrun
    exact appendPhi_spec h hrun
  · split at hrun
    · exact (setTerminator_spec h hrun).1
    · exact (appendInst_spec h hrun).1

/-! ## Replacing operands -/

/-- The effect of an edit that rewrites operands: no parent changes, and of the kinds only that
of `inst`, which stays a phi or a non-phi. -/
structure Rewritten (m : ModuleCore) (inst : InstRef) (m' : ModuleCore) : Prop where
  parents : m'.parentOf = m.parentOf
  kinds : ∃ k k', m.kindOf inst = some k ∧ k'.isPhi = k.isPhi ∧
    m'.kindOf = Function.update m.kindOf inst (some k')

/-- `replace_inst_operand` keeps the lists right: the use leaves the list of the old value and
enters that of the new one. -/
theorem replaceInstOperand_spec (h : m.Registered P) {inst : InstRef} (hP : P inst)
    {slot : OperandSlot} {v : ValueId} (hrun : m.replaceInstOperand inst slot v = some m') :
    m'.Registered P ∧ Rewritten m inst m' := by
  simp only [replaceInstOperand, Option.bind_eq_bind, Option.bind_eq_some_iff] at hrun
  obtain ⟨d, hd, ⟨old, k'⟩, hrep, m₂, hfilter, hpush⟩ := hrun
  have hrep := InstKind.replaceOperand_spec hrep
  obtain ⟨l₁, hw₁⟩ := updValueUses_spec hfilter
  obtain ⟨l₂, hw₂⟩ := updValueUses_spec hpush
  have hcode := hw₁.code.trans hw₂.code
  have hkinds : m'.kindOf = Function.update m.kindOf inst (some k') := by
    rw [hcode.kindOf, kindOf_setKind hd]
  have hparents : m'.parentOf = m.parentOf := by
    rw [hcode.parentOf, parentOf_updInst (by intro; rfl)]
  refine ⟨⟨?_, ?_⟩, hparents, d.kind, k', kindOf_of_inst hd, hrep.isPhi, hkinds⟩
  -- the lists of values: off the old list, onto the new one, and no other slot changes hands
  · have hbase : ReverseIndex (m.updInst inst fun d => { d with kind := k' }).valueUses
        fun u w => P u.user ∧ m.OperandOf u w := by
      rw [valueUses_updInst (by intro; rfl)]
      exact h.values
    have hold : ∀ w, P inst ∧ m.OperandOf ⟨inst, slot⟩ w → w = old := fun w hw =>
      hw.2.unique ⟨d, hd, hrep.mem⟩
    have hnew : ¬ ((P inst ∧ m.OperandOf ⟨inst, slot⟩ v) ∧
        (v = old → decide ((⟨inst, slot⟩ : Use) ≠ ⟨inst, slot⟩) = true)) := by
      rintro ⟨hv, hne⟩
      simpa using hne (hold v hv)
    refine ((hbase.filter _ hw₁.live hw₁.values).push hw₂.live hnew hw₂.values).congr fun u w => ?_
    rw [operandOf_iff, operandOf_iff, hkinds]
    by_cases hu : u.user = inst
    · obtain ⟨user, s⟩ := u
      subst hu
      simp only [Function.update_self, Option.some.injEq, kindOf_of_inst hd, exists_eq_left',
        hrep.values, InstKind.mem_setSlot hrep.mem, hP, true_and, Use.mk.injEq, ne_eq,
        decide_not, Bool.not_eq_true', decide_eq_false_iff_not]
      constructor
      · rintro (⟨hw, hne⟩ | ⟨rfl, rfl⟩)
        · refine Or.inr ⟨?_, hw⟩
          rintro rfl
          exact hne (InstKind.eq_of_mem_slot d.kind.valueOperands_nodup hw hrep.mem) rfl
        · exact Or.inl ⟨rfl, rfl⟩
      · rintro (⟨rfl, rfl⟩ | ⟨hne, hw⟩)
        · exact Or.inr ⟨rfl, rfl⟩
        · exact Or.inl ⟨hw, fun _ => hne⟩
    · have hne : u ≠ ⟨inst, slot⟩ := fun heq => hu (congrArg Use.user heq)
      simp [Function.update_of_ne hu, hne]
  -- the lists of blocks are not written
  · have hblocks : m'.blockUses = m.blockUses := by
      rw [hw₂.blocks, hw₁.blocks, blockUses_updInst]
    rw [hblocks]
    refine h.blocks.congr fun u b => ?_
    rw [blockOperandOf_iff, blockOperandOf_iff, hkinds]
    by_cases hu : u.user = inst
    · rw [hu, Function.update_self, kindOf_of_inst hd]
      simp [hrep.blocks]
    · rw [Function.update_of_ne hu]

/-- `replace_block_operand` keeps the lists right, by the same two writes to lists of blocks. -/
theorem replaceBlockOperand_spec (h : m.Registered P) {inst : InstRef} (hP : P inst)
    {slot : BlockOperandSlot} {b : BlockRef} (hrun : m.replaceBlockOperand inst slot b = some m') :
    m'.Registered P ∧ Rewritten m inst m' := by
  simp only [replaceBlockOperand, Option.bind_eq_bind, Option.bind_eq_some_iff,
    Option.guard_eq_some'] at hrun
  obtain ⟨-, hfunc, d, hd, ⟨old, k'⟩, hrep, m₂, hfilter, hpush⟩ := hrun
  have hrep := InstKind.replaceBlockOperand_spec hrep
  obtain ⟨l₁, hw₁⟩ := updBlockUses_spec hfilter
  obtain ⟨l₂, hw₂⟩ := updBlockUses_spec hpush
  have hcode := hw₁.code.trans hw₂.code
  -- only the kind of `inst` changes
  have hkinds : m'.kindOf = Function.update m.kindOf inst (some k') := by
    rw [hcode.kindOf, kindOf_setKind hd]
  have hparents : m'.parentOf = m.parentOf := by
    rw [hcode.parentOf, parentOf_updInst (by intro; rfl)]
  refine ⟨⟨?_, ?_⟩, hparents, d.kind, k', kindOf_of_inst hd, hrep.isPhi, hkinds⟩
  -- the lists of values are as they were
  · have hvalues : m'.valueUses = m.valueUses := by
      rw [hw₂.values, hw₁.values, valueUses_updInst (by intro; rfl)]
    rw [hvalues]
    refine h.values.congr fun u v => ?_
    rw [operandOf_iff, operandOf_iff, hkinds]
    by_cases hu : u.user = inst
    · rw [hu, Function.update_self, kindOf_of_inst hd]
      simp [hrep.values]
    · rw [Function.update_of_ne hu]
  -- the lists of blocks: off the old list, onto the new one
  · have hbase : ReverseIndex (m.updInst inst fun d => { d with kind := k' }).blockUses
        fun u c => P u.user ∧ m.BlockOperandOf u c := by
      rw [blockUses_updInst]
      exact h.blocks
    -- the slot was on the list of the old block alone
    have hold : ∀ c, P inst ∧ m.BlockOperandOf ⟨inst, slot⟩ c → c = ⟨inst.func, old⟩ := fun c hc =>
      hc.2.unique ⟨d, hd, rfl, hrep.mem⟩
    have hnew : ¬ ((P inst ∧ m.BlockOperandOf ⟨inst, slot⟩ b) ∧
        (b = ⟨inst.func, old⟩ → decide ((⟨inst, slot⟩ : BlockUse) ≠ ⟨inst, slot⟩) = true)) := by
      rintro ⟨hb, hne⟩
      simpa using hne (hold b hb)
    refine ((hbase.filter _ hw₁.live hw₁.blocks).push hw₂.live hnew hw₂.blocks).congr fun u c => ?_
    rw [blockOperandOf_iff, blockOperandOf_iff, hkinds]
    -- a use by `inst`, in this slot or in another one
    by_cases hu : u.user = inst
    · obtain ⟨user, s⟩ := u
      obtain ⟨bf, bb⟩ := b
      obtain ⟨cf, cb⟩ := c
      subst hu
      simp only at hfunc
      subst hfunc
      simp only [Function.update_self, Option.some.injEq, kindOf_of_inst hd, exists_eq_left',
        hrep.blocks, InstKind.mem_setSlot hrep.mem, hP, true_and, BlockUse.mk.injEq,
        BlockRef.mk.injEq, ne_eq, decide_not, Bool.not_eq_true', decide_eq_false_iff_not]
      constructor
      · rintro (⟨⟨hf, hw⟩, hne⟩ | ⟨rfl, rfl, rfl⟩)
        · refine ⟨hf, Or.inr ⟨?_, hw⟩⟩
          rintro rfl
          exact hne ⟨hf, InstKind.eq_of_mem_slot d.kind.blockOperands_nodup hw hrep.mem⟩ rfl
        · exact ⟨rfl, Or.inl ⟨rfl, rfl⟩⟩
      · rintro ⟨hf, ⟨rfl, rfl⟩ | ⟨hne, hw⟩⟩
        · exact Or.inr ⟨rfl, hf, rfl⟩
        · exact Or.inl ⟨⟨hf, hw⟩, fun _ => hne⟩
    -- a use by another instruction
    · have hne : u ≠ ⟨inst, slot⟩ := fun heq => hu (congrArg BlockUse.user heq)
      simp [Function.update_of_ne hu, hne]

/-- The users named in a list stay registered while their operands are replaced. -/
theorem replaceUses_spec {uses : List Use} {v : ValueId} (h : m.Registered P)
    (hP : ∀ u ∈ uses, P u.user)
    (hrun : uses.foldlM (fun m u => m.replaceInstOperand u.user u.slot v) m = some m') :
    m'.Registered P ∧ m'.parentOf = m.parentOf :=
  OptionFold.preserves (fun s => s.Registered P ∧ s.parentOf = m.parentOf)
    (fun u hu s s' hs hstep => by
      obtain ⟨hreg, hrw⟩ := replaceInstOperand_spec hs.1 (hP u hu) hstep
      exact ⟨hreg, hrw.parents.trans hs.2⟩) ⟨h, rfl⟩ hrun

/-- The kind of an instruction that is not among the users does not change. -/
theorem replaceUses_kind {uses : List Use} {v : ValueId} {r : InstRef}
    (hr : ∀ u ∈ uses, u.user ≠ r)
    (hrun : uses.foldlM (fun m u => m.replaceInstOperand u.user u.slot v) m = some m') :
    m'.kindOf r = m.kindOf r :=
  OptionFold.preserves (fun s => s.kindOf r = m.kindOf r)
    (fun u hu s s' hs hstep => by
      simp only [replaceInstOperand, Option.bind_eq_bind, Option.bind_eq_some_iff] at hstep
      obtain ⟨d, hd, ⟨old, k'⟩, -, m₂, hfilter, hpush⟩ := hstep
      obtain ⟨l₁, hw₁⟩ := updValueUses_spec hfilter
      obtain ⟨l₂, hw₂⟩ := updValueUses_spec hpush
      rw [(hw₁.code.trans hw₂.code).kindOf, kindOf_setKind hd,
        Function.update_of_ne (Ne.symm (hr u hu)), hs]) rfl hrun

/-- Replacing all uses of a value keeps the lists right. -/
theorem replaceAllUsesWith_spec (h : m.Registered P) {old new : ValueId}
    (hrun : m.replaceAllUsesWith old new = some m') :
    m'.Registered P ∧ m'.parentOf = m.parentOf ∧ ∀ r, ¬ P r → m'.kindOf r = m.kindOf r := by
  simp only [replaceAllUsesWith, Option.bind_eq_bind, Option.bind_eq_some_iff] at hrun
  obtain ⟨-, -, uses, huses, hrun⟩ := hrun
  have hP : ∀ u ∈ uses, P u.user := fun u hu => ((h.values.mem_iff huses).mp hu).1
  obtain ⟨hreg, hparents⟩ := replaceUses_spec h hP hrun
  refine ⟨hreg, hparents, fun r hr => replaceUses_kind (fun u hu hur => ?_) hrun⟩
  exact hr (hur ▸ hP u hu)

/-- Replacing all uses of a block keeps the lists right. -/
theorem replaceAllBlockUsesWith_spec (h : m.Registered P) {old new : BlockRef}
    (hrun : m.replaceAllBlockUsesWith old new = some m') :
    m'.Registered P ∧ m'.parentOf = m.parentOf := by
  simp only [replaceAllBlockUsesWith, Option.bind_eq_bind, Option.bind_eq_some_iff] at hrun
  obtain ⟨-, -, uses, huses, hrun⟩ := hrun
  exact OptionFold.preserves (fun s => s.Registered P ∧ s.parentOf = m.parentOf)
    (fun u hu s s' hs hstep => by
      have hP : P u.user := ((h.blocks.mem_iff huses).mp hu).1
      obtain ⟨hreg, hrw⟩ := replaceBlockOperand_spec hs.1 hP hstep
      exact ⟨hreg, hrw.parents.trans hs.2⟩) ⟨h, rfl⟩ hrun

/-! ## Incomings of a phi -/

/-- Only a phi is read as a phi. -/
theorem asPhi_eq_some {k : InstKind} {incomings : HashMap Nat PhiIncoming} {idx : Nat}
    (h : k.asPhi = some (incomings, idx)) : k = .phi incomings idx := by
  cases k <;> first | cases h; rfl | cases h

/-- Inserting under a free index puts the new incoming in front. -/
theorem mem_entries_insert {m : HashMap Nat PhiIncoming} {i : Nat} (hi : m.lookup i = none)
    (p : PhiIncoming) (e : Sigma fun _ : Nat => PhiIncoming) :
    e ∈ (m.insert i p).entries ↔ e = ⟨i, p⟩ ∨ e ∈ m.entries := by
  have hnot : i ∉ m := fun hmem => by
    rw [← AList.lookup_isSome, hi] at hmem
    cases hmem
  rw [AList.entries_insert_of_notMem hnot, List.mem_cons]

/-- The incomings that an erasure leaves. -/
theorem mem_entries_erase {m : HashMap Nat PhiIncoming} {i : Nat}
    (e : Sigma fun _ : Nat => PhiIncoming) :
    e ∈ (m.erase i).entries ↔ e ∈ m.entries ∧ e.1 ≠ i := by
  obtain ⟨j, p⟩ := e
  rw [← AList.mem_lookup_iff, ← AList.mem_lookup_iff]
  by_cases hj : j = i
  · subst hj; simp
  · rw [AList.lookup_erase_ne hj]; simp [hj]

/-- `phi_add_incoming` keeps the lists right where the next index is free. -/
theorem phiAddIncoming_spec (h : m.Registered P) {phi : InstRef} (hP : P phi) {block : BlockRef}
    {value : ValueId}
    (hfree : ∀ incomings idx, m.kindOf phi = some (.phi incomings idx) → incomings.lookup idx = none)
    (hrun : m.phiAddIncoming phi block value = some m') :
    m'.Registered P ∧ Rewritten m phi m' := by
  simp only [phiAddIncoming, Option.bind_eq_bind, Option.bind_eq_some_iff,
    Option.guard_eq_some'] at hrun
  obtain ⟨-, hfunc, d, hd, ⟨incomings, idx⟩, hphi, m₂, hval, hblock⟩ := hrun
  have hkd : d.kind = .phi incomings idx := asPhi_eq_some hphi
  have hnone : incomings.lookup idx = none := hfree incomings idx (hkd ▸ kindOf_of_inst hd)
  obtain ⟨l₁, hw₁⟩ := updValueUses_spec hval
  obtain ⟨l₂, hw₂⟩ := updBlockUses_spec hblock
  have hcode := hw₁.code.trans hw₂.code
  have hkinds : m'.kindOf = Function.update m.kindOf phi
      (some (.phi (incomings.insert idx ⟨block.block, value⟩) (idx + 1))) := by
    rw [hcode.kindOf, kindOf_setKind hd]
  have hparents : m'.parentOf = m.parentOf := by
    rw [hcode.parentOf, parentOf_updInst (by intro; rfl)]
  -- no operand of the phi stands under the free index
  have hslot : ∀ p : PhiIncoming, (⟨idx, p⟩ : Sigma fun _ : Nat => PhiIncoming) ∉ incomings.entries := by
    intro p hmem
    rw [← AList.mem_lookup_iff, hnone] at hmem
    cases hmem
  refine ⟨⟨?_, ?_⟩, hparents, d.kind, _, kindOf_of_inst hd, by rw [hkd]; rfl, hkinds⟩
  -- the value of the incoming is one operand more
  · have hbase : ReverseIndex (m.updInst phi fun d =>
        { d with kind := .phi (incomings.insert idx ⟨block.block, value⟩) (idx + 1) }).valueUses
        fun u w => P u.user ∧ m.OperandOf u w := by
      rw [valueUses_updInst (by intro; rfl)]
      exact h.values
    have hnew : ¬ (P phi ∧ m.OperandOf ⟨phi, .phiIncomingVal idx⟩ value) := by
      rw [operandOf_iff]
      rintro ⟨-, k, hk, hmem⟩
      rw [kindOf_of_inst hd, hkd] at hk
      cases hk
      obtain ⟨⟨i, p⟩, he, heq⟩ := List.mem_map.mp hmem
      cases heq
      exact hslot p he
    rw [hw₂.values]
    refine (hbase.push hw₁.live hnew hw₁.values).congr fun u w => ?_
    rw [operandOf_iff, operandOf_iff, hkinds]
    by_cases hu : u.user = phi
    · obtain ⟨user, s⟩ := u
      subst hu
      simp only [Function.update_self, Option.some.injEq, kindOf_of_inst hd, exists_eq_left', hkd,
        InstKind.valueOperands, List.mem_map, mem_entries_insert hnone, hP, true_and, Use.mk.injEq,
        Prod.mk.injEq, or_and_right, exists_or, exists_eq_left]
      rw [or_comm, @eq_comm _ s, @eq_comm _ w, @and_comm (_ = s)]
    · have hne : u ≠ ⟨phi, .phiIncomingVal idx⟩ := fun heq => hu (congrArg Use.user heq)
      simp [Function.update_of_ne hu, hne]
  -- its block is one block operand more
  · have hbase : ReverseIndex m₂.blockUses fun u c => P u.user ∧ m.BlockOperandOf u c := by
      rw [hw₁.blocks, blockUses_updInst]
      exact h.blocks
    have hnew : ¬ (P phi ∧ m.BlockOperandOf ⟨phi, .phiIncomingBlock idx⟩ block) := by
      rw [blockOperandOf_iff]
      rintro ⟨-, k, hk, -, hmem⟩
      rw [kindOf_of_inst hd, hkd] at hk
      cases hk
      obtain ⟨⟨i, p⟩, he, heq⟩ := List.mem_map.mp hmem
      simp only [Prod.mk.injEq, BlockOperandSlot.phiIncomingBlock.injEq] at heq
      exact hslot p (heq.2 ▸ he)
    refine (hbase.push hw₂.live hnew hw₂.blocks).congr fun u c => ?_
    rw [blockOperandOf_iff, blockOperandOf_iff, hkinds]
    by_cases hu : u.user = phi
    · obtain ⟨user, s⟩ := u
      obtain ⟨bf, bb⟩ := block
      obtain ⟨cf, cb⟩ := c
      subst hu
      simp only at hfunc
      subst hfunc
      simp only [Function.update_self, Option.some.injEq, kindOf_of_inst hd, exists_eq_left', hkd,
        InstKind.blockOperands, List.mem_map, mem_entries_insert hnone, hP, true_and,
        BlockUse.mk.injEq, BlockRef.mk.injEq, Prod.mk.injEq, or_and_right, exists_or,
        exists_eq_left]
      constructor
      · rintro (⟨hf, he⟩ | ⟨rfl, hf, rfl⟩)
        · exact ⟨hf, Or.inr he⟩
        · exact ⟨hf, Or.inl ⟨rfl, rfl⟩⟩
      · rintro ⟨hf, ⟨rfl, rfl⟩ | he⟩
        · exact Or.inr ⟨rfl, hf, rfl⟩
        · exact Or.inl ⟨hf, he⟩
    · have hne : u ≠ ⟨phi, .phiIncomingBlock idx⟩ := fun heq => hu (congrArg BlockUse.user heq)
      simp [Function.update_of_ne hu, hne]

/-- `phi_remove_incoming_from` keeps the lists right, and the block operand of the incoming is gone.
-/
theorem phiRemoveIncomingFrom_spec (h : m.Registered P) {phi : InstRef} {i : Nat}
    (hrun : m.phiRemoveIncomingFrom phi i = some m') :
    m'.Registered P ∧ Rewritten m phi m' ∧ ∀ u b, m'.BlockOperandOf u b →
      m.BlockOperandOf u b ∧ u ≠ ⟨phi, .phiIncomingBlock i⟩ := by
  simp only [phiRemoveIncomingFrom, Option.bind_eq_bind, Option.bind_eq_some_iff] at hrun
  obtain ⟨d, hd, ⟨incomings, idx⟩, hphi, p, hp, m₂, hval, hblock⟩ := hrun
  have hkd : d.kind = .phi incomings idx := asPhi_eq_some hphi
  obtain ⟨l₁, hw₁⟩ := updValueUses_spec hval
  obtain ⟨l₂, hw₂⟩ := updBlockUses_spec hblock
  have hcode := hw₁.code.trans hw₂.code
  have hkinds : m'.kindOf = Function.update m.kindOf phi (some (.phi (incomings.erase i) idx)) := by
    rw [hcode.kindOf, kindOf_setKind hd]
  have hparents : m'.parentOf = m.parentOf := by
    rw [hcode.parentOf, parentOf_updInst (by intro; rfl)]
  have hentry : ∀ q : PhiIncoming, (⟨i, q⟩ : Sigma fun _ : Nat => PhiIncoming) ∈ incomings.entries →
      q = p := by
    intro q hq
    rw [← AList.mem_lookup_iff, hp] at hq
    exact (Option.some.inj hq).symm
  refine ⟨⟨?_, ?_⟩, ⟨hparents, d.kind, _, kindOf_of_inst hd, by rw [hkd]; rfl, hkinds⟩, ?_⟩
  -- the value of the incoming is no operand any more
  · have hbase : ReverseIndex (m.updInst phi fun d =>
        { d with kind := .phi (incomings.erase i) idx }).valueUses
        fun u w => P u.user ∧ m.OperandOf u w := by
      rw [valueUses_updInst (by intro; rfl)]
      exact h.values
    rw [hw₂.values]
    refine (hbase.filter _ hw₁.live hw₁.values).congr fun u w => ?_
    rw [operandOf_iff, operandOf_iff, hkinds]
    by_cases hu : u.user = phi
    · obtain ⟨user, s⟩ := u
      subst hu
      simp only [Function.update_self, Option.some.injEq, kindOf_of_inst hd, exists_eq_left', hkd,
        InstKind.valueOperands, List.mem_map, mem_entries_erase, Use.mk.injEq, true_and,
        Prod.mk.injEq, ne_eq, decide_not, Bool.not_eq_true', decide_eq_false_iff_not, and_assoc]
      refine and_congr_right fun _ => ?_
      constructor
      · rintro ⟨⟨⟨j, q⟩, he, rfl, rfl⟩, hne⟩
        refine ⟨⟨j, q⟩, he, ?_, rfl, rfl⟩
        rintro rfl
        exact hne (congrArg _ (hentry q he)) rfl
      · rintro ⟨⟨j, q⟩, he, hj, rfl, rfl⟩
        exact ⟨⟨⟨j, q⟩, he, rfl, rfl⟩, fun _ heq => hj (by cases heq; rfl)⟩
    · have hne : u ≠ ⟨phi, .phiIncomingVal i⟩ := fun heq => hu (congrArg Use.user heq)
      simp [Function.update_of_ne hu, hne]
  -- its block is no block operand any more
  · have hbase : ReverseIndex m₂.blockUses fun u c => P u.user ∧ m.BlockOperandOf u c := by
      rw [hw₁.blocks, blockUses_updInst]
      exact h.blocks
    refine (hbase.filter _ hw₂.live hw₂.blocks).congr fun u c => ?_
    rw [blockOperandOf_iff, blockOperandOf_iff, hkinds]
    by_cases hu : u.user = phi
    · obtain ⟨user, s⟩ := u
      obtain ⟨cf, cb⟩ := c
      subst hu
      simp only [Function.update_self, Option.some.injEq, kindOf_of_inst hd, exists_eq_left', hkd,
        InstKind.blockOperands, List.mem_map, mem_entries_erase, BlockUse.mk.injEq, true_and,
        BlockRef.mk.injEq, Prod.mk.injEq, ne_eq, decide_not, Bool.not_eq_true',
        decide_eq_false_iff_not, and_assoc]
      refine and_congr_right fun _ => and_congr_right_iff.mpr fun hf => ?_
      constructor
      · rintro ⟨⟨⟨j, q⟩, he, rfl, rfl⟩, hne⟩
        refine ⟨⟨j, q⟩, he, ?_, rfl, rfl⟩
        rintro rfl
        exact hne ⟨hf, congrArg _ (hentry q he)⟩ rfl
      · rintro ⟨⟨j, q⟩, he, hj, rfl, rfl⟩
        exact ⟨⟨⟨j, q⟩, he, rfl, rfl⟩, fun _ heq => hj (by cases heq; rfl)⟩
    · have hne : u ≠ ⟨phi, .phiIncomingBlock i⟩ := fun heq => hu (congrArg BlockUse.user heq)
      simp [Function.update_of_ne hu, hne]
  -- what is left has been there before
  · intro u b hb
    rw [blockOperandOf_iff, hkinds] at hb
    rw [blockOperandOf_iff]
    by_cases hu : u.user = phi
    · obtain ⟨user, s⟩ := u
      subst hu
      obtain ⟨k, hk, hf, hmem⟩ := hb
      rw [Function.update_self] at hk
      cases hk
      obtain ⟨⟨j, q⟩, he, heq⟩ := List.mem_map.mp hmem
      obtain ⟨he, hj⟩ := (mem_entries_erase _).mp he
      simp only [Prod.mk.injEq] at heq
      obtain ⟨hb, rfl⟩ := heq
      refine ⟨⟨d.kind, kindOf_of_inst hd, hf, ?_⟩, fun heq => hj (by cases heq; rfl)⟩
      rw [hkd]
      exact List.mem_map.mpr ⟨⟨j, q⟩, he, Prod.ext hb rfl⟩
    · rw [Function.update_of_ne hu] at hb
      exact ⟨hb, fun heq => hu (congrArg BlockUse.user heq)⟩

end ModuleCore

end Ir
