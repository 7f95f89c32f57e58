import C0mpiler.Mir.LowerFunction
import Mathlib

/-!
# The registers of a function under lowering

What `initialize_blocks`, `collect_phis`, `initialize_func_arguments` and `collect_value` leave for
the lowering of the blocks: the blocks are numbered in order, every value has a register of its own
below the counter, and the phis of a block are recorded with their registers and incoming values.
-/

namespace Mir

open Ir (ModuleCore ValueId BlockRef InstRef FunctionId)

variable {R I : Type}

/-! ## Blocks -/

namespace MachineFunction

/-- The id of a block is its index. -/
def Indexed (F : MachineFunction R I) : Prop :=
  F.blocks.map (·.id) = List.range F.blocks.length

/-- The id of a block is its place. -/
theorem Indexed.id {F : MachineFunction R I} (h : F.Indexed) {k : Nat} {b : MachineBlock I}
    (hb : F.blocks[k]? = some b) : b.id = k := by
  have hk : k < F.blocks.length := (List.getElem?_eq_some_iff.mp hb).1
  have hid : (F.blocks.map (·.id))[k]? = some b.id := by rw [List.getElem?_map, hb]; rfl
  rw [h, List.getElem?_range hk] at hid
  exact (Option.some.inj hid).symm

/-- The counter is no part of it. -/
theorem Indexed.setCounter {F : MachineFunction R I} (h : F.Indexed) (c : Nat) :
    Indexed { F with vregCounter := c } := h

/-- A block is found under its place. -/
theorem Indexed.getBlock {F : MachineFunction R I} (h : F.Indexed) {k : Nat} {b : MachineBlock I}
    (hb : F.blocks[k]? = some b) : F.getBlock k = some b := by
  obtain ⟨hk, hget⟩ := List.getElem?_eq_some_iff.mp hb
  refine List.find?_eq_some_iff_getElem.mpr ⟨by simpa using h.id hb, k, hk, hget, ?_⟩
  intro j hj
  have hj' : F.blocks[j].id = j := h.id (List.getElem?_eq_getElem (hj.trans hk))
  simp only [hj', Bool.not_eq_true', decide_eq_false_iff_not]
  exact Nat.ne_of_lt hj

/-- A new block takes the next number. -/
theorem Indexed.pushBlock {F : MachineFunction R I} (h : F.Indexed) (insts : List I) :
    (F.pushBlock ⟨F.blocks.length, insts⟩).Indexed := by
  unfold Indexed at h ⊢
  simp [MachineFunction.pushBlock, h, List.range_succ]

/-- Appending to a block changes its instructions only. -/
theorem Indexed.extendBlock {F F' : MachineFunction R I} (h : F.Indexed) {id : BlockId}
    {insts : List I} (hext : F.extendBlock id insts = some F') :
    id < F.blocks.length ∧ F' = { F with
      blocks := F.blocks.modify id fun b => { b with instructions := b.instructions ++ insts } } := by
  obtain ⟨k, hk, hF'⟩ := Option.bind_eq_some_iff.mp hext
  obtain ⟨hlt, hid, -⟩ := List.findIdx?_eq_some_iff_getElem.mp hk
  have hkid : F.blocks[k].id = k := h.id (List.getElem?_eq_getElem hlt)
  have hki : k = id := by simpa [hkid] using hid
  subst hki
  exact ⟨hlt, (Option.some.inj hF').symm⟩

/-- Appending instructions numbers nothing anew. -/
theorem Indexed.append {F : MachineFunction R I} (h : F.Indexed) (k : Nat) (insts : List I) :
    Indexed { F with
      blocks := F.blocks.modify k fun b => { b with instructions := b.instructions ++ insts } } := by
  unfold Indexed at h ⊢
  dsimp only
  rw [List.length_modify, ← h]
  refine List.ext_getElem? fun j => ?_
  rw [List.getElem?_map, List.getElem?_map, List.getElem?_modify]
  cases F.blocks[j]? with
  | none => rfl
  | some b =>
    simp only [Option.map_some]
    split <;> rfl

end MachineFunction

namespace FunctionLoweringState

/-- The blocks `blocks` are numbered in order. -/
def Numbers (S : FunctionLoweringState) (blocks : List BlockRef) : Prop :=
  ∀ b k, S.blockId b = some k ↔ blocks[k]? = some b

/-- Block numbers are places. -/
theorem Numbers.lt {S : FunctionLoweringState} {blocks : List BlockRef} (h : S.Numbers blocks)
    {b : BlockRef} {k : Nat} (hk : S.blockId b = some k) : k < blocks.length :=
  (List.getElem?_eq_some_iff.mp ((h b k).mp hk)).1

/-- No two blocks have one number. -/
theorem Numbers.inj {S : FunctionLoweringState} {blocks : List BlockRef} (h : S.Numbers blocks)
    {b b' : BlockRef} {k : Nat} (hk : S.blockId b = some k) (hk' : S.blockId b' = some k) :
    b = b' :=
  Option.some.inj (((h b k).mp hk).symm.trans ((h b' k).mp hk'))

/-- A numbered block is in the list. -/
theorem Numbers.mem {S : FunctionLoweringState} {blocks : List BlockRef} (h : S.Numbers blocks)
    {b : BlockRef} {k : Nat} (hk : S.blockId b = some k) : b ∈ blocks :=
  List.mem_of_getElem? ((h b k).mp hk)

end FunctionLoweringState

/-- One more block. -/
theorem initializeBlocks_append (blocks : List BlockRef) (b : BlockRef)
    (F : MachineFunction R I) :
    initializeBlocks (blocks ++ [b]) F =
      ((initializeBlocks blocks F).1.recordBlock b blocks.length,
        (initializeBlocks blocks F).2.pushBlock ⟨blocks.length, []⟩) := by
  simp [initializeBlocks, List.zipIdx_append]

/-- The state after `initialize_blocks`. -/
structure Initialized (blocks : List BlockRef) (S : FunctionLoweringState)
    (F : MachineFunction R I) : Prop where
  numbers : S.Numbers blocks
  blockOrder : S.blockOrder = blocks
  vregs : ∀ v, S.vregForValue v = none
  indexed : F.Indexed
  length : F.blocks.length = blocks.length
  vregCounter : F.vregCounter = 0

/-- `initialize_blocks` numbers the blocks and leaves them empty. -/
theorem initializeBlocks_initialized {blocks : List BlockRef} (hnodup : blocks.Nodup) :
    Initialized blocks (initializeBlocks blocks (emptyMachineFunction : MachineFunction R I)).1
      (initializeBlocks blocks (emptyMachineFunction : MachineFunction R I)).2 := by
  induction blocks using List.reverseRecOn with
  | nil =>
    refine ⟨?_, rfl, fun _ => rfl, rfl, rfl, rfl⟩
    intro b k
    simp [initializeBlocks, FunctionLoweringState.new, FunctionLoweringState.blockId]
  | append_singleton blocks b ih =>
    have hsplit := List.nodup_append.mp hnodup
    have hb : b ∉ blocks := fun h => hsplit.2.2 b h b List.mem_cons_self rfl
    have hi := ih hsplit.1
    rw [initializeBlocks_append]
    refine ⟨?_, ?_, hi.vregs, ?_, ?_, hi.vregCounter⟩
    · intro b' k
      simp only [FunctionLoweringState.blockId, FunctionLoweringState.recordBlock,
        HashMap.lookup_insert_ite]
      -- the new block has the last number; the others keep theirs
      by_cases hbb : b' = b
      · subst hbb
        simp only [if_true, Option.some.injEq]
        constructor
        · rintro rfl
          simp
        · intro hk
          rcases Nat.lt_trichotomy k blocks.length with hlt | heq | hgt
          · rw [List.getElem?_append_left hlt] at hk
            exact absurd (List.mem_of_getElem? hk) hb
          · exact heq.symm
          · rw [List.getElem?_eq_none (by simp; omega)] at hk
            cases hk
      · rw [if_neg hbb]
        refine (hi.numbers b' k).trans ?_
        by_cases hlt : k < blocks.length
        · rw [List.getElem?_append_left hlt]
        · rw [List.getElem?_eq_none (Nat.le_of_not_lt hlt),
            List.getElem?_append_right (Nat.le_of_not_lt hlt)]
          cases hk : k - blocks.length with
          | zero => simpa using fun h => hbb h.symm
          | succ j => simp
    · exact congrArg (· ++ [b]) hi.blockOrder
    · rw [← hi.length]
      exact hi.indexed.pushBlock []
    · simp [MachineFunction.pushBlock, hi.length]

/-! ## Registers -/

/-- Every value has a register of its own, below the counter. -/
structure VregsWf (S : FunctionLoweringState) (c : Nat) : Prop where
  below : S.Below c
  inj : ∀ v v' r, S.vregForValue v = some r → S.vregForValue v' = some r → v = v'

/-- A value gets a register that no value has. -/
theorem VregsWf.recordVreg {S : FunctionLoweringState} {c : Nat} (h : VregsWf S c) (v : ValueId) :
    VregsWf (S.recordVreg v c) (c + 1) := by
  have hlookup : ∀ v', (S.recordVreg v c).vregForValue v' =
      if v' = v then some c else S.vregForValue v' := fun v' => HashMap.lookup_insert_ite ..
  constructor
  · intro v' r hr
    rw [hlookup] at hr
    split at hr
    · cases hr
      exact Nat.lt_succ_self c
    · exact (h.below v' r hr).trans (Nat.lt_succ_self c)
  · intro v₁ v₂ r h₁ h₂
    rw [hlookup] at h₁ h₂
    split at h₁ <;> split at h₂
    · next e₁ e₂ => exact e₁.trans e₂.symm
    · cases h₁
      exact absurd (h.below v₂ c h₂) (Nat.lt_irrefl c)
    · cases h₂
      exact absurd (h.below v₁ c h₁) (Nat.lt_irrefl c)
    · exact h.inj v₁ v₂ r h₁ h₂

/-- What the later phases keep: the blocks, the phis and the registers of the instructions. -/
structure Keeps (S S' : FunctionLoweringState) : Prop where
  blockMap : S'.blockMap = S.blockMap
  phiInfos : S'.phiInfos = S.phiInfos
  vreg : ∀ i r, S.vregForValue (.inst i) = some r → S'.vregForValue (.inst i) = some r

theorem Keeps.refl (S : FunctionLoweringState) : Keeps S S := ⟨rfl, rfl, fun _ _ h => h⟩

theorem Keeps.trans {S S' S'' : FunctionLoweringState} (h : Keeps S S') (h' : Keeps S' S'') :
    Keeps S S'' :=
  ⟨h'.blockMap.trans h.blockMap, h'.phiInfos.trans h.phiInfos,
    fun i r hr => h'.vreg i r (h.vreg i r hr)⟩

/-! ## Phis -/

section Phis

variable {m : ModuleCore} {S S' : FunctionLoweringState}

/-- The record of a phi: its register and its incoming values. -/
def InfoOf (m : ModuleCore) (S : FunctionLoweringState) (phi : InstRef) (info : PhiInfo) : Prop :=
  S.vregForValue (.inst phi) = some info.dst ∧ collectIncomings m S phi = some info.incomings

/-- The phis of the block are recorded. -/
def BlockInfos (m : ModuleCore) (S : FunctionLoweringState) (block : BlockRef) : Prop :=
  ∃ id phis infos, S.blockId block = some id ∧ m.phisInOrder block = some phis ∧
    S.phiInfos.lookup id = some infos ∧ List.Forall₂ (InfoOf m S) phis infos

/-- The incoming blocks are looked up by number. -/
theorem collectIncomings_congr (h : S'.blockMap = S.blockMap) (phi : InstRef) :
    collectIncomings m S' phi = collectIncomings m S phi := by
  unfold collectIncomings FunctionLoweringState.blockId
  rw [h]

/-- What is known of a block stays known. -/
theorem Keeps.blockInfos (h : Keeps S S') {block : BlockRef} (hb : BlockInfos m S block) :
    BlockInfos m S' block := by
  obtain ⟨id, phis, infos, hid, hphis, hinfos, hall⟩ := hb
  refine ⟨id, phis, infos, ?_, hphis, ?_, hall.imp ?_⟩
  · rw [FunctionLoweringState.blockId, h.blockMap]
    exact hid
  · rw [h.phiInfos]
    exact hinfos
  · rintro phi info ⟨hvreg, hinc⟩
    exact ⟨h.vreg phi _ hvreg, by rw [collectIncomings_congr h.blockMap, hinc]⟩

/-- Between the states before and after some phis were recorded: the registers of other values and
the records of other blocks are unchanged. -/
structure Records (phis : List InstRef) (ids : List BlockId) (S S' : FunctionLoweringState) :
    Prop where
  blockMap : S'.blockMap = S.blockMap
  blockOrder : S'.blockOrder = S.blockOrder
  vreg : ∀ v, (∀ phi ∈ phis, v ≠ .inst phi) → S'.vregForValue v = S.vregForValue v
  phiInfos : ∀ id, id ∉ ids → S'.phiInfos.lookup id = S.phiInfos.lookup id

theorem Records.trans {phis phis' : List InstRef} {ids ids' : List BlockId}
    {S'' : FunctionLoweringState} (h : Records phis ids S S') (h' : Records phis' ids' S' S'') :
    Records (phis ++ phis') (ids ++ ids') S S'' where
  blockMap := h'.blockMap.trans h.blockMap
  blockOrder := h'.blockOrder.trans h.blockOrder
  vreg := fun v hv => (h'.vreg v fun phi hphi => hv phi (List.mem_append_right _ hphi)).trans
    (h.vreg v fun phi hphi => hv phi (List.mem_append_left _ hphi))
  phiInfos := fun id hid => (h'.phiInfos id fun hm => hid (List.mem_append_right _ hm)).trans
    (h.phiInfos id fun hm => hid (List.mem_append_left _ hm))

/-- The records of a block outlive those of other blocks. -/
theorem Records.blockInfos {phis : List InstRef} {ids : List BlockId} (h : Records phis ids S S')
    {block : BlockRef} {blockPhis : List InstRef} (hphis : m.phisInOrder block = some blockPhis)
    (hdisj : ∀ phi ∈ blockPhis, phi ∉ phis) {id : BlockId} (hid : S.blockId block = some id)
    (hids : id ∉ ids) (hb : BlockInfos m S block) : BlockInfos m S' block := by
  obtain ⟨id', phis', infos, hid', hphis', hinfos, hall⟩ := hb
  obtain rfl : id = id' := Option.some.inj (hid.symm.trans hid')
  obtain rfl : blockPhis = phis' := Option.some.inj (hphis.symm.trans hphis')
  refine ⟨id, blockPhis, infos, ?_, hphis, ?_, ?_⟩
  · rw [FunctionLoweringState.blockId, h.blockMap]
    exact hid
  · rw [h.phiInfos id hids, hinfos]
  · refine List.forall₂_iff_get.mpr ⟨hall.length_eq, fun k h₁ h₂ => ?_⟩
    obtain ⟨hvreg, hinc⟩ := (List.forall₂_iff_get.mp hall).2 k h₁ h₂
    refine ⟨?_, by rw [collectIncomings_congr h.blockMap, hinc]⟩
    rw [h.vreg _ ?_, hvreg]
    rintro phi hphi heq
    cases heq
    exact hdisj _ (List.get_mem ..) hphi

/-- Recording the register of a phi. -/
theorem records_recordVreg (S : FunctionLoweringState) (phi : InstRef) (c : Nat) :
    Records [phi] [] S (S.recordVreg (.inst phi) c) where
  blockMap := rfl
  blockOrder := rfl
  vreg := fun _ hv => AList.lookup_insert_ne (hv phi List.mem_cons_self)
  phiInfos := fun _ _ => rfl

/-- The phis of one block. -/
theorem collectPhi_loop {phis : List InstRef} (hnodup : phis.Nodup) {infos infos' : List PhiInfo}
    {c c' : Nat} (hS : VregsWf S c)
    (h : phis.foldlM (collectPhi m) (infos, S, c) = some (infos', S', c')) :
    VregsWf S' c' ∧ Records phis [] S S' ∧
      ∃ new, infos' = infos ++ new ∧ List.Forall₂ (InfoOf m S') phis new := by
  induction phis generalizing infos S c with
  | nil =>
    cases h
    exact ⟨hS, ⟨rfl, rfl, fun _ _ => rfl, fun _ _ => rfl⟩, [], (List.append_nil _).symm, .nil⟩
  | cons phi phis ih =>
    obtain ⟨hphi, hrest⟩ := List.nodup_cons.mp hnodup
    rw [List.foldlM_cons] at h
    obtain ⟨st, hstep, h⟩ := Option.bind_eq_some_iff.mp h
    obtain ⟨incomings, hinc, hst⟩ := Option.bind_eq_some_iff.mp hstep
    cases hst
    obtain ⟨hwf, hrec, new, hinfos, hall⟩ := ih hrest (hS.recordVreg (.inst phi)) h
    have hvreg : S'.vregForValue (.inst phi) = some c := by
      rw [hrec.vreg _ fun phi' hphi' heq => by cases heq; exact hphi hphi']
      exact AList.lookup_insert _
    refine ⟨hwf, (records_recordVreg S phi c).trans hrec, ⟨c, incomings⟩ :: new, ?_, ?_⟩
    · rw [hinfos, List.append_assoc]
      rfl
    · refine .cons ⟨hvreg, ?_⟩ hall
      rw [collectIncomings_congr hrec.blockMap]
      exact hinc

/-- The phis of a block of the function. -/
def blockPhis (m : ModuleCore) (block : BlockRef) : List InstRef :=
  (m.phisInOrder block).getD []

/-- `collect_phis` for one block. -/
theorem collectBlockPhis_records {block : BlockRef} (hnodup : (blockPhis m block).Nodup)
    {c c' : Nat} (hS : VregsWf S c) (h : collectBlockPhis m (S, c) block = some (S', c')) :
    VregsWf S' c' ∧ BlockInfos m S' block ∧ ∃ id, S.blockId block = some id ∧
      Records (blockPhis m block) [id] S S' := by
  obtain ⟨id, hid, h⟩ := Option.bind_eq_some_iff.mp h
  obtain ⟨phis, hphis, h⟩ := Option.bind_eq_some_iff.mp h
  obtain ⟨⟨infos, S₁, c₁⟩, hloop, h⟩ := Option.bind_eq_some_iff.mp h
  cases h
  have hblock : blockPhis m block = phis := by rw [blockPhis, hphis]; rfl
  rw [hblock] at hnodup ⊢
  obtain ⟨hwf, hrec, new, hinfos, hall⟩ := collectPhi_loop hnodup hS hloop
  obtain rfl : infos = new := hinfos
  refine ⟨⟨hwf.below, hwf.inj⟩, ⟨id, phis, infos, ?_, hphis, AList.lookup_insert _, hall⟩, id, hid,
    ⟨hrec.blockMap, hrec.blockOrder, hrec.vreg, ?_⟩⟩
  · show S₁.blockMap.lookup block = some id
    rw [hrec.blockMap]
    exact hid
  · intro id' hid'
    have hne : id' ≠ id := fun heq => hid' (heq ▸ List.mem_cons_self)
    exact (AList.lookup_insert_ne hne).trans (hrec.phiInfos id' List.not_mem_nil)

/-- `collect_phis` records the phis of all blocks. -/
theorem collectPhis_loop {blocks : List BlockRef} (hnodup : blocks.Nodup)
    (hphis : (blocks.flatMap (blockPhis m)).Nodup)
    (hinj : ∀ b b' k, S.blockId b = some k → S.blockId b' = some k → b = b')
    {c c' : Nat} (hS : VregsWf S c)
    (h : blocks.foldlM (collectBlockPhis m) (S, c) = some (S', c')) :
    VregsWf S' c' ∧ (∀ b ∈ blocks, BlockInfos m S' b) ∧
      Records (blocks.flatMap (blockPhis m)) (blocks.filterMap S.blockId) S S' := by
  induction blocks generalizing S c with
  | nil =>
    cases h
    exact ⟨hS, by simp, ⟨rfl, rfl, fun _ _ => rfl, fun _ _ => rfl⟩⟩
  | cons block blocks ih =>
    obtain ⟨hblock, hblocks⟩ := List.nodup_cons.mp hnodup
    rw [List.flatMap_cons] at hphis
    -- the phis of the other blocks are different ones, so their records stay
    obtain ⟨hnd, hndrest, hdisj⟩ := List.nodup_append.mp hphis
    rw [List.foldlM_cons] at h
    obtain ⟨⟨S₁, c₁⟩, hstep, h⟩ := Option.bind_eq_some_iff.mp h
    obtain ⟨hwf₁, hinfos₁, id, hid, hrec₁⟩ := collectBlockPhis_records hnd hS hstep
    have hsame : S₁.blockId = S.blockId := by
      funext b
      rw [FunctionLoweringState.blockId, hrec₁.blockMap]
      rfl
    obtain ⟨hwf, hinfos, hrec⟩ := ih hblocks hndrest (by rw [hsame]; exact hinj) hwf₁ h
    -- and so are the numbers of the blocks
    have hids : id ∉ blocks.filterMap S₁.blockId := by
      rw [hsame]
      intro hmem
      obtain ⟨b, hb, hbid⟩ := List.mem_filterMap.mp hmem
      exact hblock (hinj b block id hbid hid ▸ hb)
    refine ⟨hwf, ?_, ?_⟩
    · intro b hb
      rcases List.mem_cons.mp hb with rfl | hb
      · have hb := hinfos₁
        obtain ⟨id', phis, infos, hid', hphis', -⟩ := hb
        have hbp : blockPhis m b = phis := by rw [blockPhis, hphis']; rfl
        refine hrec.blockInfos hphis' ?_ (by rw [hsame]; exact hid) hids hinfos₁
        intro phi hphi hmem
        exact hdisj phi (hbp ▸ hphi) phi hmem rfl
      · exact hinfos b hb
    · have htrans := hrec₁.trans hrec
      rw [hsame] at htrans
      rw [List.flatMap_cons, List.filterMap_cons_some hid]
      exact htrans

end Phis

/-! ## Arguments and values -/

section Values

variable {m : ModuleCore} {S S' : FunctionLoweringState}

/-- A register for a value that has none. -/
theorem keeps_recordVreg {v : ValueId} {c : Nat}
    (hv : ∀ i r, v = .inst i → S.vregForValue (.inst i) ≠ some r) : Keeps S (S.recordVreg v c) where
  blockMap := rfl
  phiInfos := rfl
  vreg := by
    intro i r hr
    have hne : ValueId.inst i ≠ v := fun heq => hv i r heq.symm hr
    exact (AList.lookup_insert_ne hne).trans hr

/-- An instruction without a register gets one. -/
theorem collectInst_keeps {inst : InstRef} {c c' : Nat} (hS : VregsWf S c)
    (h : collectInst m (S, c) inst = some (S', c')) : VregsWf S' c' ∧ Keeps S S' := by
  obtain ⟨ty, hty, h⟩ := Option.bind_eq_some_iff.mp h
  split at h
  · cases h
    exact ⟨hS, Keeps.refl S⟩
  · split at h
    · cases h
      exact ⟨hS, Keeps.refl S⟩
    · next hnone =>
      cases h
      refine ⟨hS.recordVreg _, keeps_recordVreg fun i r heq => ?_⟩
      cases heq
      rw [show S.vregForValue (.inst inst) = none from hnone]
      exact fun hr => by cases hr

/-- The instructions of a block. -/
theorem collectInst_loop {insts : List InstRef} {c c' : Nat} (hS : VregsWf S c)
    (h : insts.foldlM (collectInst m) (S, c) = some (S', c')) : VregsWf S' c' ∧ Keeps S S' := by
  induction insts generalizing S c with
  | nil =>
    cases h
    exact ⟨hS, Keeps.refl _⟩
  | cons inst insts ih =>
    rw [List.foldlM_cons] at h
    obtain ⟨⟨S₁, c₁⟩, hstep, h⟩ := Option.bind_eq_some_iff.mp h
    obtain ⟨hwf₁, hkeeps₁⟩ := collectInst_keeps hS hstep
    obtain ⟨hwf, hkeeps⟩ := ih hwf₁ h
    exact ⟨hwf, hkeeps₁.trans hkeeps⟩

/-- `collect_value` for one block. -/
theorem collectValue_keeps {block : BlockRef} {c c' : Nat} (hS : VregsWf S c)
    (h : collectValue m (S, c) block = some (S', c')) : VregsWf S' c' ∧ Keeps S S' := by
  obtain ⟨phis, -, h⟩ := Option.bind_eq_some_iff.mp h
  obtain ⟨⟨S₁, c₁⟩, hphis, h⟩ := Option.bind_eq_some_iff.mp h
  obtain ⟨insts, -, h⟩ := Option.bind_eq_some_iff.mp h
  obtain ⟨⟨S₂, c₂⟩, hinsts, h⟩ := Option.bind_eq_some_iff.mp h
  obtain ⟨term, -, h⟩ := Option.bind_eq_some_iff.mp h
  obtain ⟨hwf₁, hkeeps₁⟩ := collectInst_loop hS hphis
  obtain ⟨hwf₂, hkeeps₂⟩ := collectInst_loop hwf₁ hinsts
  cases term with
  | none =>
    cases h
    exact ⟨hwf₂, hkeeps₁.trans hkeeps₂⟩
  | some inst =>
    obtain ⟨hwf, hkeeps⟩ := collectInst_keeps hwf₂ h
    exact ⟨hwf, (hkeeps₁.trans hkeeps₂).trans hkeeps⟩

/-- And for all of them. -/
theorem collectValue_loop {blocks : List BlockRef} {c c' : Nat} (hS : VregsWf S c)
    (h : blocks.foldlM (collectValue m) (S, c) = some (S', c')) : VregsWf S' c' ∧ Keeps S S' := by
  induction blocks generalizing S c with
  | nil =>
    cases h
    exact ⟨hS, Keeps.refl _⟩
  | cons block blocks ih =>
    rw [List.foldlM_cons] at h
    obtain ⟨⟨S₁, c₁⟩, hstep, h⟩ := Option.bind_eq_some_iff.mp h
    obtain ⟨hwf₁, hkeeps₁⟩ := collectValue_keeps hS hstep
    obtain ⟨hwf, hkeeps⟩ := ih hwf₁ h
    exact ⟨hwf, hkeeps₁.trans hkeeps⟩

variable [DecidableEq R] [EmitTarget R I]

omit [DecidableEq R] in
/-- Every argument gets a register of its own. -/
theorem recordArg_loop (params : List (Ir.ArgRef × Nat)) {e : Emitter I}
    (hS : VregsWf S e.vregCounter) :
    VregsWf (params.foldl recordArg (S, e)).1 (params.foldl recordArg (S, e)).2.vregCounter ∧
      Keeps S (params.foldl recordArg (S, e)).1 := by
  induction params generalizing S e with
  | nil => exact ⟨hS, Keeps.refl S⟩
  | cons param params ih =>
    have hkeeps : Keeps S (S.recordVreg (.arg param.1) e.vregCounter) :=
      keeps_recordVreg fun i r heq => by cases heq
    have hwf₁ : VregsWf (recordArg (S, e) param).1 (recordArg (S, e) param).2.vregCounter :=
      hS.recordVreg _
    obtain ⟨hwf, hrest⟩ := ih hwf₁
    exact ⟨hwf, hkeeps.trans hrest⟩

omit [DecidableEq R] in
/-- The arguments get registers before the instructions do. -/
theorem initializeFuncArguments_keeps {f : FunctionId} {F F' : MachineFunction R I}
    (hF : F.Indexed) (hS : VregsWf S F.vregCounter)
    (h : initializeFuncArguments m f S F = some (S', F')) :
    VregsWf S' F'.vregCounter ∧ Keeps S S' ∧ F'.Indexed ∧ F'.blocks.length = F.blocks.length := by
  obtain ⟨params, -, h⟩ := Option.bind_eq_some_iff.mp h
  obtain ⟨F₁, hext, h⟩ := Option.bind_eq_some_iff.mp h
  cases h
  obtain ⟨-, rfl⟩ := (hF.setCounter _).extendBlock hext
  obtain ⟨hwf, hkeeps⟩ := recordArg_loop params.zipIdx (e := (⟨[], F.vregCounter⟩ : Emitter I)) hS
  exact ⟨hwf, hkeeps, (hF.setCounter _).append _ _, List.length_modify ..⟩

end Values

/-! ## The state in which the blocks are lowered -/

/-- What the lowering of the blocks starts from: `blocks` are the blocks of the function. -/
structure Prepared (m : ModuleCore) (blocks : List BlockRef) (S : FunctionLoweringState)
    (F : MachineFunction R I) : Prop where
  numbers : S.Numbers blocks
  vregs : VregsWf S F.vregCounter
  infos : ∀ b ∈ blocks, BlockInfos m S b
  indexed : F.Indexed
  length_le : blocks.length ≤ F.blocks.length

/-! ## Growing functions -/

/-- `F'` is `F` with more blocks behind and more registers allocated. -/
structure Appends (F F' : MachineFunction R I) : Prop where
  counter_le : F.vregCounter ≤ F'.vregCounter
  blocks : ∃ new, F'.blocks = F.blocks ++ new
  indexed : F.Indexed → F'.Indexed

namespace Appends

theorem refl (F : MachineFunction R I) : Appends F F :=
  ⟨le_rfl, ⟨[], (List.append_nil _).symm⟩, id⟩

theorem trans {F F' F'' : MachineFunction R I} (h : Appends F F') (h' : Appends F' F'') :
    Appends F F'' := by
  obtain ⟨new, hnew⟩ := h.blocks
  obtain ⟨new', hnew'⟩ := h'.blocks
  refine ⟨h.counter_le.trans h'.counter_le, ⟨new ++ new', ?_⟩, h'.indexed ∘ h.indexed⟩
  rw [hnew', hnew, List.append_assoc]

/-- The blocks in front stay. -/
theorem getElem? {F F' : MachineFunction R I} (h : Appends F F') {k : Nat} {b : MachineBlock I}
    (hb : F.blocks[k]? = some b) : F'.blocks[k]? = some b := by
  obtain ⟨new, hnew⟩ := h.blocks
  rw [hnew, List.getElem?_append_left (List.getElem?_eq_some_iff.mp hb).1, hb]

/-- There are not fewer. -/
theorem length_le {F F' : MachineFunction R I} (h : Appends F F') :
    F.blocks.length ≤ F'.blocks.length := by
  obtain ⟨new, hnew⟩ := h.blocks
  rw [hnew, List.length_append]
  exact Nat.le_add_right _ _

/-- More registers. -/
theorem setCounter {F F' : MachineFunction R I} (h : Appends F F') {c : Nat}
    (hc : F'.vregCounter ≤ c) : Appends F { F' with vregCounter := c } :=
  ⟨h.counter_le.trans hc, h.blocks, h.indexed⟩

/-- One more block. -/
theorem pushBlock {F F' : MachineFunction R I} (h : Appends F F') (insts : List I) :
    Appends F (F'.pushBlock ⟨F'.blocks.length, insts⟩) := by
  obtain ⟨new, hnew⟩ := h.blocks
  refine ⟨h.counter_le, ⟨new ++ [⟨F'.blocks.length, insts⟩], ?_⟩,
    fun hi => (h.indexed hi).pushBlock insts⟩
  rw [← List.append_assoc, ← hnew]
  rfl

end Appends

section Prepared

variable {m : ModuleCore} {S : FunctionLoweringState} {blocks : List BlockRef}
  {F F' : MachineFunction R I}

/-- The lowering only appends, so what it starts from stays true. -/
theorem Prepared.appends (h : Prepared m blocks S F) (ha : Appends F F') :
    Prepared m blocks S F' where
  numbers := h.numbers
  vregs := ⟨h.vregs.below.mono ha.counter_le, h.vregs.inj⟩
  infos := h.infos
  indexed := ha.indexed h.indexed
  length_le := h.length_le.trans ha.length_le

/-- The registers of the phis of a block are different. -/
theorem nodup_dsts {c : Nat} (hS : VregsWf S c) {phis : List InstRef} {infos : List PhiInfo}
    (hnodup : phis.Nodup) (hall : List.Forall₂ (InfoOf m S) phis infos) :
    (infos.map PhiInfo.dst).Nodup := by
  induction hall with
  | nil => exact List.nodup_nil
  | cons hinfo hall ih =>
    obtain ⟨hphi, hrest⟩ := List.nodup_cons.mp hnodup
    refine List.nodup_cons.mpr ⟨fun hmem => ?_, ih hrest⟩
    obtain ⟨info', hinfo', hdst⟩ := List.mem_map.mp hmem
    obtain ⟨phi', hphi', hvreg', -⟩ := hall.exists_left hinfo'
    have hsame := hS.inj _ _ _ (hdst ▸ hvreg') hinfo.1
    cases hsame
    exact hphi hphi'

/-- The copies of an edge, read off the phis of its target. -/
theorem edgePhis_eq {target : BlockId} {infos : List PhiInfo}
    (h : S.phiInfos.lookup target = some infos) (pid : BlockId) :
    edgePhis S pid target = infos.filterMap fun info =>
      (info.filterPred pid).map fun value => (info.dst, value) := by
  rw [edgePhis, h]
  rfl

/-- A copy of an edge is a phi with the value of its predecessor. -/
theorem mem_edgePhis {target : BlockId} {infos : List PhiInfo}
    (h : S.phiInfos.lookup target = some infos) {pid : BlockId} {p : VRegId × ValueId} :
    p ∈ edgePhis S pid target ↔
      ∃ info ∈ infos, p.1 = info.dst ∧ info.filterPred pid = some p.2 := by
  rw [edgePhis_eq h, List.mem_filterMap]
  refine exists_congr fun info => and_congr_right fun _ => ?_
  rw [Option.map_eq_some_iff]
  constructor
  · rintro ⟨value, hvalue, rfl⟩
    exact ⟨rfl, hvalue⟩
  · rintro ⟨hdst, hvalue⟩
    exact ⟨p.2, hvalue, by rw [← hdst]⟩

/-- In the order of the phis. -/
theorem edgePhis_sublist {target : BlockId} {infos : List PhiInfo}
    (h : S.phiInfos.lookup target = some infos) (pid : BlockId) :
    ((edgePhis S pid target).map Prod.fst).Sublist (infos.map PhiInfo.dst) := by
  rw [edgePhis_eq h]
  clear h
  induction infos with
  | nil => exact List.Sublist.refl _
  | cons info infos ih =>
    cases hpred : info.filterPred pid with
    | none =>
      rw [List.filterMap_cons_none (by rw [hpred]; rfl)]
      exact ih.cons _
    | some value =>
      rw [List.filterMap_cons_some (by rw [hpred]; rfl)]
      exact ih.cons_cons _

/-- The destinations of an edge's copies are different registers, all older than the counter. -/
theorem edgePhis_dsts (hP : Prepared m blocks S F)
    (hphis : (blocks.flatMap (blockPhis m)).Nodup) {b : BlockRef} (hb : b ∈ blocks)
    {target : BlockId} (ht : S.blockId b = some target) (pid : BlockId) :
    ((edgePhis S pid target).map Prod.fst).Nodup ∧
      ∀ p ∈ edgePhis S pid target, p.1 < F.vregCounter := by
  obtain ⟨id, phis, infos, hid, hbphis, hinfos, hall⟩ := hP.infos b hb
  obtain rfl : target = id := Option.some.inj (ht.symm.trans hid)
  have hnodup : phis.Nodup := by
    have := (List.nodup_flatMap.mp hphis).1 b hb
    rwa [blockPhis, hbphis] at this
  constructor
  · exact (edgePhis_sublist hinfos pid).nodup (nodup_dsts hP.vregs hnodup hall)
  · intro p hp
    obtain ⟨info, hinfo, hdst, -⟩ := (mem_edgePhis hinfos).mp hp
    obtain ⟨phi, -, hvreg, -⟩ := hall.exists_left hinfo
    rw [hdst]
    exact hP.vregs.below _ _ hvreg

end Prepared

variable [DecidableEq R] [EmitTarget R I] {m : ModuleCore} {symbols : HashMap String SymbolId}
  {order : KeyOrder (Register R) (List (Register R))} {others : OtherLowering R I}

/-- A function that has been lowered was prepared before its blocks were. -/
theorem lowerFunction_prepared {f : FunctionId} {S : FunctionLoweringState}
    {F : MachineFunction R I} {blocks : List BlockRef} (hblocks : m.blocksInOrder f = some blocks)
    (hnodup : blocks.Nodup) (hphis : (blocks.flatMap (blockPhis m)).Nodup)
    (h : lowerFunction m symbols order others f = some (S, F)) :
    ∃ F₀, Prepared m blocks S F₀ ∧
      blocks.foldlM (lowerBlock m symbols order others S) F₀ = some F := by
  obtain ⟨blocks', hblocks', h⟩ := Option.bind_eq_some_iff.mp h
  obtain rfl : blocks = blocks' := Option.some.inj (hblocks.symm.trans hblocks')
  obtain ⟨entry, -, h⟩ := Option.bind_eq_some_iff.mp h
  have hinit := initializeBlocks_initialized (R := R) (I := I) hnodup
  generalize initializeBlocks blocks (emptyMachineFunction : MachineFunction R I) = st at h hinit
  obtain ⟨S₀, F₀⟩ := st
  obtain ⟨⟨S₁, c₁⟩, hcollect, h⟩ := Option.bind_eq_some_iff.mp h
  obtain ⟨⟨S₂, F₂⟩, hargs, h⟩ := Option.bind_eq_some_iff.mp h
  obtain ⟨entryId, -, h⟩ := Option.bind_eq_some_iff.mp h
  obtain ⟨⟨S₃, c₃⟩, hvalues, h⟩ := Option.bind_eq_some_iff.mp h
  obtain ⟨F₄, hlower, h⟩ := Option.bind_eq_some_iff.mp h
  cases h
  have hwf₀ : VregsWf S₀ F₀.vregCounter :=
    ⟨fun v r hr => absurd ((hinit.vregs v).symm.trans hr) (by simp),
      fun v v' r hr => absurd ((hinit.vregs v).symm.trans hr) (by simp)⟩
  have horder : S₀.blockOrder = blocks := hinit.blockOrder
  rw [collectPhis, horder] at hcollect
  obtain ⟨hwf₁, hinfos₁, hrec₁⟩ := collectPhis_loop hnodup hphis
    (fun b b' k => hinit.numbers.inj) hwf₀ hcollect
  obtain ⟨hwf₂, hkeeps₂, hindexed₂, hlen₂⟩ :=
    initializeFuncArguments_keeps (hinit.indexed.setCounter c₁) hwf₁ hargs
  obtain ⟨hwf₃, hkeeps₃⟩ := collectValue_loop hwf₂ hvalues
  have hkeeps := hkeeps₂.trans hkeeps₃
  refine ⟨{ F₂ with entry := entryId, vregCounter := c₃ },
    ⟨?_, hwf₃, fun b hb => hkeeps.blockInfos (hinfos₁ b hb), hindexed₂, ?_⟩, hlower⟩
  · intro b k
    rw [FunctionLoweringState.blockId, hkeeps.blockMap, hrec₁.blockMap]
    exact hinit.numbers b k
  · exact (hlen₂.trans hinit.length).ge

end Mir
