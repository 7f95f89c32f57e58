import C0mpiler.Mir.LivePaths
import C0mpiler.Mir.SpillGroups
import Mathlib

/-!
# A function in the middle of the spill loop

While the rounds spill registers of the original function only, the function they work on is the
original one with a group in place of every instruction (`Grouped`). Every temporary belongs to one
group. Between the groups nothing is live that was not live there in the original function, except
the reserved registers through which the stack is reached.
-/

namespace Mir

variable {R I : Type} [LoweringTarget R I]

/-- A block as the groups of its original instructions. -/
structure GroupedBlock (R I : Type) where
  id : BlockId
  groups : List (SpillGroup R I)

namespace GroupedBlock

/-- The block with the code of its groups. -/
def block (b : GroupedBlock R I) : MachineBlock I where
  id := b.id
  instructions := b.groups.flatMap (·.code)

/-- The block of the original function. -/
def origin (b : GroupedBlock R I) : BlockId × List (I × Finset (Register R)) :=
  (b.id, b.groups.map (·.origin))

end GroupedBlock

/-! ## A round on groups -/

section Round

variable (slots : HashMap VRegId StackSlotId) (spilled : List VRegId)

/-- `spillInsts` on the groups of a block. -/
def spillGroups : Nat → List (SpillGroup R I) → List (SpillGroup R I) × Nat
  | n, [] => ([], n)
  | n, a :: rest =>
    let there := spillGroups (spillInst slots spilled n a.mid).2 rest
    (a.spill slots spilled n :: there.1, there.2)

/-- `spillBlocks` on grouped blocks. -/
def spillGrouped : Nat → List (GroupedBlock R I) → List (GroupedBlock R I) × Nat
  | n, [] => ([], n)
  | n, b :: rest =>
    let here := spillGroups slots spilled n b.groups
    let there := spillGrouped here.2 rest
    ({ b with groups := here.1 } :: there.1, there.2)

/-- Groups are spilled one after the other. -/
theorem spillGroups_append (n : Nat) (gs hs : List (SpillGroup R I)) :
    spillGroups slots spilled n (gs ++ hs) =
      ((spillGroups slots spilled n gs).1 ++
          (spillGroups slots spilled (spillGroups slots spilled n gs).2 hs).1,
        (spillGroups slots spilled (spillGroups slots spilled n gs).2 hs).2) := by
  induction gs generalizing n with
  | nil => rfl
  | cons a gs ih =>
    rw [List.cons_append, spillGroups, spillGroups, ih]
    rfl

/-- The groups of all blocks, one after the other. -/
theorem spillGrouped_flat (n : Nat) (bs : List (GroupedBlock R I)) :
    ((spillGrouped slots spilled n bs).1.flatMap (·.groups), (spillGrouped slots spilled n bs).2) =
      spillGroups slots spilled n (bs.flatMap (·.groups)) := by
  induction bs generalizing n with
  | nil => rfl
  | cons b bs ih =>
    rw [List.flatMap_cons, spillGroups_append, ← ih]
    rfl

/-- A round changes no origin. -/
theorem spillGroups_origin (n : Nat) (gs : List (SpillGroup R I)) :
    (spillGroups slots spilled n gs).1.map (·.origin) = gs.map (·.origin) := by
  induction gs generalizing n with
  | nil => rfl
  | cons a gs ih => exact congrArg (a.origin :: ·) (ih _)

/-- The same for the blocks. -/
theorem spillGrouped_origin (n : Nat) (bs : List (GroupedBlock R I)) :
    (spillGrouped slots spilled n bs).1.map (·.origin) = bs.map (·.origin) := by
  induction bs generalizing n with
  | nil => rfl
  | cons b bs ih =>
    rw [spillGrouped, List.map_cons, List.map_cons, ih, GroupedBlock.origin, GroupedBlock.origin,
      spillGroups_origin]

/-- The counter only grows. -/
theorem le_spillGroups_counter (n : Nat) (gs : List (SpillGroup R I)) :
    n ≤ (spillGroups slots spilled n gs).2 := by
  induction gs generalizing n with
  | nil => exact le_rfl
  | cons a gs ih => exact (le_spillInst_counter slots spilled n a.mid).trans (ih _)

variable {slots spilled} {n : Nat}

/-- A group of the next round is a group of this one, spilled from some counter on. -/
theorem mem_spillGroups {gs : List (SpillGroup R I)} {a' : SpillGroup R I}
    (h : a' ∈ (spillGroups slots spilled n gs).1) :
    ∃ a ∈ gs, ∃ m, n ≤ m ∧ a' = a.spill slots spilled m ∧
      (spillInst slots spilled m a.mid).2 ≤ (spillGroups slots spilled n gs).2 := by
  induction gs generalizing n with
  | nil => cases h
  | cons a gs ih =>
    rcases List.mem_cons.mp h with rfl | h
    · exact ⟨a, List.mem_cons_self, n, le_rfl, rfl, le_spillGroups_counter _ _ _ _⟩
    · obtain ⟨b, hb, m, hm, heq, hle⟩ := ih h
      exact ⟨b, List.mem_cons_of_mem _ hb, m, (le_spillInst_counter _ _ _ _).trans hm, heq, hle⟩

variable [DecidableEq R] {c : Nat} {gone : Finset VRegId}

/-- No temporary belongs to both groups. -/
def SpillGroup.Apart (c : Nat) (a b : SpillGroup R I) : Prop :=
  Disjoint (a.temporaries c) (b.temporaries c)

instance : Std.Symm (SpillGroup.Apart (R := R) (I := I) c) where
  symm _ _ h := Disjoint.symm h

/-- Spilling the code of the groups is spilling the groups. -/
theorem spillInsts_groups {gs : List (SpillGroup R I)} (h : ∀ a ∈ gs, a.Ok c gone)
    (hspilled : ∀ v ∈ spilled, v < c) :
    spillInsts slots spilled n (gs.flatMap (·.code)) =
      ((spillGroups slots spilled n gs).1.flatMap (·.code),
        (spillGroups slots spilled n gs).2) := by
  induction gs generalizing n with
  | nil => rfl
  | cons a gs ih =>
    rw [List.flatMap_cons, spillInsts_append_eq,
      (h a List.mem_cons_self).spillInsts hspilled]
    dsimp only
    rw [ih fun b hb => h b (List.mem_cons_of_mem _ hb)]
    rfl

/-- And the same for the blocks. -/
theorem spillBlocks_grouped {bs : List (GroupedBlock R I)}
    (h : ∀ a ∈ bs.flatMap (·.groups), a.Ok c gone) (hspilled : ∀ v ∈ spilled, v < c) :
    spillBlocks slots spilled n (bs.map (·.block)) =
      ((spillGrouped slots spilled n bs).1.map (·.block),
        (spillGrouped slots spilled n bs).2) := by
  induction bs generalizing n with
  | nil => rfl
  | cons b bs ih =>
    have hhere : ∀ a ∈ b.groups, a.Ok c gone := fun a ha => h a (List.mem_append_left _ ha)
    have hthere : ∀ a ∈ bs.flatMap (·.groups), a.Ok c gone :=
      fun a ha => h a (List.mem_append_right _ ha)
    rw [List.map_cons, spillBlocks, GroupedBlock.block]
    dsimp only
    rw [spillInsts_groups hhere hspilled, ih hthere]
    rfl

/-- A round gives every group temporaries of its own. -/
theorem spillGroups_apart [LawfulTarget R I] [ReservedStack R I] {gs : List (SpillGroup R I)}
    (h : gs.Pairwise (SpillGroup.Apart c)) (hlt : ∀ a ∈ gs, a.Below n) :
    (spillGroups slots spilled n gs).1.Pairwise (SpillGroup.Apart c) := by
  -- `n` runs ahead of the registers that the remaining groups have from earlier rounds
  induction gs generalizing n with
  | nil => exact List.Pairwise.nil
  | cons a gs ih =>
    obtain ⟨hhead, htail⟩ := List.pairwise_cons.mp h
    have hstep := le_spillInst_counter slots spilled n a.mid
    have hrest : ∀ b ∈ gs, b.Below n := fun b hb => hlt b (List.mem_cons_of_mem _ hb)
    refine List.pairwise_cons.mpr ⟨fun b' hb' => ?_, ih htail fun b hb => (hrest b hb).mono hstep⟩
    obtain ⟨b, hb, m, hm, rfl, -⟩ := mem_spillGroups hb'
    refine Finset.disjoint_left.mpr fun t hta htb => ?_
    rcases SpillGroup.mem_temporaries_spill ((hrest b hb).mono (hstep.trans hm)) htb with
      htb | ⟨hlo, -⟩
    · rcases SpillGroup.mem_temporaries_spill (hlt a List.mem_cons_self) hta with hta | ⟨hlo, -⟩
      · exact Finset.disjoint_left.mp (hhead b hb) hta htb
      · exact absurd ((hrest b hb).lt_of_mem htb) (Nat.not_lt.mpr hlo)
    · rcases SpillGroup.mem_temporaries_spill (hlt a List.mem_cons_self) hta with hta | ⟨-, hhi⟩
      · exact absurd ((hlt a List.mem_cons_self).lt_of_mem hta)
          (Nat.not_lt.mpr ((hstep.trans hm).trans hlo))
      · exact absurd hhi (Nat.not_lt.mpr (hm.trans hlo))

end Round

/-! ## The state of the loop -/

section Grouped

variable [DecidableEq R]

/-- `g` is `f` with a group for every instruction, after the registers of `gone` have been
spilled. -/
structure Grouped (f : MachineFunction R I) (info : LivenessInfo R) (gone : Finset VRegId)
    (g : MachineFunction R I) (bs : List (GroupedBlock R I)) : Prop where
  blocks : g.blocks = bs.map (·.block)
  origin : bs.map (·.origin) = f.blocks.map fun b => (b.id, info.liveAfter b)
  ok : ∀ a ∈ bs.flatMap (·.groups), a.Ok f.vregCounter gone
  apart : (bs.flatMap (·.groups)).Pairwise (SpillGroup.Apart f.vregCounter)

/-- One set for each instruction. -/
theorem length_liveAfterEach (out : Finset (Register R)) (insts : List I) :
    (liveAfterEach out insts).length = insts.length := by
  induction insts with
  | nil => rfl
  | cons i insts ih => exact congrArg (· + 1) ih

/-- The sets are beside the instructions. -/
theorem liveAfter_fst (info : LivenessInfo R) (b : MachineBlock I) :
    (info.liveAfter b).map Prod.fst = b.instructions := by
  rw [LivenessInfo.liveAfter, List.map_fst_zip]
  exact (length_liveAfterEach _ _).ge

/-- The groups of the blocks of `f` before the first round. -/
def startGroups (f : MachineFunction R I) (info : LivenessInfo R) : List (GroupedBlock R I) :=
  f.blocks.map fun b => ⟨b.id, (info.liveAfter b).map SpillGroup.start⟩

variable {f g : MachineFunction R I} {info : LivenessInfo R} {gone : Finset VRegId}
  {bs : List (GroupedBlock R I)}

/-- At the start each instruction is a group of its own, without temporaries. -/
theorem start_grouped (hf : f.Wf) (info : LivenessInfo R) :
    Grouped f info ∅ f (startGroups f info) := by
  have hmem : ∀ a ∈ (startGroups f info).flatMap (·.groups), ∃ p, a = SpillGroup.start p ∧
      p.1 ∈ f.insts := by
    intro a ha
    obtain ⟨b, hb, ha⟩ := List.mem_flatMap.mp ha
    obtain ⟨block, hblock, rfl⟩ := List.mem_map.mp hb
    obtain ⟨p, hp, rfl⟩ := List.mem_map.mp ha
    refine ⟨p, rfl, List.mem_flatMap.mpr ⟨block, hblock, ?_⟩⟩
    rw [← liveAfter_fst info block]
    exact List.mem_map_of_mem hp
  have hlt : ∀ i ∈ f.insts, ∀ v, .virtual v ∈ MachineFunction.instRegs i → v < f.vregCounter :=
    fun i hi v hv => hf.vreg_lt v ⟨i, hi, hv⟩
  have hcode (l : List (I × Finset (Register R))) :
      (l.map SpillGroup.start).flatMap (·.code) = l.map Prod.fst := by
    induction l with
    | nil => rfl
    | cons p l ih => exact congrArg (p.1 :: ·) ih
  refine ⟨?_, ?_, fun a ha => ?_, ?_⟩
  · rw [startGroups, List.map_map]
    refine (List.map_id _).symm.trans (List.map_congr_left fun block _ => ?_)
    rw [Function.comp, GroupedBlock.block, hcode, liveAfter_fst]
    rfl
  · rw [startGroups, List.map_map]
    refine List.map_congr_left fun block _ => ?_
    rw [Function.comp, GroupedBlock.origin, List.map_map]
    exact congrArg (block.id, ·) (List.map_id _)
  · obtain ⟨p, rfl, hp⟩ := hmem a ha
    exact SpillGroup.start_ok (hlt p.1 hp)
  · refine List.Pairwise.imp_of_mem (fun {a b} ha _ _ => ?_)
      (List.pairwise_of_forall fun _ _ => trivial)
    obtain ⟨p, rfl, hp⟩ := hmem a ha
    obtain ⟨hoperands, hresults⟩ := SpillGroup.start_temporaries (hlt p.1 hp)
    rw [SpillGroup.Apart, SpillGroup.temporaries, hoperands, hresults, Finset.empty_union]
    exact Finset.disjoint_empty_left _

namespace Grouped

/-- The code of a group is in the function. -/
theorem mem_insts (h : Grouped f info gone g bs) {a : SpillGroup R I}
    (ha : a ∈ bs.flatMap (·.groups)) {j : I} (hj : j ∈ a.code) : j ∈ g.insts := by
  obtain ⟨b, hb, ha⟩ := List.mem_flatMap.mp ha
  rw [MachineFunction.insts, h.blocks]
  exact List.mem_flatMap.mpr ⟨b.block, List.mem_map_of_mem hb, List.mem_flatMap.mpr ⟨a, ha, hj⟩⟩

variable [LawfulTarget R I] [ReservedStack R I]

/-- A round that spills registers of the original function only. -/
theorem spillVreg (h : Grouped f info gone g bs) (hg : g.Wf)
    (hc : f.vregCounter ≤ g.vregCounter) {spill : List VRegId}
    (hspill : ∀ v ∈ spill, v < f.vregCounter) :
    ∃ bs', Grouped f info (gone ∪ spill.toFinset) (Mir.spillVreg spill g) bs' := by
  have hblocks := (Prod.mk.inj (spillVreg_blocks spill g)).1
  generalize HashMap.collect (spill.zipIdx g.frameInfo.stackSlots.length) = slots at hblocks
  have hlt : ∀ a ∈ bs.flatMap (·.groups), a.Below g.vregCounter := by
    rintro a ha r hr v rfl
    obtain ⟨j, hj, hr⟩ := SpillGroup.mem_regs_iff.mp hr
    exact hg.vreg_lt v ⟨j, h.mem_insts ha hj, hr⟩
  have hflat := (Prod.mk.inj (spillGrouped_flat slots spill g.vregCounter bs)).1
  refine ⟨(spillGrouped slots spill g.vregCounter bs).1, ?_, ?_, fun a' ha' => ?_, ?_⟩
  · rw [hblocks, h.blocks, spillBlocks_grouped h.ok hspill]
  · rw [spillGrouped_origin, h.origin]
  · rw [hflat] at ha'
    obtain ⟨a, ha, m, hm, rfl, -⟩ := mem_spillGroups ha'
    exact (h.ok a ha).spill (hc.trans hm) hspill ((hlt a ha).mono hm)
  · rw [hflat]
    exact spillGroups_apart h.apart hlt

end Grouped

end Grouped

/-! ## Between the groups -/

section Live

variable [DecidableEq R] {c : Nat} {gone : Finset VRegId} {out X : Finset (Register R)}

variable (I) in
/-- A register of `X` that is left, or a reserved one. -/
def Survives (c : Nat) (gone : Finset VRegId) (X : Finset (Register R)) (r : Register R) : Prop :=
  r ∈ X ∧ Kept c gone r ∨ Reserved I r

omit [DecidableEq R] in
theorem Survives.mono {Y : Finset (Register R)} {r : Register R} (h : Survives I c gone X r)
    (hXY : r ∈ X → r ∈ Y) : Survives I c gone Y r :=
  h.imp_left fun h => ⟨hXY h.1, h.2⟩

omit [DecidableEq R] in
/-- A temporary is neither left nor reserved. -/
theorem Survives.not_temporary {r : Register R} (h : Survives I c gone X r) : ¬ Temporary c r :=
  h.elim (fun h => h.2.not_temporary) fun h => h.not_temporary

namespace SpillGroup

variable {a : SpillGroup R I} {r : Register R}

/-- What is live in front of a group was live in front of its instruction. -/
theorem Ok.survives (h : a.Ok c gone) (hout : ∀ r ∈ out, Survives I c gone X r)
    (hr : r ∈ liveBefore out a.code) : Survives I c gone (liveBefore X [a.inst]) r := by
  by_cases hres : Reserved I r
  · exact Or.inr hres
  -- a temporary is dead at the border, and the rounds' own instructions read nothing else
  have hold : ¬ Temporary c r := by
    rintro ⟨t, ht, rfl⟩
    exact h.dead out t ht (fun hmem => (hout _ hmem).not_temporary ⟨t, ht, rfl⟩) hr
  have hside : ∀ j ∈ a.pre ++ a.post, r ∉ useRegs j :=
    fun j hj hu => ((h.sides j hj).uses r hu).elim hold hres
  rw [code, liveBefore_append] at hr
  rcases Finset.mem_union.mp
    (mem_of_mem_liveBefore (fun j hj => hside j (List.mem_append_left _ hj)) hr) with huse | hrest
  · obtain ⟨hinst, hkept⟩ := (h.renamed.uses r (List.mem_toFinset.mp huse)).resolve_right hold
    exact Or.inl ⟨Finset.mem_union_left _ (List.mem_toFinset.mpr hinst), hkept⟩
  · obtain ⟨hpost, hdef⟩ := Finset.mem_sdiff.mp hrest
    have hlive := mem_of_mem_liveBefore (fun j hj => hside j (List.mem_append_right _ hj)) hpost
    obtain ⟨hX, hkept⟩ := (hout r hlive).resolve_right hres
    refine Or.inl ⟨Finset.mem_union_right _ (Finset.mem_sdiff.mpr ⟨hX, fun hinst => hdef ?_⟩), hkept⟩
    exact List.mem_toFinset.mpr (h.renamed.kills r (List.mem_toFinset.mp hinst) hkept)

end SpillGroup

/-- The sets between the groups, from the end of the block. -/
theorem survives_groups {gs : List (SpillGroup R I)} (h : ∀ a ∈ gs, a.Ok c gone)
    (hout : ∀ r ∈ out, Survives I c gone X r) :
    ∀ r ∈ liveBefore out (gs.flatMap (·.code)),
      Survives I c gone (liveBefore X (gs.map (·.inst))) r := by
  induction gs with
  | nil => exact hout
  | cons a gs ih =>
    intro r hr
    rw [List.flatMap_cons, liveBefore_append] at hr
    exact (h a List.mem_cons_self).survives (ih fun b hb => h b (List.mem_cons_of_mem _ hb)) hr

/-- The terminators at the end of a grouped block are those of the original one, renamed. -/
theorem mem_trailing_groups {gs : List (SpillGroup R I)} (h : ∀ a ∈ gs, a.Ok c gone) {i : I}
    (hi : i ∈ trailingTerminators (gs.flatMap (·.code))) :
    ∃ a ∈ gs, i = a.mid ∧ a.inst ∈ trailingTerminators (gs.map (·.inst)) := by
  -- from the end of the block: an instruction of the rounds ends the scan
  have hstop : ∀ {l rest : List I}, (∀ j ∈ l, isTerminator j = false) → l ≠ [] →
      (l.reverse ++ rest).takeWhile (isTerminator (I := I)) = [] := by
    intro l rest hl hne
    obtain ⟨l, j, rfl⟩ := (List.eq_nil_or_concat' l).resolve_left hne
    rw [List.reverse_append]
    exact List.takeWhile_cons_of_neg (by simp [hl j (List.mem_append_right _ List.mem_cons_self)])
  induction gs using List.reverseRecOn with
  | nil => cases hi
  | append_singleton gs a ih =>
    have ha : a.Ok c gone := h a (List.mem_append_right _ List.mem_cons_self)
    have hpre : ∀ j ∈ a.pre, isTerminator j = false :=
      fun j hj => (ha.sides j (List.mem_append_left _ hj)).plain
    have hpost : ∀ j ∈ a.post, isTerminator j = false :=
      fun j hj => (ha.sides j (List.mem_append_right _ hj)).plain
    rw [trailingTerminators, List.flatMap_append, List.flatMap_singleton, SpillGroup.code,
      List.reverse_append, List.reverse_append, List.reverse_cons, List.append_assoc,
      List.append_assoc, List.singleton_append] at hi
    rw [trailingTerminators, List.map_append, List.map_singleton, List.reverse_append,
      List.reverse_singleton, List.singleton_append]
    by_cases hpostNil : a.post = []
    · rw [hpostNil, List.reverse_nil, List.nil_append, List.takeWhile_cons] at hi
      split at hi
      · next hterm =>
        rw [ha.renamed.terminator] at hterm
        rw [List.takeWhile_cons_of_pos hterm]
        rcases List.mem_cons.mp hi with rfl | hi
        · exact ⟨a, List.mem_append_right _ List.mem_cons_self, rfl, List.mem_cons_self⟩
        · by_cases hpreNil : a.pre = []
          · rw [hpreNil, List.reverse_nil, List.nil_append] at hi
            obtain ⟨b, hb, hmid, hinst⟩ := ih (fun b hb => h b (List.mem_append_left _ hb)) hi
            exact ⟨b, List.mem_append_left _ hb, hmid, List.mem_cons_of_mem _ hinst⟩
          · rw [hstop hpre hpreNil] at hi
            cases hi
      · cases hi
    · rw [hstop hpost hpostNil] at hi
      cases hi

/-- The successors of a block are read off its trailing terminators, so a round adds none. -/
theorem blockSuccs_groups_subset {gs : List (SpillGroup R I)} (h : ∀ a ∈ gs, a.Ok c gone)
    {succs succs' : List BlockId} (hsuccs : blockSuccs (gs.flatMap (·.code)) = some succs)
    (hsuccs' : blockSuccs (gs.map (·.inst)) = some succs') : succs ⊆ succs' := by
  obtain ⟨ls, hls, heq⟩ := Option.bind_eq_some_iff.mp hsuccs
  obtain ⟨ls', hls', heq'⟩ := Option.bind_eq_some_iff.mp hsuccs'
  cases heq
  cases heq'
  intro s hs
  obtain ⟨l, hl, hs⟩ := List.mem_flatten.mp hs
  obtain ⟨i, hi, hget⟩ := (OptionFold.mem_mapM hls).mp hl
  obtain ⟨a, ha, rfl, hinst⟩ := mem_trailing_groups h hi
  rw [(h a ha).renamed.succs] at hget
  exact List.mem_flatten.mpr ⟨l, (OptionFold.mem_mapM hls').mpr ⟨a.inst, hinst, hget⟩, hs⟩

variable {f g : MachineFunction R I} {info inf : LivenessInfo R} {cfg cfg' : ControlFlowGraph}
  {bs : List (GroupedBlock R I)}

namespace Grouped

/-- The original block of a grouped one. -/
theorem exists_origin (h : Grouped f info gone g bs) {b : GroupedBlock R I} (hb : b ∈ bs) :
    ∃ block ∈ f.blocks, block.id = b.id ∧ info.liveAfter block = b.groups.map (·.origin) ∧
      block.instructions = b.groups.map (·.inst) := by
  have hmem : b.origin ∈ f.blocks.map fun b => (b.id, info.liveAfter b) :=
    h.origin ▸ List.mem_map_of_mem hb
  obtain ⟨block, hblock, heq⟩ := List.mem_map.mp hmem
  obtain ⟨hid, hlive⟩ := Prod.mk.inj heq
  refine ⟨block, hblock, hid, hlive, ?_⟩
  rw [← liveAfter_fst info block, hlive, List.map_map]
  rfl

/-- The groups of one block. -/
theorem ok_of_mem (h : Grouped f info gone g bs) {b : GroupedBlock R I} (hb : b ∈ bs) :
    ∀ a ∈ b.groups, a.Ok f.vregCounter gone :=
  fun a ha => h.ok a (List.mem_flatMap.mpr ⟨b, hb, ha⟩)

/-- No block has new successors. -/
theorem succs_subset (h : Grouped f info gone g bs) (hf : f.Wf) (hcfg : computeCfg f = some cfg)
    (hcfg' : computeCfg g = some cfg') (id : BlockId) : cfg'.succs id ⊆ cfg.succs id := by
  intro s hs
  obtain ⟨block', hblock', hid, l, hl, hs⟩ := (mem_succs_iff hcfg').mp hs
  rw [h.blocks] at hblock'
  obtain ⟨b, hb, rfl⟩ := List.mem_map.mp hblock'
  obtain ⟨block, hblock, hid', -, hinsts⟩ := h.exists_origin hb
  have hall : ∀ i ∈ block.instructions.reverse.takeWhile isTerminator,
      ∃ l, getSuccessors i = some l := by
    intro i hi
    have hmem := List.mem_reverse.mp (List.takeWhile_subset _ hi)
    obtain ⟨succs, hsuccs, -⟩ := hf.succs i (List.mem_flatMap.mpr ⟨block, hblock, hmem⟩)
    exact ⟨succs, hsuccs⟩
  obtain ⟨l', hl', -⟩ := blockSuccs_eq_some hall
  refine (mem_succs_iff hcfg).mpr ⟨block, hblock, hid'.trans hid, l', hl', ?_⟩
  rw [hinsts] at hl'
  exact blockSuccs_groups_subset (h.ok_of_mem hb) hl hl' hs

/-- The sets of an analysis of `g` stay under those of the original function. -/
structure Under (f g : MachineFunction R I) (gone : Finset VRegId)
    (info inf : LivenessInfo R) : Prop where
  summarised : inf.Summarised g
  liveIn : ∀ id, ∀ r ∈ inf.liveIn id, Survives I f.vregCounter gone (info.liveIn id) r
  liveOut : ∀ id, ∀ r ∈ inf.liveOut id, Survives I f.vregCounter gone (info.liveOut id) r

/-- One step of the worklist keeps the sets of `g` under those of `f`: the set at the end of a
block. -/
theorem Under.updateLiveout (h : Under f g gone info inf) {id : BlockId} {succs : HashSet BlockId}
    (hsuccs : succs ⊆ cfg.succs id) (hstable : info.StableAt cfg id) :
    Under f g gone info (inf.updateLiveout id succs).1 := by
  rw [LivenessInfo.updateLiveout]
  split
  · refine ⟨h.summarised, h.liveIn, fun id' r hr => ?_⟩
    dsimp only at hr
    rw [Function.update_apply] at hr
    split at hr
    · next hid =>
      obtain ⟨succ, hsucc, hr⟩ := LivenessInfo.mem_newLiveOut.mp hr
      refine (h.liveIn succ r hr).mono fun hlive => ?_
      rw [hid, hstable.1]
      exact LivenessInfo.mem_newLiveOut.mpr ⟨succ, hsuccs hsucc, hlive⟩
    · exact h.liveOut id' r hr
  · exact h

/-- And the set at its start, where the instructions of the block are run backwards. -/
theorem Under.updateLivein (hG : Grouped f info gone g bs) (h : Under f g gone info inf)
    (hsum : info.Summarised f) {b : GroupedBlock R I} (hb : b ∈ bs)
    (hstable : info.StableAt cfg b.id) : Under f g gone info (inf.updateLivein b.id).1 := by
  rw [LivenessInfo.updateLivein]
  split
  · refine ⟨h.summarised, fun id r hr => ?_, h.liveOut⟩
    dsimp only at hr
    rw [Function.update_apply] at hr
    split at hr
    · next hid =>
      obtain ⟨block, hblock, hid', -, hinsts⟩ := hG.exists_origin hb
      have hmem : b.block ∈ g.blocks := hG.blocks ▸ List.mem_map_of_mem hb
      rw [show b.id = b.block.id from rfl, h.summarised.newLiveIn hmem] at hr
      rw [hid, hstable.2, ← hid', hsum.newLiveIn hblock, hid', hinsts]
      exact survives_groups (hG.ok_of_mem hb) (h.liveOut b.id) r hr
    · exact h.liveIn id r hr
  · exact h

/-- What is live behind a block was live there in the original function. -/
theorem liveOut_survives (h : Grouped f info gone g bs) (hf : f.Wf) (hg : g.Wf)
    (hinfo : livenessAnalysis f = some info) (hinf : livenessAnalysis g = some inf) (id : BlockId) :
    ∀ r ∈ inf.liveOut id, Survives I f.vregCounter gone (info.liveOut id) r := by
  obtain ⟨cfg, hcfg, hstable⟩ := livenessAnalysis_stable hinfo
  have hsum := (livenessAnalysis_sound hf.nodup hinfo).summarised
  obtain ⟨cfg', hcfg', heq⟩ := Option.bind_eq_some_iff.mp hinf
  cases heq
  have hunder : Under f g gone info
      ((LivenessInfo.new g.blocks).fixpoint cfg' (g.blocks.map (·.id)) (livenessFuel g)) := by
    refine LivenessInfo.fixpoint_induct (P := Under f g gone info) (fun inf id hid hunder => ?_) _
      ⟨LivenessInfo.new_summarised hg.nodup, fun _ r hr => absurd hr (Finset.notMem_empty r),
        fun _ r hr => absurd hr (Finset.notMem_empty r)⟩
    rw [h.blocks, List.map_map] at hid
    obtain ⟨b, hb, rfl⟩ := List.mem_map.mp hid
    obtain ⟨block, hblock, hid', -, -⟩ := h.exists_origin hb
    have hat : info.StableAt cfg b.id := hid' ▸ hstable block hblock
    exact (hunder.updateLiveout (h.succs_subset hf hcfg hcfg' b.id) hat).updateLivein h hsum hb hat
  exact hunder.liveOut id

end Grouped

end Live

end Mir
