import C0mpiler.Mir.SpillRounds
import Mathlib

/-!
# A spill loop without end

Spilling leaves the physical registers of a function where they are. If every allocatable one is
needed after an instruction that writes a virtual register, that register is spilled in every
round, each time as the temporary of the round before.
-/

namespace Mir

variable {R I : Type} [LoweringTarget R I]

section Starved

/-- The first access to the physical register `r` in `insts` reads it. -/
def ReadsFirst (r : R) : List I → Prop
  | [] => False
  | i :: rest => .physical r ∈ useRegs i ∨ (.physical r ∉ defRegs i ∧ ReadsFirst r rest)

/-- After an instruction that writes a virtual register every allocatable register is needed. -/
def Starved (f : MachineFunction R I) : Prop :=
  ∃ block ∈ f.blocks, ∃ pre inst rest, block.instructions = pre ++ inst :: rest ∧
    (∃ v, .virtual v ∈ defRegs inst) ∧
    ∀ r ∈ LoweringTarget.allocatableRegs I, ReadsFirst r rest

variable {slots : HashMap VRegId StackSlotId} {spilled : List VRegId} {r : R}

/-- Code in front that does not write the register. -/
theorem ReadsFirst.append_left {l rest : List I} (h : ReadsFirst r rest)
    (hl : ∀ i ∈ l, .physical r ∉ defRegs i) : ReadsFirst r (l ++ rest) := by
  induction l with
  | nil => exact h
  | cons i l ih =>
    exact Or.inr ⟨hl i List.mem_cons_self, ih fun j hj => hl j (List.mem_cons_of_mem _ hj)⟩

/-- Renaming makes no physical register. -/
theorem rewrite_eq_physical {m : HashMap VRegId (Register R)} {x : Register R}
    (hm : ∀ v y, m.lookup v = some y → ∃ w, y = .virtual w)
    (h : Register.rewrite m x = .physical r) : x = .physical r := by
  cases x with
  | physical q => exact h
  | «virtual» v =>
    rw [Register.rewrite] at h
    cases hv : m.lookup v with
    | none =>
      rw [hv] at h
      cases h
    | some y =>
      obtain ⟨w, rfl⟩ := hm v y hv
      rw [hv] at h
      cases h

/-- A round goes through the code from left to right. -/
theorem spillInsts_append (slots : HashMap VRegId StackSlotId) (spilled : List VRegId) (n : Nat)
    (a b : List I) : ∃ m, (spillInsts slots spilled n (a ++ b)).1 =
      (spillInsts slots spilled n a).1 ++ (spillInsts slots spilled m b).1 := by
  induction a generalizing n with
  | nil => exact ⟨n, rfl⟩
  | cons i a ih =>
    obtain ⟨m, hm⟩ := ih (spillInst slots spilled n i).2
    refine ⟨m, ?_⟩
    rw [List.cons_append, spillInsts, spillInsts]
    dsimp only
    rw [hm, List.append_assoc]

/-- A round goes through all blocks. -/
theorem mem_spillBlocks_of_mem {n : Nat} {blocks : List (MachineBlock I)} {block : MachineBlock I}
    (h : block ∈ blocks) : ∃ m,
      { block with instructions := (spillInsts slots spilled m block.instructions).1 } ∈
        (spillBlocks slots spilled n blocks).1 := by
  induction blocks generalizing n with
  | nil => cases h
  | cons b rest ih =>
    rcases List.mem_cons.mp h with rfl | h
    · exact ⟨n, List.mem_cons_self⟩
    · obtain ⟨m, hm⟩ := ih (n := (spillInsts slots spilled n b.instructions).2) h
      exact ⟨m, List.mem_cons_of_mem _ hm⟩

variable [DecidableEq R] [LawfulTarget R I]

/-- The instructions that replace `inst`: loads and stores that write virtual registers only
around an instruction with the physical registers of `inst`. -/
theorem spillInst_split (slots : HashMap VRegId StackSlotId) (spilled : List VRegId) (n : Nat)
    (inst : I) : ∃ loads mid stores, (spillInst slots spilled n inst).1 = loads ++ mid :: stores ∧
      (∀ i ∈ loads ++ stores, ∀ r, .physical r ∉ defRegs i) ∧
      (∀ r, .physical r ∈ useRegs inst → .physical r ∈ useRegs mid) ∧
      (∀ r, .physical r ∈ defRegs mid → .physical r ∈ defRegs inst) ∧
      ((∃ v, .virtual v ∈ defRegs inst) → ∃ v, .virtual v ∈ defRegs mid) := by
  refine ⟨_, _, _, rfl, ?_, ?_, ?_, ?_⟩
  -- what the loads and the stores write is virtual
  · intro i hi r
    rcases List.mem_append.mp hi with hi | hi
    · obtain ⟨p, -, rfl⟩ := List.mem_map.mp hi
      rw [LawfulTarget.defRegs_load]
      simp
    · obtain ⟨p, -, rfl⟩ := List.mem_map.mp hi
      rw [LawfulTarget.defRegs_store]
      simp
  -- the operands are renamed in place, and no physical register is
  · intro r hr
    rw [LawfulTarget.useRegs_rewrite]
    exact List.mem_map.mpr ⟨_, hr, rfl⟩
  · intro r hr
    rw [LawfulTarget.defRegs_rewrite] at hr
    obtain ⟨x, hx, heq⟩ := List.mem_map.mp hr
    rw [← rewrite_eq_physical ?_ heq]
    · exact hx
    · intro v y hy
      obtain ⟨k, -, rfl⟩ := (lookup_freshMap (uniqueSpilledVregs_nodup _ _)).mp hy
      exact ⟨k, rfl⟩
  -- a result stays virtual, under its own name or a new one
  · rintro ⟨v, hv⟩
    rw [LawfulTarget.defRegs_rewrite]
    cases hv' : Register.rewrite (HashMap.collect
        (((uniqueSpilledVregs (defRegs inst) spilled).zipIdx
          (n + (uniqueSpilledVregs (useRegs inst) spilled).length)).map
          fun p => (p.1, (Register.virtual p.2 : Register R)))) (.virtual v) with
    | «virtual» w => exact ⟨w, List.mem_map.mpr ⟨_, hv, hv'⟩⟩
    | physical q =>
      have := rewrite_eq_physical ?_ hv'
      · cases this
      · intro v y hy
        obtain ⟨k, -, rfl⟩ := (lookup_freshMap (uniqueSpilledVregs_nodup _ _)).mp hy
        exact ⟨k, rfl⟩

/-- A round writes no physical register in front of the read. -/
theorem ReadsFirst.spillInsts {insts : List I} (h : ReadsFirst r insts) (n : Nat) :
    ReadsFirst r (spillInsts slots spilled n insts).1 := by
  induction insts generalizing n with
  | nil => exact h
  | cons i rest ih =>
    obtain ⟨loads, mid, stores, hsplit, hdefs, huse, hmid, -⟩ := spillInst_split slots spilled n i
    rw [Mir.spillInsts]
    dsimp only
    rw [hsplit, List.append_assoc]
    refine ReadsFirst.append_left ?_ fun j hj => hdefs j (List.mem_append_left _ hj) r
    rcases h with h | ⟨hnot, h⟩
    · exact Or.inl (huse r h)
    · refine Or.inr ⟨fun hd => hnot (hmid r hd), ?_⟩
      exact (ih h _).append_left fun j hj => hdefs j (List.mem_append_right _ hj) r

/-- A round leaves a starved function starved. -/
theorem Starved.spillVreg {f : MachineFunction R I} (h : Starved f) (spill : List VRegId) :
    Starved (spillVreg spill f) := by
  obtain ⟨block, hb, pre, inst, rest, hinsts, hdef, hreads⟩ := h
  have hblocks := (Prod.mk.inj (spillVreg_blocks spill f)).1
  generalize HashMap.collect (spill.zipIdx f.frameInfo.stackSlots.length) = slots at hblocks
  obtain ⟨m, hm⟩ : ∃ m,
      { block with instructions := (spillInsts slots spill m block.instructions).1 } ∈
        (spillBlocks slots spill f.vregCounter f.blocks).1 := mem_spillBlocks_of_mem hb
  rw [← hblocks, hinsts] at hm
  obtain ⟨k, hk⟩ := spillInsts_append slots spill m pre (inst :: rest)
  obtain ⟨loads, mid, stores, hsplit, hdefs, -, -, hvirt⟩ := spillInst_split slots spill k inst
  refine ⟨_, hm, (spillInsts slots spill m pre).1 ++ loads, mid,
    stores ++ (Mir.spillInsts slots spill (spillInst slots spill k inst).2 rest).1, ?_,
    hvirt hdef, ?_⟩
  · dsimp only
    rw [hk, Mir.spillInsts]
    dsimp only
    rw [hsplit]
    simp only [List.append_assoc, List.cons_append]
  · exact fun r hr => ((hreads r hr).spillInsts _).append_left fun j hj =>
      hdefs j (List.mem_append_right _ hj) r

omit [LawfulTarget R I] in
/-- A register that is read first is live in front. -/
theorem ReadsFirst.mem_liveBefore {liveOut : Finset (Register R)} {insts : List I}
    (h : ReadsFirst r insts) : .physical r ∈ liveBefore liveOut insts := by
  induction insts with
  | nil => cases h
  | cons i rest ih =>
    rcases h with h | ⟨hnot, h⟩
    · exact Finset.mem_union_left _ (List.mem_toFinset.mpr h)
    · exact Finset.mem_union_right _
        (Finset.mem_sdiff.mpr ⟨ih h, fun hd => hnot (List.mem_toFinset.mp hd)⟩)

variable [Ord R]

omit [LawfulTarget R I] in
/-- A starved function has a register that no physical register is left for. -/
theorem Starved.spill_ne_nil {f : MachineFunction R I} (h : Starved f) {spill : List VRegId}
    {assignedRegs : HashMap VRegId R} (hc : computeSpill f = some (spill, assignedRegs)) :
    spill ≠ [] := by
  obtain ⟨block, hb, pre, inst, rest, hinsts, ⟨v, hv⟩, hreads⟩ := h
  obtain ⟨info, stack, used, -, hstack, hcol⟩ := computeSpill_coloured hc
  have hp : (inst, liveBefore (info.liveOut block.id) rest) ∈ f.blocks.flatMap info.liveAfter :=
    List.mem_flatMap.mpr ⟨block, hb, mem_liveAfter_iff.mpr ⟨pre, rest, hinsts, rfl⟩⟩
  have hnone : (InterferenceGraph.build f info).availableRegs I v = [] := by
    rw [InterferenceGraph.availableRegs, List.filter_eq_nil_iff]
    intro r hr
    rw [decide_eq_true_eq, not_not, InterferenceGraph.mem_forbiddenPhys_build]
    exact ⟨_, hp, Or.inl ⟨hv, Finset.mem_union_left _ (hreads r hr).mem_liveBefore⟩⟩
  have hmem : v ∈ stack := (hstack v).mpr (InterferenceGraph.mem_nodes_build_of_def hp hv)
  rintro rfl
  obtain ⟨r, hr⟩ := hcol.total v hmem List.not_mem_nil
  have := hcol.available v r hr
  rw [hnone] at this
  cases this

/-- A starved function has something to spill in each round. -/
theorem Starved.spillLoop_eq_none {f : MachineFunction R I} (h : Starved f) (fuel : Nat) :
    spillLoop fuel f = none := by
  induction fuel generalizing f with
  | zero => rfl
  | succ fuel ih =>
    rw [spillLoop]
    cases hc : computeSpill f with
    | none => rfl
    | some out =>
      obtain ⟨spill, assignedRegs⟩ := out
      simp only [Option.bind_eq_bind, Option.bind_some]
      rw [if_neg (fun he => h.spill_ne_nil hc (List.isEmpty_iff.mp he))]
      exact ih (h.spillVreg spill)

end Starved

/-- One definition, then every allocatable register is read. -/
def starvedFn : MachineFunction RV64Reg RV64Inst where
  blocks := [⟨0, .li (.virtual 0) 0 ::
    RV64Reg.getAllocatableRegs.map (fun r => .sd (.physical r) (.physical .sp) 0) ++ [.ret]⟩]
  vregCounter := 1
  entry := 0
  frameInfo := ⟨[], 0, [], false⟩

/-- The example is well formed. -/
theorem starvedFn_wf : starvedFn.Wf where
  vreg_lt v := by
    rintro ⟨i, hi, hv⟩
    simp only [MachineFunction.insts, starvedFn, List.flatMap_cons, List.flatMap_nil,
      List.append_nil, List.cons_append, List.mem_cons, List.mem_append, List.mem_map,
      List.not_mem_nil, or_false] at hi
    simp only [MachineFunction.instRegs, useRegs, defRegs] at hv
    rcases hi with rfl | ⟨r, -, rfl⟩ | rfl
    · obtain rfl : v = 0 := by simpa [RV64Inst.useRegs, RV64Inst.defRegs] using hv
      exact Nat.one_pos
    · simp [RV64Inst.useRegs, RV64Inst.defRegs] at hv
    · simp [RV64Inst.useRegs, RV64Inst.defRegs] at hv
  nodup := by decide
  succs i hi := by
    simp only [MachineFunction.insts, starvedFn, List.flatMap_cons, List.flatMap_nil,
      List.append_nil, List.cons_append, List.mem_cons, List.mem_append, List.mem_map,
      List.not_mem_nil, or_false] at hi
    rcases hi with rfl | ⟨r, -, rfl⟩ | rfl
    all_goals exact ⟨[], rfl, fun b hb => absurd hb List.not_mem_nil⟩

/-- And starved. -/
theorem starvedFn_starved : Starved starvedFn := by
  refine ⟨_, List.mem_singleton_self _, [], .li (.virtual 0) 0, _, rfl,
    ⟨0, List.mem_singleton_self _⟩, fun r hr => ?_⟩
  change ReadsFirst r (RV64Reg.getAllocatableRegs.map _ ++ [_])
  obtain ⟨a, b, hab⟩ := List.append_of_mem hr
  rw [show LoweringTarget.allocatableRegs RV64Inst = RV64Reg.getAllocatableRegs from rfl] at hab
  rw [hab, List.map_append, List.append_assoc]
  refine ReadsFirst.append_left (Or.inl (List.mem_cons_self)) fun i hi => ?_
  obtain ⟨q, -, rfl⟩ := List.mem_map.mp hi
  exact List.not_mem_nil

end Mir
