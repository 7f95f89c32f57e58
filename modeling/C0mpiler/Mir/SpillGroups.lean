import C0mpiler.Mir.SpillRounds
import Mathlib

/-!
# Groups of spilled instructions

Every round replaces each instruction of the function by a group of instructions. While only
registers of the original function are spilled, the group of an instruction keeps its shape: loads of
spilled operands, the instruction itself with its registers renamed, and stores of spilled results.
The new registers are temporaries: each occurs in one group, is dead at the borders of the group, and
a group has one for every spilled operand and two for every spilled result.
-/

namespace Mir

variable {R I : Type} [LoweringTarget R I]

/-! ## Live registers of a list of instructions -/

section LiveBefore

variable [DecidableEq R] {out out' : Finset (Register R)} {r : Register R} {a b insts : List I}

/-- What is live in front of two stretches of code. -/
theorem liveBefore_append (out : Finset (Register R)) (a b : List I) :
    liveBefore out (a ++ b) = liveBefore (liveBefore out b) a := by
  induction a with
  | nil => rfl
  | cons i a ih => rw [List.cons_append, liveBefore, ih, liveBefore]

/-- More live at the end, more live in front. -/
theorem mem_liveBefore_mono (hout : r ∈ out → r ∈ out') (h : r ∈ liveBefore out insts) :
    r ∈ liveBefore out' insts := by
  induction insts with
  | nil => exact hout h
  | cons i insts ih =>
    rcases Finset.mem_union.mp h with huse | hrest
    · exact Finset.mem_union_left _ huse
    · obtain ⟨hlive, hdef⟩ := Finset.mem_sdiff.mp hrest
      exact Finset.mem_union_right _ (Finset.mem_sdiff.mpr ⟨ih hlive, hdef⟩)

/-- A register that is not read is live only if it is live behind the instructions. -/
theorem mem_of_mem_liveBefore (huse : ∀ i ∈ insts, r ∉ useRegs i) (h : r ∈ liveBefore out insts) :
    r ∈ out := by
  induction insts with
  | nil => exact h
  | cons i insts ih =>
    rcases Finset.mem_union.mp h with hr | hrest
    · exact absurd (List.mem_toFinset.mp hr) (huse i List.mem_cons_self)
    · exact ih (fun j hj => huse j (List.mem_cons_of_mem _ hj)) (Finset.mem_sdiff.mp hrest).1

/-- A register that is written and not read is dead in front of the instructions. -/
theorem not_mem_liveBefore_of_def (huse : ∀ i ∈ insts, r ∉ useRegs i)
    (hdef : ∃ i ∈ insts, r ∈ defRegs i) : r ∉ liveBefore out insts := by
  induction insts with
  | nil =>
    obtain ⟨i, hi, -⟩ := hdef
    cases hi
  | cons i insts ih =>
    intro h
    rcases Finset.mem_union.mp h with hr | hrest
    · exact huse i List.mem_cons_self (List.mem_toFinset.mp hr)
    · obtain ⟨hlive, hnot⟩ := Finset.mem_sdiff.mp hrest
      obtain ⟨j, hj, hr⟩ := hdef
      rcases List.mem_cons.mp hj with rfl | hj
      · exact hnot (List.mem_toFinset.mpr hr)
      · exact ih (fun k hk => huse k (List.mem_cons_of_mem _ hk)) ⟨j, hj, hr⟩ hlive

/-- A live register is read by one of the instructions or live behind them. -/
theorem mem_uses_or_out (h : r ∈ liveBefore out insts) : (∃ i ∈ insts, r ∈ useRegs i) ∨ r ∈ out := by
  by_cases huse : ∃ i ∈ insts, r ∈ useRegs i
  · exact Or.inl huse
  · exact Or.inr (mem_of_mem_liveBefore (fun i hi hr => huse ⟨i, hi, hr⟩) h)

/-- Liveness asks only what the instructions read and write. -/
theorem liveBefore_congr {insts' : List I} (h : List.Forall₂
    (fun i i' => useRegs i = useRegs i' ∧ defRegs i = defRegs i') insts insts') :
    liveBefore out insts = liveBefore out insts' := by
  induction h with
  | nil => rfl
  | cons hi _ ih => rw [liveBefore, liveBefore, ih, hi.1, hi.2]

end LiveBefore

/-! ## Instructions that mention no spilled register -/

section Untouched

/-- Nothing is renamed. -/
theorem rewrite_empty (r : Register R) : Register.rewrite ∅ r = r := by
  cases r with
  | physical r => rfl
  | «virtual» v => exact Register.rewrite_virtual_none (AList.lookup_empty v)

/-- No register of an instruction is spilled. -/
theorem uniqueSpilledVregs_eq_nil {regs : List (Register R)} {spilled : List VRegId}
    (h : ∀ v ∈ spilled, .virtual v ∉ regs) : uniqueSpilledVregs regs spilled = [] := by
  rw [List.eq_nil_iff_forall_not_mem]
  intro v hv
  obtain ⟨hreg, hspilled⟩ := mem_uniqueSpilledVregs.mp hv
  exact h v hspilled hreg

/-- An instruction in which no register is renamed. -/
def untouched (i : I) : I :=
  rewriteVreg ∅ ∅ i

/-- An instruction without spilled registers is rebuilt as it was. -/
theorem spillInst_eq_untouched {slots : HashMap VRegId StackSlotId} {spilled : List VRegId} {n : Nat}
    {i : I} (h : ∀ v ∈ spilled, .virtual v ∉ MachineFunction.instRegs i) :
    spillInst slots spilled n i = ([untouched i], n) := by
  have huses : uniqueSpilledVregs (useRegs i) spilled = [] :=
    uniqueSpilledVregs_eq_nil fun v hv hr => h v hv (List.mem_append_left _ hr)
  have hdefs : uniqueSpilledVregs (defRegs i) spilled = [] :=
    uniqueSpilledVregs_eq_nil fun v hv hr => h v hv (List.mem_append_right _ hr)
  simp only [spillInst, huses, hdefs, List.zipIdx_nil, List.map_nil, List.length_nil, Nat.add_zero,
    Nat.zero_add]
  rfl

/-- Code without spilled registers is rebuilt as it was. -/
theorem spillInsts_eq_untouched {slots : HashMap VRegId StackSlotId} {spilled : List VRegId}
    {n : Nat} {insts : List I}
    (h : ∀ i ∈ insts, ∀ v ∈ spilled, .virtual v ∉ MachineFunction.instRegs i) :
    spillInsts slots spilled n insts = (insts.map untouched, n) := by
  induction insts with
  | nil => rfl
  | cons i insts ih =>
    rw [spillInsts, spillInst_eq_untouched (h i List.mem_cons_self)]
    dsimp only
    rw [ih fun j hj => h j (List.mem_cons_of_mem _ hj)]
    rfl

/-- Two stretches of code are spilled one after the other. -/
theorem spillInsts_append_eq (slots : HashMap VRegId StackSlotId) (spilled : List VRegId) (n : Nat)
    (a b : List I) : spillInsts slots spilled n (a ++ b) =
      ((spillInsts slots spilled n a).1 ++
          (spillInsts slots spilled (spillInsts slots spilled n a).2 b).1,
        (spillInsts slots spilled (spillInsts slots spilled n a).2 b).2) := by
  induction a generalizing n with
  | nil => rfl
  | cons i a ih =>
    rw [List.cons_append, spillInsts, spillInsts]
    dsimp only
    rw [ih, List.append_assoc]

variable [DecidableEq R] [LawfulTarget R I]

@[simp] theorem useRegs_untouched (i : I) : useRegs (untouched i) = useRegs i := by
  rw [untouched, LawfulTarget.useRegs_rewrite]
  exact (List.map_congr_left fun r _ => rewrite_empty r).trans (List.map_id _)

@[simp] theorem defRegs_untouched (i : I) : defRegs (untouched i) = defRegs i := by
  rw [untouched, LawfulTarget.defRegs_rewrite]
  exact (List.map_congr_left fun r _ => rewrite_empty r).trans (List.map_id _)

@[simp] theorem isTerminator_untouched (i : I) : isTerminator (untouched i) = isTerminator i :=
  LawfulTarget.isTerminator_rewrite _ _ _

/-- Rebuilding an instruction keeps its registers. -/
theorem instRegs_untouched (i : I) :
    MachineFunction.instRegs (untouched i) = MachineFunction.instRegs i := by
  rw [MachineFunction.instRegs, useRegs_untouched, defRegs_untouched, MachineFunction.instRegs]

/-- And what is live. -/
theorem liveBefore_untouched (out : Finset (Register R)) (insts : List I) :
    liveBefore out (insts.map untouched) = liveBefore out insts := by
  refine liveBefore_congr (List.forall₂_map_left_iff.mpr ?_)
  exact List.forall₂_same.mpr fun i _ => ⟨useRegs_untouched i, defRegs_untouched i⟩

end Untouched

/-! ## The group of one instruction -/

section Spill

/-- A register that is neither spilled nor new after the round. -/
def OldUnspilled (spilled : List VRegId) (n : Nat) (r : Register R) : Prop :=
  ∀ v, r = .virtual v → v < n ∧ v ∉ spilled

/-- A register that the loads and stores read: the stack pointer. -/
def Reserved (I : Type) [LoweringTarget R I] (r : Register R) : Prop :=
  ∃ q, q ∉ LoweringTarget.allocatableRegs I ∧ r = .physical q

/-- A virtual register that the round has introduced, between the counters `lo` and `hi`. -/
def Fresh (lo hi : Nat) (r : Register R) : Prop :=
  ∃ t, lo ≤ t ∧ t < hi ∧ r = .virtual t

theorem Fresh.mono {lo hi hi' : Nat} {r : Register R} (h : Fresh lo hi r) (hle : hi ≤ hi') :
    Fresh lo hi' r := by
  obtain ⟨t, hlo, hhi, heq⟩ := h
  exact ⟨t, hlo, hhi.trans_le hle, heq⟩

variable (slots : HashMap VRegId StackSlotId) (spilled : List VRegId) (n : Nat) (inst : I)

/-- The loads of the spilled operands of `inst`. -/
def spillLoads : List I :=
  ((uniqueSpilledVregs (useRegs inst) spilled).zipIdx n).map fun p =>
    emitLoadStackSlot (.virtual p.2) ((slots.lookup p.1).getD 0)

/-- `inst` on the temporaries. -/
def spillRenamed : I :=
  rewriteVreg
    (HashMap.collect (((uniqueSpilledVregs (useRegs inst) spilled).zipIdx n).map
      fun p => (p.1, Register.virtual p.2)))
    (HashMap.collect (((uniqueSpilledVregs (defRegs inst) spilled).zipIdx
      (n + (uniqueSpilledVregs (useRegs inst) spilled).length)).map
      fun p => (p.1, Register.virtual p.2)))
    inst

/-- The stores of the spilled results of `inst`. -/
def spillStores : List I :=
  ((uniqueSpilledVregs (defRegs inst) spilled).zipIdx
    (n + (uniqueSpilledVregs (useRegs inst) spilled).length)).map fun p =>
    emitStoreStackSlot (.virtual p.2) ((slots.lookup p.1).getD 0)
      (.virtual (p.2 + (uniqueSpilledVregs (defRegs inst) spilled).length))

/-- The group of an instruction: loads, the instruction itself, stores. -/
theorem spillInst_fst : (spillInst slots spilled n inst).1 =
    spillLoads slots spilled n inst ++
      spillRenamed spilled n inst :: spillStores slots spilled n inst := rfl

/-- One new register for an operand, two for a result. -/
theorem spillInst_snd : (spillInst slots spilled n inst).2 =
    n + (uniqueSpilledVregs (useRegs inst) spilled).length +
      2 * (uniqueSpilledVregs (defRegs inst) spilled).length := by
  simp only [spillInst]
  omega

variable {slots spilled n inst}

/-- Renaming gives a spilled register a fresh one and leaves the others alone. -/
theorem rewrite_freshMap {regs : List (Register R)} {spilled : List VRegId} {n k : Nat}
    {r : Register R} (hr : r ∈ regs) (hold : ∀ v, .virtual v ∈ regs → v < k) :
    let fresh := HashMap.collect (((uniqueSpilledVregs regs spilled).zipIdx n).map
      fun p => (p.1, Register.virtual p.2))
    Register.rewrite fresh r ∈ regs ∧ OldUnspilled spilled k (Register.rewrite fresh r) ∨
      Fresh n (n + (uniqueSpilledVregs regs spilled).length) (Register.rewrite fresh r) := by
  intro fresh
  cases hx : Register.rewrite fresh r with
  | «virtual» v =>
    rcases rewrite_eq_virtual hr hx with ⟨rfl, hspilled⟩ | ⟨hlo, hhi⟩
    · refine Or.inl ⟨hr, fun w hw => ?_⟩
      obtain rfl := Register.virtual.inj hw
      exact ⟨hold v hr, hspilled⟩
    · exact Or.inr ⟨v, hlo, hhi, rfl⟩
  | physical q =>
    have hq : r = .physical q := by
      cases r with
      | physical q' => exact hx
      | «virtual» w =>
        rw [Register.rewrite] at hx
        cases hw : fresh.lookup w with
        | none =>
          rw [hw] at hx
          cases hx
        | some y =>
          obtain ⟨k, -, rfl⟩ := (lookup_freshMap (uniqueSpilledVregs_nodup _ _)).mp hw
          rw [hw] at hx
          cases hx
    exact Or.inl ⟨hq ▸ hr, fun v hv => by cases hv⟩

/-- A register that is not spilled keeps its name. -/
theorem rewrite_freshMap_old {regs : List (Register R)} {spilled : List VRegId} {n k : Nat}
    {r : Register R} (h : OldUnspilled spilled k r) :
    Register.rewrite (HashMap.collect (((uniqueSpilledVregs regs spilled).zipIdx n).map
      fun p => (p.1, Register.virtual p.2))) r = r := by
  cases r with
  | physical q => rfl
  | «virtual» v =>
    refine Register.rewrite_virtual_none (Option.eq_none_iff_forall_ne_some.mpr fun y hy => ?_)
    obtain ⟨t, ht, -⟩ := (lookup_freshMap (uniqueSpilledVregs_nodup _ _)).mp hy
    exact (h v rfl).2 (mem_uniqueSpilledVregs.mp (mem_zipIdx_bounds ht).1).2

variable [DecidableEq R] [LawfulTarget R I]

section Reserved

variable [ReservedStack R I]

/-- A load reads the stack pointer. -/
theorem reserved_of_load {rd : VRegId} {slot : StackSlotId} {r : Register R}
    (hr : r ∈ useRegs (emitLoadStackSlot (.virtual rd) slot : I)) : Reserved I r := by
  obtain ⟨sp, hsp⟩ := LawfulTarget.useRegs_load (I := I) (.virtual rd) slot
  have hmem : .physical sp ∈ useRegs (emitLoadStackSlot (.virtual rd) slot : I) := by
    rw [hsp]
    exact List.mem_singleton_self _
  rw [hsp] at hr
  exact ⟨sp, ReservedStack.useRegs_load rd slot hmem, List.mem_singleton.mp hr⟩

/-- A store reads the stack pointer and the register it stores. -/
theorem reserved_of_store {rs : VRegId} {slot : StackSlotId} {rt r : Register R}
    (hr : r ∈ useRegs (emitStoreStackSlot (.virtual rs) slot rt : I)) :
    Reserved I r ∨ r = .virtual rs := by
  obtain ⟨sp, hsp⟩ := LawfulTarget.useRegs_store (I := I) (.virtual rs) slot rt
  have hmem : .physical sp ∈ useRegs (emitStoreStackSlot (.virtual rs) slot rt : I) := by
    rw [hsp]
    exact List.mem_cons_self
  rw [hsp] at hr
  rcases List.mem_cons.mp hr with rfl | hr
  · exact Or.inl ⟨sp, ReservedStack.useRegs_store rs slot rt hmem, rfl⟩
  · exact Or.inr (List.mem_singleton.mp hr)

/-- What the loads of a group read. -/
theorem useRegs_spillLoads {j : I} (hj : j ∈ spillLoads slots spilled n inst) {r : Register R}
    (hr : r ∈ useRegs j) : Reserved I r := by
  obtain ⟨p, -, rfl⟩ := List.mem_map.mp hj
  exact reserved_of_load hr

/-- What the stores read. -/
theorem useRegs_spillStores {j : I} (hj : j ∈ spillStores slots spilled n inst) {r : Register R}
    (hr : r ∈ useRegs j) : Reserved I r ∨
      Fresh (n + (uniqueSpilledVregs (useRegs inst) spilled).length)
        (n + (uniqueSpilledVregs (useRegs inst) spilled).length +
          (uniqueSpilledVregs (defRegs inst) spilled).length) r := by
  obtain ⟨p, hp, rfl⟩ := List.mem_map.mp hj
  obtain ⟨-, hlo, hhi⟩ := mem_zipIdx_bounds hp
  exact (reserved_of_store hr).imp_right fun h => ⟨p.2, hlo, hhi, h⟩

end Reserved

/-- What the loads write. -/
theorem defRegs_spillLoads {j : I} (hj : j ∈ spillLoads slots spilled n inst) {r : Register R}
    (hr : r ∈ defRegs j) :
    Fresh n (n + (uniqueSpilledVregs (useRegs inst) spilled).length) r := by
  obtain ⟨p, hp, rfl⟩ := List.mem_map.mp hj
  obtain ⟨-, hlo, hhi⟩ := mem_zipIdx_bounds hp
  rw [LawfulTarget.defRegs_load] at hr
  exact ⟨p.2, hlo, hhi, List.mem_singleton.mp hr⟩

/-- What the stores write: their own scratch registers. -/
theorem defRegs_spillStores {j : I} (hj : j ∈ spillStores slots spilled n inst) {r : Register R}
    (hr : r ∈ defRegs j) :
    Fresh (n + (uniqueSpilledVregs (useRegs inst) spilled).length)
      (spillInst slots spilled n inst).2 r := by
  obtain ⟨p, hp, rfl⟩ := List.mem_map.mp hj
  obtain ⟨-, hlo, hhi⟩ := mem_zipIdx_bounds hp
  rw [LawfulTarget.defRegs_store] at hr
  rw [spillInst_snd]
  exact ⟨_, by omega, by omega, List.mem_singleton.mp hr⟩

/-- Loads and stores are no terminators. -/
theorem isTerminator_side {j : I}
    (hj : j ∈ spillLoads slots spilled n inst ++ spillStores slots spilled n inst) :
    isTerminator j = false := by
  rcases List.mem_append.mp hj with hj | hj
  · obtain ⟨p, -, rfl⟩ := List.mem_map.mp hj
    exact LawfulTarget.isTerminator_load _ _
  · obtain ⟨p, -, rfl⟩ := List.mem_map.mp hj
    exact LawfulTarget.isTerminator_store _ _ _

/-- What the renamed instruction reads. -/
theorem useRegs_spillRenamed (hold : ∀ v, .virtual v ∈ useRegs inst → v < n) {r : Register R}
    (hr : r ∈ useRegs (spillRenamed spilled n inst)) :
    r ∈ useRegs inst ∧ OldUnspilled spilled n r ∨
      Fresh n (n + (uniqueSpilledVregs (useRegs inst) spilled).length) r := by
  rw [spillRenamed, LawfulTarget.useRegs_rewrite] at hr
  obtain ⟨x, hx, rfl⟩ := List.mem_map.mp hr
  exact rewrite_freshMap hx hold

/-- What it writes. -/
theorem defRegs_spillRenamed (hold : ∀ v, .virtual v ∈ defRegs inst → v < n) {r : Register R}
    (hr : r ∈ defRegs (spillRenamed spilled n inst)) :
    r ∈ defRegs inst ∧ OldUnspilled spilled n r ∨
      Fresh (n + (uniqueSpilledVregs (useRegs inst) spilled).length)
        (n + (uniqueSpilledVregs (useRegs inst) spilled).length +
          (uniqueSpilledVregs (defRegs inst) spilled).length) r := by
  rw [spillRenamed, LawfulTarget.defRegs_rewrite] at hr
  obtain ⟨x, hx, rfl⟩ := List.mem_map.mp hr
  exact rewrite_freshMap hx hold

/-- It still writes what was not spilled. -/
theorem mem_defRegs_spillRenamed {k : Nat} {r : Register R} (hr : r ∈ defRegs inst)
    (hold : OldUnspilled spilled k r) : r ∈ defRegs (spillRenamed spilled n inst) := by
  rw [spillRenamed, LawfulTarget.defRegs_rewrite]
  exact List.mem_map.mpr ⟨r, hr, rewrite_freshMap_old hold⟩

/-- The temporaries of spilled results are written by the renamed instruction. -/
theorem mem_defRegs_spillRenamed_fresh {t : Nat}
    (hlo : n + (uniqueSpilledVregs (useRegs inst) spilled).length ≤ t)
    (hhi : t < n + (uniqueSpilledVregs (useRegs inst) spilled).length +
      (uniqueSpilledVregs (defRegs inst) spilled).length) :
    .virtual t ∈ defRegs (spillRenamed spilled n inst) := by
  generalize hk : n + (uniqueSpilledVregs (useRegs inst) spilled).length = k at hlo hhi
  obtain ⟨i, rfl⟩ := Nat.exists_eq_add_of_le hlo
  have hi : i < (uniqueSpilledVregs (defRegs inst) spilled).length := by omega
  have hmem := List.getElem_mem hi
  have hz : ((uniqueSpilledVregs (defRegs inst) spilled)[i], k + i) ∈
      (uniqueSpilledVregs (defRegs inst) spilled).zipIdx k := by
    rw [List.mk_add_mem_zipIdx_iff_getElem?]
    exact List.getElem?_eq_getElem hi
  rw [spillRenamed, LawfulTarget.defRegs_rewrite, hk]
  refine List.mem_map.mpr ⟨.virtual _, (mem_uniqueSpilledVregs.mp hmem).1, ?_⟩
  exact Register.rewrite_virtual_some
    ((lookup_freshMap (uniqueSpilledVregs_nodup _ _)).mpr ⟨_, hz, rfl⟩)

/-- The temporaries of spilled operands are written by the loads. -/
theorem mem_defRegs_spillLoads {t : Nat} (hlo : n ≤ t)
    (hhi : t < n + (uniqueSpilledVregs (useRegs inst) spilled).length) :
    ∃ j ∈ spillLoads slots spilled n inst, .virtual t ∈ defRegs j := by
  obtain ⟨i, rfl⟩ := Nat.exists_eq_add_of_le hlo
  have hi : i < (uniqueSpilledVregs (useRegs inst) spilled).length := by omega
  have hz : ((uniqueSpilledVregs (useRegs inst) spilled)[i], n + i) ∈
      (uniqueSpilledVregs (useRegs inst) spilled).zipIdx n := by
    rw [List.mk_add_mem_zipIdx_iff_getElem?]
    exact List.getElem?_eq_getElem hi
  refine ⟨_, List.mem_map.mpr ⟨_, hz, rfl⟩, ?_⟩
  rw [LawfulTarget.defRegs_load]
  exact List.mem_singleton_self _

variable [ReservedStack R I] {out : Finset (Register R)}

omit [DecidableEq R] [LawfulTarget R I] [ReservedStack R I] in
/-- A reserved register is a physical one. -/
theorem Reserved.ne_virtual {r : Register R} (h : Reserved I r) (v : VRegId) : r ≠ .virtual v := by
  obtain ⟨q, -, rfl⟩ := h
  intro heq
  cases heq

/-- No temporary of the group is live in front of it. -/
theorem not_mem_liveBefore_fresh (hold : ∀ v, .virtual v ∈ useRegs inst → v < n) {t : Nat}
    (hlo : n ≤ t) (hout : .virtual t ∉ out) :
    .virtual t ∉ liveBefore out (spillInst slots spilled n inst).1 := by
  have hloads : ∀ j ∈ spillLoads slots spilled n inst, .virtual t ∉ useRegs j :=
    fun j hj hr => (useRegs_spillLoads hj hr).ne_virtual t rfl
  rw [spillInst_fst, liveBefore_append]
  rcases Nat.lt_or_ge t (n + (uniqueSpilledVregs (useRegs inst) spilled).length) with hin | hge
  · exact not_mem_liveBefore_of_def hloads (mem_defRegs_spillLoads hlo hin)
  · have hmid : .virtual t ∉ useRegs (spillRenamed spilled n inst) := by
      intro hr
      rcases useRegs_spillRenamed hold hr with ⟨-, hunspilled⟩ | ⟨t', -, hlt, heq⟩
      · exact absurd (hunspilled t rfl).1 (Nat.not_lt.mpr hlo)
      · cases heq
        omega
    refine fun hlive => ?_
    rcases Finset.mem_union.mp (mem_of_mem_liveBefore hloads hlive) with hr | hrest
    · exact hmid (List.mem_toFinset.mp hr)
    · obtain ⟨hstores, hdef⟩ := Finset.mem_sdiff.mp hrest
      rw [List.mem_toFinset] at hdef
      rcases Nat.lt_or_ge t (n + (uniqueSpilledVregs (useRegs inst) spilled).length +
          (uniqueSpilledVregs (defRegs inst) spilled).length) with hresult | hscratch
      · exact hdef (mem_defRegs_spillRenamed_fresh hge hresult)
      · refine hout (mem_of_mem_liveBefore (fun j hj hr => ?_) hstores)
        rcases useRegs_spillStores hj hr with hres | ⟨t', -, hlt, heq⟩
        · exact hres.ne_virtual t rfl
        · cases heq
          omega

/-- An older virtual register that is not spilled is live in front of the group only if it was in
front of the instruction. -/
theorem mem_liveBefore_of_old {t : Nat} (hold : ∀ v, .virtual v ∈ useRegs inst → v < n) (ht : t < n)
    (hspilled : t ∉ spilled) (h : .virtual t ∈ liveBefore out (spillInst slots spilled n inst).1) :
    .virtual t ∈ liveBefore out [inst] := by
  rw [spillInst_fst, liveBefore_append] at h
  have hloads : ∀ j ∈ spillLoads slots spilled n inst, .virtual t ∉ useRegs j :=
    fun j hj hr => (useRegs_spillLoads hj hr).ne_virtual t rfl
  rcases Finset.mem_union.mp (mem_of_mem_liveBefore hloads h) with hr | hrest
  · rcases useRegs_spillRenamed hold (List.mem_toFinset.mp hr) with ⟨huse, -⟩ | ⟨t', hlo, -, heq⟩
    · exact Finset.mem_union_left _ (List.mem_toFinset.mpr huse)
    · cases heq
      omega
  · obtain ⟨hstores, hdef⟩ := Finset.mem_sdiff.mp hrest
    have hunspilled : OldUnspilled spilled n (.virtual t : Register R) := by
      rintro v hv
      cases hv
      exact ⟨ht, hspilled⟩
    refine Finset.mem_union_right _ (Finset.mem_sdiff.mpr ⟨?_, fun hinst => hdef ?_⟩)
    · refine mem_of_mem_liveBefore (fun j hj hr => ?_) hstores
      rcases useRegs_spillStores hj hr with hres | ⟨t', hlo, -, heq⟩
      · exact hres.ne_virtual t rfl
      · cases heq
        omega
    · exact List.mem_toFinset.mpr
        (mem_defRegs_spillRenamed (List.mem_toFinset.mp hinst) hunspilled)

end Spill

/-! ## The group of an instruction after some rounds -/

/-- An instruction of the original function with the registers live after it there, and the code that
stands for it by now: `mid` is the instruction on its present registers. -/
structure SpillGroup (R I : Type) where
  inst : I
  after : Finset (Register R)
  pre : List I
  mid : I
  post : List I

namespace SpillGroup

/-- The code of the group. -/
def code (a : SpillGroup R I) : List I :=
  a.pre ++ a.mid :: a.post

/-- Where the temporaries of operands occur. -/
def operandRegs (a : SpillGroup R I) : List (Register R) :=
  a.pre.flatMap MachineFunction.instRegs ++ useRegs a.mid

/-- Where the temporaries of results occur. -/
def resultRegs (a : SpillGroup R I) : List (Register R) :=
  defRegs a.mid ++ a.post.flatMap MachineFunction.instRegs

/-- The instruction as the original function has it, with what `live_after` says of it. -/
def origin (a : SpillGroup R I) : I × Finset (Register R) :=
  (a.inst, a.after)

/-- The group after a round: the instructions of earlier rounds stay as they are. -/
def spill (slots : HashMap VRegId StackSlotId) (spilled : List VRegId) (n : Nat)
    (a : SpillGroup R I) : SpillGroup R I :=
  { a with
    pre := a.pre.map untouched ++ spillLoads slots spilled n a.mid
    mid := spillRenamed spilled n a.mid
    post := spillStores slots spilled n a.mid ++ a.post.map untouched }

end SpillGroup

section Group

/-- A register of the original function, whose counter was `c`, that has not been spilled so far. -/
def Kept (c : Nat) (gone : Finset VRegId) (r : Register R) : Prop :=
  ∀ v, r = .virtual v → v < c ∧ v ∉ gone

/-- A register that the rounds have introduced. -/
def Temporary (c : Nat) (r : Register R) : Prop :=
  ∃ t, c ≤ t ∧ r = .virtual t

/-- An instruction of the rounds: it moves a temporary from or to the stack. -/
structure SideInst (c : Nat) (j : I) : Prop where
  plain : isTerminator j = false
  uses : ∀ r ∈ useRegs j, Temporary c r ∨ Reserved I r
  defs : ∀ r ∈ defRegs j, Temporary c r

/-- `mid` is `inst` with temporaries for its spilled registers. -/
structure Renamed (c : Nat) (gone : Finset VRegId) (inst mid : I) : Prop where
  terminator : isTerminator mid = isTerminator inst
  succs : getSuccessors mid = getSuccessors inst
  conflicts : defConflictRegs inst = ∅ → defConflictRegs mid = ∅
  uses : ∀ r ∈ useRegs mid, r ∈ useRegs inst ∧ Kept c gone r ∨ Temporary c r
  defs : ∀ r ∈ defRegs mid, r ∈ defRegs inst ∧ Kept c gone r ∨ Temporary c r
  kills : ∀ r ∈ defRegs inst, Kept c gone r → r ∈ defRegs mid

/-- A register of the original function is no temporary. -/
theorem Kept.not_temporary {c : Nat} {gone : Finset VRegId} {r : Register R} (h : Kept c gone r) :
    ¬ Temporary c r := by
  rintro ⟨t, ht, rfl⟩
  exact absurd (h t rfl).1 (Nat.not_lt.mpr ht)

/-- Nor is a reserved one. -/
theorem Reserved.not_temporary {c : Nat} {r : Register R} (h : Reserved I r) : ¬ Temporary c r := by
  rintro ⟨t, -, rfl⟩
  exact h.ne_virtual t rfl

variable [DecidableEq R]

omit [LoweringTarget R I] in
/-- The temporaries among `regs`. -/
def temporaries (c : Nat) (regs : List (Register R)) : Finset VRegId :=
  (virtuals regs.toFinset).filter (c ≤ ·)

/-- The temporaries among a list of registers. -/
theorem mem_temporaries {c t : Nat} {regs : List (Register R)} :
    t ∈ temporaries c regs ↔ c ≤ t ∧ .virtual t ∈ regs := by
  rw [temporaries, Finset.mem_filter, mem_virtuals, List.mem_toFinset, and_comm]

namespace SpillGroup

/-- All temporaries of a group. -/
def temporaries (c : Nat) (a : SpillGroup R I) : Finset VRegId :=
  Mir.temporaries c a.operandRegs ∪ Mir.temporaries c a.resultRegs

/-- What the rounds keep of the group of an instruction, some registers of which are gone: a
temporary is dead in front of the group, and behind `mid` unless that writes it. -/
structure Ok (c : Nat) (gone : Finset VRegId) (a : SpillGroup R I) : Prop where
  sides : ∀ j ∈ a.pre ++ a.post, SideInst c j
  renamed : Renamed c gone a.inst a.mid
  dead : ∀ (out : Finset (Register R)) t, c ≤ t → .virtual t ∉ out →
    .virtual t ∉ liveBefore out a.code
  written : ∀ (out : Finset (Register R)) t, c ≤ t → .virtual t ∉ out →
    .virtual t ∈ liveBefore out a.post → .virtual t ∈ defRegs a.mid
  operands : (Mir.temporaries c a.operandRegs).card ≤
    (virtuals (useRegs a.inst).toFinset ∩ gone).card
  results : (Mir.temporaries c a.resultRegs).card ≤
    2 * (virtuals (defRegs a.inst).toFinset ∩ gone).card
  disjoint : Disjoint (Mir.temporaries c a.operandRegs) (Mir.temporaries c a.resultRegs)

end SpillGroup

variable {c n : Nat} {gone : Finset VRegId} {spilled : List VRegId} {inst mid : I}
  {slots : HashMap VRegId StackSlotId}

omit [LoweringTarget R I] [DecidableEq R] in
/-- What is left after more spilling was left before. -/
theorem Kept.of_union {more : Finset VRegId} {r : Register R} (h : Kept c (gone ∪ more) r) :
    Kept c gone r :=
  fun v hv => ⟨(h v hv).1, fun hmem => (h v hv).2 (Finset.mem_union_left _ hmem)⟩

omit [LoweringTarget R I] [DecidableEq R] in
/-- A register that the round does not spill is left after it. -/
theorem Kept.union {more : List VRegId} {k : Nat} {r : Register R} (h : Kept c gone r)
    (hold : OldUnspilled more k r) : Kept c (gone ∪ more.toFinset) r := by
  refine fun v hv => ⟨(h v hv).1, fun hmem => ?_⟩
  rcases Finset.mem_union.mp hmem with hgone | hmore
  · exact (h v hv).2 hgone
  · exact (hold v hv).2 (List.mem_toFinset.mp hmore)

omit [LoweringTarget R I] [DecidableEq R] in
/-- A register made by a round is a temporary. -/
theorem Fresh.temporary {lo hi : Nat} {r : Register R} (h : Fresh lo hi r) (hc : c ≤ lo) :
    Temporary c r := by
  obtain ⟨t, hlo, -, heq⟩ := h
  exact ⟨t, hc.trans hlo, heq⟩

variable [LawfulTarget R I]

/-- Renaming once more. -/
theorem Renamed.spill (h : Renamed c gone inst mid) (hc : c ≤ n)
    (hold : ∀ v, .virtual v ∈ MachineFunction.instRegs mid → v < n) :
    Renamed c (gone ∪ spilled.toFinset) inst (spillRenamed spilled n mid) where
  terminator := (LawfulTarget.isTerminator_rewrite _ _ _).trans h.terminator
  succs := (LawfulTarget.getSuccessors_rewrite _ _ _).trans h.succs
  conflicts hinst := LawfulTarget.defConflictRegs_rewrite _ _ (h.conflicts hinst)
  uses r hr := by
    rcases useRegs_spillRenamed (fun v hv => hold v (List.mem_append_left _ hv)) hr with
      ⟨huse, hunspilled⟩ | hfresh
    · exact (h.uses r huse).imp_left fun hkept => ⟨hkept.1, hkept.2.union hunspilled⟩
    · exact Or.inr (hfresh.temporary hc)
  defs r hr := by
    rcases defRegs_spillRenamed (fun v hv => hold v (List.mem_append_right _ hv)) hr with
      ⟨hdef, hunspilled⟩ | hfresh
    · exact (h.defs r hdef).imp_left fun hkept => ⟨hkept.1, hkept.2.union hunspilled⟩
    · exact Or.inr (hfresh.temporary (hc.trans (Nat.le_add_right _ _)))
  kills r hr hkept := by
    refine mem_defRegs_spillRenamed (h.kills r hr hkept.of_union) (k := c) fun v hv => ?_
    obtain ⟨hlt, hnot⟩ := hkept v hv
    exact ⟨hlt, fun hmem => hnot (Finset.mem_union_right _ (List.mem_toFinset.mpr hmem))⟩

/-- A rebuilt load or store is one. -/
theorem SideInst.untouched {j : I} (h : SideInst c j) : SideInst c (untouched j) where
  plain := (isTerminator_untouched j).trans h.plain
  uses r hr := h.uses r (useRegs_untouched j ▸ hr)
  defs r hr := h.defs r (defRegs_untouched j ▸ hr)

omit [DecidableEq R] [LawfulTarget R I] in
/-- The rounds' own instructions mention no register of the original function. -/
theorem SideInst.not_mem {j : I} (h : SideInst c j) (hspilled : ∀ v ∈ spilled, v < c) :
    ∀ v ∈ spilled, .virtual v ∉ MachineFunction.instRegs j := by
  intro v hv hmem
  rcases List.mem_append.mp hmem with huse | hdef
  · rcases h.uses _ huse with ⟨t, ht, heq⟩ | hres
    · cases heq
      exact absurd (hspilled v hv) (Nat.not_lt.mpr ht)
    · exact hres.ne_virtual v rfl
  · obtain ⟨t, ht, heq⟩ := h.defs _ hdef
    cases heq
    exact absurd (hspilled v hv) (Nat.not_lt.mpr ht)

omit [LawfulTarget R I] in
/-- The spilled registers of a renamed instruction are registers of the original one that were
there until now. -/
theorem card_uniqueSpilledVregs_le {regs origRegs : List (Register R)}
    (h : ∀ r ∈ regs, r ∈ origRegs ∧ Kept c gone r ∨ Temporary c r)
    (hspilled : ∀ v ∈ spilled, v < c) :
    (virtuals origRegs.toFinset ∩ gone).card + (uniqueSpilledVregs regs spilled).length ≤
      (virtuals origRegs.toFinset ∩ (gone ∪ spilled.toFinset)).card := by
  have hdisjoint : Disjoint (virtuals origRegs.toFinset ∩ gone)
      (uniqueSpilledVregs regs spilled).toFinset := by
    refine Finset.disjoint_left.mpr fun v hgone hmem => ?_
    obtain ⟨hreg, hs⟩ := mem_uniqueSpilledVregs.mp (List.mem_toFinset.mp hmem)
    rcases h _ hreg with ⟨-, hkept⟩ | ⟨t, ht, heq⟩
    · exact (hkept v rfl).2 (Finset.mem_inter.mp hgone).2
    · cases heq
      exact absurd (hspilled v hs) (Nat.not_lt.mpr ht)
  have hsub : virtuals origRegs.toFinset ∩ gone ∪ (uniqueSpilledVregs regs spilled).toFinset ⊆
      virtuals origRegs.toFinset ∩ (gone ∪ spilled.toFinset) := by
    refine Finset.union_subset (Finset.inter_subset_inter_left Finset.subset_union_left) ?_
    intro v hmem
    obtain ⟨hreg, hs⟩ := mem_uniqueSpilledVregs.mp (List.mem_toFinset.mp hmem)
    rcases h _ hreg with ⟨horig, -⟩ | ⟨t, ht, heq⟩
    · exact Finset.mem_inter.mpr ⟨mem_virtuals.mpr (List.mem_toFinset.mpr horig),
        Finset.mem_union_right _ (List.mem_toFinset.mpr hs)⟩
    · cases heq
      exact absurd (hspilled v hs) (Nat.not_lt.mpr ht)
  calc (virtuals origRegs.toFinset ∩ gone).card + (uniqueSpilledVregs regs spilled).length
      = (virtuals origRegs.toFinset ∩ gone ∪ (uniqueSpilledVregs regs spilled).toFinset).card := by
        rw [Finset.card_union_of_disjoint hdisjoint,
          List.toFinset_card_of_nodup (uniqueSpilledVregs_nodup _ _)]
    _ ≤ _ := Finset.card_le_card hsub

variable [ReservedStack R I]

/-- The loads and stores of the next round. -/
theorem sideInst_spill (hc : c ≤ n) {j : I}
    (hj : j ∈ spillLoads slots spilled n mid ++ spillStores slots spilled n mid) : SideInst c j where
  plain := isTerminator_side hj
  uses r hr := by
    rcases List.mem_append.mp hj with hj | hj
    · exact Or.inr (useRegs_spillLoads hj hr)
    · exact (useRegs_spillStores hj hr).symm.imp_left fun hfresh =>
        hfresh.temporary (hc.trans (Nat.le_add_right _ _))
  defs r hr := by
    rcases List.mem_append.mp hj with hj | hj
    · exact (defRegs_spillLoads hj hr).temporary hc
    · exact (defRegs_spillStores hj hr).temporary (hc.trans (Nat.le_add_right _ _))

namespace SpillGroup

variable {a : SpillGroup R I}

omit [LawfulTarget R I] [ReservedStack R I] in
/-- The next round leaves the code in front of `mid` alone. -/
theorem Ok.not_mem_pre (h : a.Ok c gone) (hspilled : ∀ v ∈ spilled, v < c) :
    ∀ j ∈ a.pre, ∀ v ∈ spilled, .virtual v ∉ MachineFunction.instRegs j :=
  fun j hj => (h.sides j (List.mem_append_left _ hj)).not_mem hspilled

omit [LawfulTarget R I] [ReservedStack R I] in
/-- And the code behind it. -/
theorem Ok.not_mem_post (h : a.Ok c gone) (hspilled : ∀ v ∈ spilled, v < c) :
    ∀ j ∈ a.post, ∀ v ∈ spilled, .virtual v ∉ MachineFunction.instRegs j :=
  fun j hj => (h.sides j (List.mem_append_right _ hj)).not_mem hspilled

omit [DecidableEq R] [LawfulTarget R I] [ReservedStack R I] in
/-- A round in terms of the code: only `mid` gets loads and stores of its own. -/
theorem spill_code (a : SpillGroup R I) (slots : HashMap VRegId StackSlotId) (spilled : List VRegId)
    (n : Nat) : (a.spill slots spilled n).code =
      a.pre.map untouched ++ (spillInst slots spilled n a.mid).1 ++ a.post.map untouched := by
  rw [code, SpillGroup.spill, spillInst_fst]
  simp only [List.append_assoc, List.cons_append]

omit [LawfulTarget R I] [ReservedStack R I] in
/-- The code of a group after a round that spills registers of the original function only. -/
theorem Ok.spillInsts (h : a.Ok c gone) (hspilled : ∀ v ∈ spilled, v < c) :
    spillInsts slots spilled n a.code =
      ((a.spill slots spilled n).code, (spillInst slots spilled n a.mid).2) := by
  rw [code, spillInsts_append_eq, spillInsts_eq_untouched (h.not_mem_pre hspilled), Mir.spillInsts]
  dsimp only
  rw [spillInsts_eq_untouched (h.not_mem_post hspilled), spill_code, List.append_assoc]

omit [DecidableEq R] [LawfulTarget R I] [ReservedStack R I] in
/-- The registers of a group are those of its code. -/
theorem mem_regs_iff {r : Register R} :
    r ∈ a.operandRegs ++ a.resultRegs ↔ ∃ j ∈ a.code, r ∈ MachineFunction.instRegs j := by
  simp only [operandRegs, resultRegs, code, MachineFunction.instRegs, List.mem_append,
    List.mem_flatMap, List.mem_cons]
  constructor
  · rintro ((⟨j, hj, hr⟩ | hr) | hr | ⟨j, hj, hr⟩)
    · exact ⟨j, Or.inl hj, hr⟩
    · exact ⟨a.mid, Or.inr (Or.inl rfl), Or.inl hr⟩
    · exact ⟨a.mid, Or.inr (Or.inl rfl), Or.inr hr⟩
    · exact ⟨j, Or.inr (Or.inr hj), hr⟩
  · rintro ⟨j, hj | rfl | hj, hr⟩
    · exact Or.inl (Or.inl ⟨j, hj, hr⟩)
    · exact hr.imp Or.inr Or.inl
    · exact Or.inr (Or.inr ⟨j, hj, hr⟩)

/-- The operands of a group after a round. -/
theorem operandRegs_spill (a : SpillGroup R I) (slots : HashMap VRegId StackSlotId)
    (spilled : List VRegId) (n : Nat) {r : Register R}
    (hmid : ∀ v, .virtual v ∈ useRegs a.mid → v < n)
    (hr : r ∈ (a.spill slots spilled n).operandRegs) : r ∈ a.operandRegs ∨ Reserved I r ∨
      Fresh n (n + (uniqueSpilledVregs (useRegs a.mid) spilled).length) r := by
  rw [operandRegs, SpillGroup.spill, List.flatMap_append, List.append_assoc] at hr
  rcases List.mem_append.mp hr with hr | hr
  · obtain ⟨j, hj, hr⟩ := List.mem_flatMap.mp hr
    obtain ⟨i, hi, rfl⟩ := List.mem_map.mp hj
    rw [instRegs_untouched] at hr
    exact Or.inl (List.mem_append_left _ (List.mem_flatMap.mpr ⟨i, hi, hr⟩))
  rcases List.mem_append.mp hr with hr | hr
  · obtain ⟨j, hj, hr⟩ := List.mem_flatMap.mp hr
    rcases List.mem_append.mp hr with huse | hdef
    · exact Or.inr (Or.inl (useRegs_spillLoads hj huse))
    · exact Or.inr (Or.inr (defRegs_spillLoads hj hdef))
  · rcases useRegs_spillRenamed hmid hr with ⟨huse, -⟩ | hfresh
    · exact Or.inl (List.mem_append_right _ huse)
    · exact Or.inr (Or.inr hfresh)

/-- The results of a group after a round. -/
theorem resultRegs_spill (a : SpillGroup R I) (slots : HashMap VRegId StackSlotId)
    (spilled : List VRegId) (n : Nat) {r : Register R}
    (hmid : ∀ v, .virtual v ∈ defRegs a.mid → v < n)
    (hr : r ∈ (a.spill slots spilled n).resultRegs) : r ∈ a.resultRegs ∨ Reserved I r ∨
      Fresh (n + (uniqueSpilledVregs (useRegs a.mid) spilled).length)
        (spillInst slots spilled n a.mid).2 r := by
  rw [resultRegs, SpillGroup.spill, List.flatMap_append] at hr
  rcases List.mem_append.mp hr with hr | hr
  · refine (defRegs_spillRenamed hmid hr).imp (fun h => List.mem_append_left _ h.1) fun h => ?_
    rw [spillInst_snd]
    exact Or.inr (h.mono (by omega))
  rcases List.mem_append.mp hr with hr | hr
  · obtain ⟨j, hj, hr⟩ := List.mem_flatMap.mp hr
    rcases List.mem_append.mp hr with huse | hdef
    · refine Or.inr ((useRegs_spillStores hj huse).imp_right fun h => ?_)
      rw [spillInst_snd]
      exact h.mono (by omega)
    · exact Or.inr (Or.inr (defRegs_spillStores hj hdef))
  · obtain ⟨j, hj, hr⟩ := List.mem_flatMap.mp hr
    obtain ⟨i, hi, rfl⟩ := List.mem_map.mp hj
    rw [instRegs_untouched] at hr
    exact Or.inl (List.mem_append_right _ (List.mem_flatMap.mpr ⟨i, hi, hr⟩))

/-- The temporaries of the operands after a round: those there were, and one for each operand
spilled in it. -/
theorem operands_spill (hmid : ∀ v, .virtual v ∈ useRegs a.mid → v < n) {t : VRegId}
    (ht : t ∈ Mir.temporaries c (a.spill slots spilled n).operandRegs) :
    t ∈ Mir.temporaries c a.operandRegs ∨
      n ≤ t ∧ t < n + (uniqueSpilledVregs (useRegs a.mid) spilled).length := by
  obtain ⟨hle, hr⟩ := mem_temporaries.mp ht
  rcases operandRegs_spill a slots spilled n hmid hr with hold | hres | ⟨t', hlo, hhi, heq⟩
  · exact Or.inl (mem_temporaries.mpr ⟨hle, hold⟩)
  · exact absurd rfl (hres.ne_virtual t)
  · cases heq
    exact Or.inr ⟨hlo, hhi⟩

/-- The temporaries of the results after a round. -/
theorem results_spill (hmid : ∀ v, .virtual v ∈ defRegs a.mid → v < n) {t : VRegId}
    (ht : t ∈ Mir.temporaries c (a.spill slots spilled n).resultRegs) :
    t ∈ Mir.temporaries c a.resultRegs ∨
      n + (uniqueSpilledVregs (useRegs a.mid) spilled).length ≤ t ∧
        t < (spillInst slots spilled n a.mid).2 := by
  obtain ⟨hle, hr⟩ := mem_temporaries.mp ht
  rcases resultRegs_spill a slots spilled n hmid hr with hold | hres | ⟨t', hlo, hhi, heq⟩
  · exact Or.inl (mem_temporaries.mpr ⟨hle, hold⟩)
  · exact absurd rfl (hres.ne_virtual t)
  · cases heq
    exact Or.inr ⟨hlo, hhi⟩

/-- The virtual registers of the group come from a counter below `n`. -/
def Below (n : Nat) (a : SpillGroup R I) : Prop :=
  ∀ r ∈ a.operandRegs ++ a.resultRegs, ∀ v, r = .virtual v → v < n

omit [DecidableEq R] [LawfulTarget R I] [ReservedStack R I] in
theorem Below.mono {m : Nat} (h : a.Below n) (hle : n ≤ m) : a.Below m :=
  fun r hr v hv => (h r hr v hv).trans_le hle

omit [DecidableEq R] [LawfulTarget R I] [ReservedStack R I] in
/-- The operands are below. -/
theorem Below.uses (h : a.Below n) : ∀ v, .virtual v ∈ useRegs a.mid → v < n :=
  fun v hv => h _ (List.mem_append_left _ (List.mem_append_right _ hv)) v rfl

omit [DecidableEq R] [LawfulTarget R I] [ReservedStack R I] in
/-- The results are below. -/
theorem Below.defs (h : a.Below n) : ∀ v, .virtual v ∈ defRegs a.mid → v < n :=
  fun v hv => h _ (List.mem_append_right _ (List.mem_append_left _ hv)) v rfl

omit [LawfulTarget R I] [ReservedStack R I] in
/-- The temporaries are below. -/
theorem Below.lt_of_mem (h : a.Below n) {t : VRegId} (ht : t ∈ a.temporaries c) : t < n := by
  rcases Finset.mem_union.mp ht with ht | ht
  · exact h _ (List.mem_append_left _ (mem_temporaries.mp ht).2) t rfl
  · exact h _ (List.mem_append_right _ (mem_temporaries.mp ht).2) t rfl

/-- After a round the temporaries of the group are those it had and new ones. -/
theorem mem_temporaries_spill (h : a.Below n) {t : VRegId}
    (ht : t ∈ (a.spill slots spilled n).temporaries c) :
    t ∈ a.temporaries c ∨ n ≤ t ∧ t < (spillInst slots spilled n a.mid).2 := by
  rcases Finset.mem_union.mp ht with ht | ht
  · refine (operands_spill h.uses ht).imp (Finset.mem_union_left _) fun hnew => ⟨hnew.1, ?_⟩
    rw [spillInst_snd]
    exact hnew.2.trans_le (Nat.le_add_right _ _)
  · exact (results_spill h.defs ht).imp (Finset.mem_union_right _)
      fun hnew => ⟨(Nat.le_add_right _ _).trans hnew.1, hnew.2⟩

/-- Each operand of the instruction that is gone has at most one temporary. -/
theorem Ok.card_operands_spill (h : a.Ok c gone) (hspilled : ∀ v ∈ spilled, v < c)
    (hlt : a.Below n) : (Mir.temporaries c (a.spill slots spilled n).operandRegs).card ≤
      (virtuals (useRegs a.inst).toFinset ∩ (gone ∪ spilled.toFinset)).card := by
  have hsub : Mir.temporaries c (a.spill slots spilled n).operandRegs ⊆
      Mir.temporaries c a.operandRegs ∪
        Finset.Ico n (n + (uniqueSpilledVregs (useRegs a.mid) spilled).length) := by
    intro t ht
    rw [Finset.mem_union, Finset.mem_Ico]
    exact operands_spill hlt.uses ht
  have hcard := (Finset.card_le_card hsub).trans (Finset.card_union_le _ _)
  have huses := card_uniqueSpilledVregs_le h.renamed.uses hspilled
  have hcount := h.operands
  rw [Nat.card_Ico] at hcard
  omega

/-- Each result has at most two. -/
theorem Ok.card_results_spill (h : a.Ok c gone) (hspilled : ∀ v ∈ spilled, v < c)
    (hlt : a.Below n) : (Mir.temporaries c (a.spill slots spilled n).resultRegs).card ≤
      2 * (virtuals (defRegs a.inst).toFinset ∩ (gone ∪ spilled.toFinset)).card := by
  have hsub : Mir.temporaries c (a.spill slots spilled n).resultRegs ⊆
      Mir.temporaries c a.resultRegs ∪
        Finset.Ico (n + (uniqueSpilledVregs (useRegs a.mid) spilled).length)
          (spillInst slots spilled n a.mid).2 := by
    intro t ht
    rw [Finset.mem_union, Finset.mem_Ico]
    exact results_spill hlt.defs ht
  have hcard := (Finset.card_le_card hsub).trans (Finset.card_union_le _ _)
  have hdefs := card_uniqueSpilledVregs_le h.renamed.defs hspilled
  have hcount := h.results
  rw [Nat.card_Ico, spillInst_snd] at hcard
  omega

/-- The temporaries of operands and of results stay apart: each range is fresh. -/
theorem Ok.disjoint_spill (h : a.Ok c gone) (hlt : a.Below n) :
    Disjoint (Mir.temporaries c (a.spill slots spilled n).operandRegs)
      (Mir.temporaries c (a.spill slots spilled n).resultRegs) := by
  refine Finset.disjoint_left.mpr fun t hop hres => ?_
  rcases operands_spill hlt.uses hop with hop | ⟨hlo, hhi⟩
  · have hold := hlt.lt_of_mem (Finset.mem_union_left _ hop)
    rcases results_spill hlt.defs hres with hres | ⟨hlo, -⟩
    · exact Finset.disjoint_left.mp h.disjoint hop hres
    · exact absurd hold (Nat.not_lt.mpr ((Nat.le_add_right _ _).trans hlo))
  · rcases results_spill hlt.defs hres with hres | ⟨hlo', -⟩
    · exact absurd (hlt.lt_of_mem (Finset.mem_union_right _ hres)) (Nat.not_lt.mpr hlo)
    · exact absurd hhi (Nat.not_lt.mpr hlo')

/-- No temporary is live in front of the group after a round. -/
theorem Ok.dead_spill (h : a.Ok c gone) (hspilled : ∀ v ∈ spilled, v < c) (hlt : a.Below n)
    {out : Finset (Register R)} {t : VRegId} (ht : c ≤ t) (hout : .virtual t ∉ out) :
    .virtual t ∉ liveBefore out (a.spill slots spilled n).code := by
  rw [spill_code, List.append_assoc, liveBefore_append, liveBefore_append, liveBefore_untouched,
    liveBefore_untouched]
  rcases Nat.lt_or_ge t n with hold | hnew
  · -- an old temporary is where it was
    intro hlive
    refine h.dead out t ht hout ?_
    rw [code, liveBefore_append]
    refine mem_liveBefore_mono (fun hfront => ?_) hlive
    rw [← List.singleton_append, liveBefore_append]
    exact mem_liveBefore_of_old hlt.uses hold
      (fun hmem => absurd (hspilled t hmem) (Nat.not_lt.mpr ht)) hfront
  · -- a new one is nowhere else
    have hpre : ∀ j ∈ a.pre, .virtual t ∉ useRegs j := by
      intro j hj hr
      have hmem : .virtual t ∈ a.operandRegs := List.mem_append_left _
        (List.mem_flatMap.mpr ⟨j, hj, List.mem_append_left _ hr⟩)
      exact absurd (hlt _ (List.mem_append_left _ hmem) t rfl) (Nat.not_lt.mpr hnew)
    have hpost : .virtual t ∉ liveBefore out a.post := fun hr =>
      absurd (hlt.defs t (h.written out t ht hout hr)) (Nat.not_lt.mpr hnew)
    intro hlive
    exact not_mem_liveBefore_fresh hlt.uses hnew hpost (mem_of_mem_liveBefore hpre hlive)

/-- What is live behind the renamed instruction is written by it. -/
theorem Ok.written_spill (h : a.Ok c gone) (hspilled : ∀ v ∈ spilled, v < c)
    {out : Finset (Register R)} {t : VRegId} (ht : c ≤ t) (hout : .virtual t ∉ out)
    (hlive : .virtual t ∈ liveBefore out (a.spill slots spilled n).post) :
    .virtual t ∈ defRegs (a.spill slots spilled n).mid := by
  rw [SpillGroup.spill] at hlive
  dsimp only at hlive
  rw [liveBefore_append, liveBefore_untouched] at hlive
  rcases mem_uses_or_out hlive with ⟨j, hj, huse⟩ | hlive
  · rcases useRegs_spillStores hj huse with hres | ⟨t', hlo, hhi, heq⟩
    · exact absurd rfl (hres.ne_virtual t)
    · cases heq
      exact mem_defRegs_spillRenamed_fresh hlo hhi
  · refine mem_defRegs_spillRenamed (k := t + 1) (h.written out t ht hout hlive) fun v hv => ?_
    cases hv
    exact ⟨Nat.lt_succ_self t, fun hmem => absurd (hspilled t hmem) (Nat.not_lt.mpr ht)⟩

/-- A round keeps what is known of a group. -/
theorem Ok.spill (h : a.Ok c gone) (hc : c ≤ n) (hspilled : ∀ v ∈ spilled, v < c)
    (hlt : a.Below n) : (a.spill slots spilled n).Ok c (gone ∪ spilled.toFinset) where
  sides j hj := by
    have hnew : ∀ j ∈ spillLoads slots spilled n a.mid ++ spillStores slots spilled n a.mid,
        SideInst c j := fun j => sideInst_spill hc
    rcases List.mem_append.mp hj with hj | hj
    · rcases List.mem_append.mp hj with hj | hj
      · obtain ⟨i, hi, rfl⟩ := List.mem_map.mp hj
        exact (h.sides i (List.mem_append_left _ hi)).untouched
      · exact hnew j (List.mem_append_left _ hj)
    · rcases List.mem_append.mp hj with hj | hj
      · exact hnew j (List.mem_append_right _ hj)
      · obtain ⟨i, hi, rfl⟩ := List.mem_map.mp hj
        exact (h.sides i (List.mem_append_right _ hi)).untouched
  renamed := h.renamed.spill hc fun v hv => (List.mem_append.mp hv).elim (hlt.uses v) (hlt.defs v)
  dead _ _ ht hout := h.dead_spill hspilled hlt ht hout
  written _ _ ht hout hlive := h.written_spill hspilled ht hout hlive
  operands := h.card_operands_spill hspilled hlt
  results := h.card_results_spill hspilled hlt
  disjoint := h.disjoint_spill hlt

/-- The group of an instruction before the first round. -/
def start (p : I × Finset (Register R)) : SpillGroup R I where
  inst := p.1
  after := p.2
  pre := []
  mid := p.1
  post := []

omit [LawfulTarget R I] [ReservedStack R I] in
/-- Before the first round there are no temporaries. -/
theorem start_temporaries {p : I × Finset (Register R)}
    (hlt : ∀ v, .virtual v ∈ MachineFunction.instRegs p.1 → v < c) :
    Mir.temporaries c (start p).operandRegs = ∅ ∧ Mir.temporaries c (start p).resultRegs = ∅ := by
  have hnone : ∀ r ∈ (start p).operandRegs ++ (start p).resultRegs, ∀ t, c ≤ t → r ≠ .virtual t := by
    rintro r hr t ht rfl
    obtain ⟨j, hj, hr⟩ := mem_regs_iff.mp hr
    rw [List.mem_singleton.mp hj] at hr
    exact absurd (hlt t hr) (Nat.not_lt.mpr ht)
  refine ⟨Finset.eq_empty_of_forall_notMem fun t ht => ?_,
    Finset.eq_empty_of_forall_notMem fun t ht => ?_⟩
  · obtain ⟨hle, hr⟩ := mem_temporaries.mp ht
    exact hnone _ (List.mem_append_left _ hr) t hle rfl
  · obtain ⟨hle, hr⟩ := mem_temporaries.mp ht
    exact hnone _ (List.mem_append_right _ hr) t hle rfl

omit [LawfulTarget R I] [ReservedStack R I] in
/-- Before the first round the group is the instruction itself. -/
theorem start_ok {p : I × Finset (Register R)}
    (hlt : ∀ v, .virtual v ∈ MachineFunction.instRegs p.1 → v < c) : (start p).Ok c ∅ where
  sides j hj := by cases hj
  renamed :=
    { terminator := rfl
      succs := rfl
      conflicts := id
      uses := fun r hr => Or.inl ⟨hr, fun v hv =>
        ⟨hlt v (List.mem_append_left _ (hv ▸ hr)), Finset.notMem_empty v⟩⟩
      defs := fun r hr => Or.inl ⟨hr, fun v hv =>
        ⟨hlt v (List.mem_append_right _ (hv ▸ hr)), Finset.notMem_empty v⟩⟩
      kills := fun r hr _ => hr }
  dead out t ht hout hlive := by
    refine hout (mem_of_mem_liveBefore (fun j hj hr => ?_) hlive)
    rw [List.mem_singleton.mp hj] at hr
    exact absurd (hlt t (List.mem_append_left _ hr)) (Nat.not_lt.mpr ht)
  written out t _ hout hlive := absurd hlive hout
  operands := by
    rw [(start_temporaries hlt).1]
    exact Nat.zero_le _
  results := by
    rw [(start_temporaries hlt).2]
    exact Nat.zero_le _
  disjoint := by
    rw [(start_temporaries hlt).1]
    exact Finset.disjoint_empty_left _

end SpillGroup

end Group

end Mir
