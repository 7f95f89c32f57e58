import C0mpiler.Mir.SpillLayout
import C0mpiler.Mir.SpillStarved
import Mathlib

/-!
# Room for the temporaries

When the spill loop ends. As long as the rounds spill registers of the original function only, the
temporaries that hold operands of an instruction stand against each other and against what is live in
front of the instruction and has not been spilled, those that hold its results against each other and
against what it writes and what is live behind it. If there the physical registers leave room for
them, whichever registers the earlier rounds have spilled (`Roomy`), then no temporary is ever left
without a register, and the loop ends.
-/

namespace Mir

variable {R I : Type} [DecidableEq R] [LoweringTarget R I]

/-! ## Inside a group -/

variable (I) in
/-- A register of `stands` that is left, a reserved one, or one of the temporaries `temps`. -/
def Around (c : Nat) (gone : Finset VRegId) (stands : Finset (Register R)) (temps : Finset VRegId)
    (r : Register R) : Prop :=
  Survives I c gone stands r ∨ ∃ t ∈ temps, r = .virtual t

omit [DecidableEq R] in
theorem Around.mono {c : Nat} {gone temps temps' : Finset VRegId} {X Y : Finset (Register R)}
    {r : Register R} (h : Around I c gone X temps r) (hXY : X ⊆ Y) (htemps : temps ⊆ temps') :
    Around I c gone Y temps' r := by
  refine h.imp (fun h => h.mono fun hr => hXY hr) ?_
  rintro ⟨t, ht, rfl⟩
  exact ⟨t, htemps ht, rfl⟩

/-- A temporary that occurs is around. -/
theorem around_temporary {c : Nat} {gone : Finset VRegId} {stands : Finset (Register R)}
    {regs : List (Register R)} {r : Register R} (hr : r ∈ regs) (h : Temporary c r) :
    Around I c gone stands (temporaries c regs) r := by
  obtain ⟨t, ht, rfl⟩ := h
  exact Or.inr ⟨t, mem_temporaries.mpr ⟨ht, hr⟩, rfl⟩

/-- A register of an instruction of the rounds is a temporary or reserved. -/
theorem SideInst.around {c : Nat} {gone : Finset VRegId} {stands : Finset (Register R)}
    {regs : List (Register R)} {r : Register R} {j : I} (h : SideInst c j)
    (hregs : MachineFunction.instRegs j ⊆ regs) (hr : r ∈ MachineFunction.instRegs j) :
    Around I c gone stands (temporaries c regs) r := by
  rcases List.mem_append.mp hr with huse | hdef
  · exact (h.uses r huse).elim (around_temporary (hregs hr)) fun hres => Or.inl (Or.inr hres)
  · exact around_temporary (hregs hr) (h.defs r hdef)

omit [DecidableEq R] in
/-- The only temporaries around are those of the list. -/
theorem Around.mem_temps {c : Nat} {gone temps : Finset VRegId} {stands : Finset (Register R)}
    {t : VRegId} (h : Around I c gone stands temps (.virtual t)) (ht : c ≤ t) : t ∈ temps := by
  rcases h with hold | ⟨t', ht', heq⟩
  · exact absurd ⟨t, ht, rfl⟩ hold.not_temporary
  · cases heq
    exact ht'

/-- The registers a definition conflicts with are read by the instruction. -/
theorem mem_useRegs_of_conflict [LawfulTarget R I] {j : I} {d r : Register R}
    (h : r ∈ (((defConflictRegs j).lookup d).getD []).toFinset) :
    r ∈ useRegs j ∧ defConflictRegs j ≠ ∅ := by
  have h := List.mem_toFinset.mp h
  cases hl : (defConflictRegs j).lookup d with
  | none =>
    rw [hl] at h
    cases h
  | some l =>
    rw [hl] at h
    refine ⟨LawfulTarget.mem_defConflictRegs hl h, fun hnone => ?_⟩
    rw [hnone, AList.lookup_empty] at hl
    cases hl

namespace SpillGroup

/-- The registers live in front of the instruction in the original function. -/
def before (a : SpillGroup R I) : Finset (Register R) :=
  liveBefore a.after [a.inst]

/-- The registers that the instruction writes and those live behind it. -/
def behind (a : SpillGroup R I) : Finset (Register R) :=
  a.after ∪ (defRegs a.inst).toFinset

variable (c : Nat) (gone : Finset VRegId) (a : SpillGroup R I)

/-- What occurs or is live in the code in front of the renamed instruction. -/
abbrev AroundOperands (r : Register R) : Prop :=
  Around I c gone a.before (Mir.temporaries c a.operandRegs) r

/-- What the renamed instruction writes and what occurs or is live behind it. -/
abbrev AroundResults (r : Register R) : Prop :=
  Around I c gone a.behind (Mir.temporaries c a.resultRegs) r

/-- Both sides together. -/
abbrev AroundInst (r : Register R) : Prop :=
  Around I c gone (a.before ∪ a.behind) (a.temporaries c) r

variable {c gone a} {j : I} {r : Register R}

/-- One side. -/
theorem AroundOperands.aroundInst (h : a.AroundOperands c gone r) : a.AroundInst c gone r :=
  Around.mono h Finset.subset_union_left Finset.subset_union_left

/-- The other side. -/
theorem AroundResults.aroundInst (h : a.AroundResults c gone r) : a.AroundInst c gone r :=
  Around.mono h Finset.subset_union_right Finset.subset_union_right

/-- The operands of `mid` are around on the left. -/
theorem Ok.around_use (h : a.Ok c gone) (hr : r ∈ useRegs a.mid) : a.AroundOperands c gone r := by
  rcases h.renamed.uses r hr with ⟨hinst, hkept⟩ | htemp
  · exact Or.inl (Or.inl ⟨Finset.mem_union_left _ (List.mem_toFinset.mpr hinst), hkept⟩)
  · exact around_temporary (List.mem_append_right _ hr) htemp

/-- Its results on the right. -/
theorem Ok.around_def (h : a.Ok c gone) (hr : r ∈ defRegs a.mid) : a.AroundResults c gone r := by
  rcases h.renamed.defs r hr with ⟨hinst, hkept⟩ | htemp
  · exact Or.inl (Or.inl ⟨Finset.mem_union_right _ (List.mem_toFinset.mpr hinst), hkept⟩)
  · exact around_temporary (List.mem_append_left _ hr) htemp

/-- The code in front of `mid`. -/
theorem Ok.around_pre (h : a.Ok c gone) (hj : j ∈ a.pre) (hr : r ∈ MachineFunction.instRegs j) :
    a.AroundOperands c gone r := by
  refine (h.sides j (List.mem_append_left _ hj)).around (fun r hr => ?_) hr
  exact List.mem_append_left _ (List.mem_flatMap.mpr ⟨j, hj, hr⟩)

/-- The code behind it. -/
theorem Ok.around_post (h : a.Ok c gone) (hj : j ∈ a.post) (hr : r ∈ MachineFunction.instRegs j) :
    a.AroundResults c gone r := by
  refine (h.sides j (List.mem_append_right _ hj)).around (fun r hr => ?_) hr
  exact List.mem_append_right _ (List.mem_flatMap.mpr ⟨j, hj, hr⟩)

section Live

variable {out : Finset (Register R)}

/-- What is live behind `mid`. -/
theorem Ok.around_live_behind (h : a.Ok c gone) (hout : ∀ r ∈ out, Survives I c gone a.after r)
    {rest : List I} (hrest : rest ⊆ a.post) (hr : r ∈ liveBefore out rest) :
    a.AroundResults c gone r := by
  rcases mem_uses_or_out hr with ⟨i, hi, huse⟩ | hr
  · exact h.around_post (hrest hi) (List.mem_append_left _ huse)
  · exact Or.inl ((hout r hr).mono (Finset.mem_union_left _))

/-- What is live in front of it: a temporary that is read there has not been written yet, so it is
one of the operands. -/
theorem Ok.around_live_front (h : a.Ok c gone) (hout : ∀ r ∈ out, Survives I c gone a.after r)
    {rest : List I} (hrest : rest ⊆ a.pre) (hr : r ∈ liveBefore out (rest ++ a.mid :: a.post)) :
    a.AroundOperands c gone r := by
  rw [liveBefore_append] at hr
  rcases mem_uses_or_out hr with ⟨i, hi, huse⟩ | hr
  · exact h.around_pre (hrest hi) (List.mem_append_left _ huse)
  rcases Finset.mem_union.mp hr with huse | hlive
  · exact h.around_use (List.mem_toFinset.mp huse)
  obtain ⟨hlive, hdef⟩ := Finset.mem_sdiff.mp hlive
  -- a temporary live behind `mid` is written by `mid`
  have hold : ¬ Temporary c r := by
    rintro ⟨t, ht, rfl⟩
    exact hdef (List.mem_toFinset.mpr
      (h.written out t ht (fun hmem => (hout _ hmem).not_temporary ⟨t, ht, rfl⟩) hlive))
  rcases mem_uses_or_out hlive with ⟨i, hi, huse⟩ | hr
  · exact Or.inl (Or.inr (((h.sides i (List.mem_append_right _ hi)).uses r huse).resolve_left hold))
  · rcases hout r hr with ⟨hafter, hkept⟩ | hres
    · refine Or.inl (Or.inl ⟨Finset.mem_union_right _ (Finset.mem_sdiff.mpr ⟨hafter, ?_⟩), hkept⟩)
      exact fun hinst => hdef
        (List.mem_toFinset.mpr (h.renamed.kills r (List.mem_toFinset.mp hinst) hkept))
    · exact Or.inl (Or.inr hres)

/-- Where two registers stand against each other in a group: both in front of the renamed
instruction, both behind it, or across it if its results conflict with its operands. -/
def Near (c : Nat) (gone : Finset VRegId) (a : SpillGroup R I) (d r : Register R) : Prop :=
  a.AroundOperands c gone d ∧ a.AroundOperands c gone r ∨
    a.AroundResults c gone d ∧ a.AroundResults c gone r ∨
    defConflictRegs a.inst ≠ ∅ ∧ a.AroundInst c gone d ∧ a.AroundInst c gone r

theorem Near.symm {d : Register R} (h : a.Near c gone d r) : a.Near c gone r d :=
  h.imp And.symm fun h => h.imp And.symm fun h => ⟨h.1, h.2.symm⟩

/-- Either of them is around. -/
theorem Near.aroundInst_left {d : Register R} (h : a.Near c gone d r) : a.AroundInst c gone d := by
  rcases h with ⟨h, -⟩ | ⟨h, -⟩ | ⟨-, h, -⟩
  · exact h.aroundInst
  · exact h.aroundInst
  · exact h

/-- What stands against the temporary of an operand. -/
theorem Ok.near_operands (h : a.Ok c gone) (hinst : defConflictRegs a.inst = ∅) {t : VRegId}
    (ht : t ∈ Mir.temporaries c a.operandRegs) (hr : a.Near c gone (.virtual t) r) :
    a.AroundOperands c gone r := by
  rcases hr with ⟨-, hr⟩ | ⟨htr, -⟩ | ⟨hne, -⟩
  · exact hr
  · have hmem := htr.mem_temps (mem_temporaries.mp ht).1
    exact absurd hmem (Finset.disjoint_left.mp h.disjoint ht)
  · exact absurd hinst hne

/-- What stands against the temporary of a result. -/
theorem Ok.near_results (h : a.Ok c gone) (hinst : defConflictRegs a.inst = ∅) {t : VRegId}
    (ht : t ∈ Mir.temporaries c a.resultRegs) (hr : a.Near c gone (.virtual t) r) :
    a.AroundResults c gone r := by
  rcases hr with ⟨htr, -⟩ | ⟨-, hr⟩ | ⟨hne, -⟩
  · have hmem := htr.mem_temps (mem_temporaries.mp ht).1
    exact absurd ht (Finset.disjoint_left.mp h.disjoint hmem)
  · exact hr
  · exact absurd hinst hne

/-- And the other. -/
theorem Near.aroundInst_right {d : Register R} (h : a.Near c gone d r) : a.AroundInst c gone r :=
  h.symm.aroundInst_left

omit [DecidableEq R] [LoweringTarget R I] in
/-- The places of an instruction in the code of a group. -/
theorem split_code {x y : List I} (h : a.code = x ++ j :: y) :
    (∃ z, a.pre = x ++ j :: z ∧ y = z ++ a.mid :: a.post) ∨ (j = a.mid ∧ y = a.post) ∨
      ∃ z, a.post = z ++ j :: y := by
  rcases List.append_eq_append_iff.mp h with ⟨z, -, hmid⟩ | ⟨z, hpre, hrest⟩
  · cases z with
    | nil =>
      obtain ⟨rfl, rfl⟩ := List.cons.inj hmid
      exact Or.inr (Or.inl ⟨rfl, rfl⟩)
    | cons i z => exact Or.inr (Or.inr ⟨z, (List.cons.inj hmid).2⟩)
  · cases z with
    | nil =>
      obtain ⟨rfl, rfl⟩ := List.cons.inj hrest
      exact Or.inr (Or.inl ⟨rfl, rfl⟩)
    | cons i z =>
      obtain ⟨rfl, rfl⟩ := List.cons.inj hrest
      exact Or.inl ⟨z, hpre, rfl⟩

/-- A definition in the code of a group and what it conflicts with. -/
theorem Ok.near_of_conflicts [LawfulTarget R I] (h : a.Ok c gone)
    (hout : ∀ r ∈ out, Survives I c gone a.after r) {x y : List I} (hcode : a.code = x ++ j :: y)
    {d : Register R} (hd : InterferenceGraph.Conflicts (j, liveBefore out y) d r) :
    a.Near c gone d r := by
  obtain ⟨hdef, hr⟩ := hd
  rcases split_code hcode with ⟨z, hpre, rfl⟩ | ⟨rfl, rfl⟩ | ⟨z, hpost⟩
  · have hj : j ∈ a.pre := hpre ▸ List.mem_append_right _ List.mem_cons_self
    have hz : z ⊆ a.pre := fun i hi => hpre ▸ List.mem_append_right _ (List.mem_cons_of_mem _ hi)
    refine Or.inl ⟨h.around_pre hj (List.mem_append_right _ hdef), ?_⟩
    rcases Finset.mem_union.mp hr with hlive | hconf
    · exact h.around_live_front hout hz hlive
    · exact h.around_pre hj (List.mem_append_left _ (mem_useRegs_of_conflict hconf).1)
  · rcases Finset.mem_union.mp hr with hlive | hconf
    · exact Or.inr (Or.inl ⟨h.around_def hdef,
        h.around_live_behind hout (List.Subset.refl _) hlive⟩)
    · obtain ⟨huse, hne⟩ := mem_useRegs_of_conflict hconf
      exact Or.inr (Or.inr ⟨fun hinst => hne (h.renamed.conflicts hinst),
        (h.around_def hdef).aroundInst, (h.around_use huse).aroundInst⟩)
  · have hj : j ∈ a.post := hpost ▸ List.mem_append_right _ List.mem_cons_self
    have hy : y ⊆ a.post := fun i hi => hpost ▸ List.mem_append_right _ (List.mem_cons_of_mem _ hi)
    refine Or.inr (Or.inl ⟨h.around_post hj (List.mem_append_right _ hdef), ?_⟩)
    rcases Finset.mem_union.mp hr with hlive | hconf
    · exact h.around_live_behind hout hy hlive
    · exact h.around_post hj (List.mem_append_left _ (mem_useRegs_of_conflict hconf).1)

end Live

end SpillGroup

/-! ## The neighbours of a temporary -/

/-- A place in a list of lists. -/
theorem flatMap_eq_append_cons {α β : Type} {f : α → List β} {l : List α} {pre rest : List β} {b : β}
    (h : l.flatMap f = pre ++ b :: rest) : ∃ l₁ a l₂ x y, l = l₁ ++ a :: l₂ ∧ f a = x ++ b :: y ∧
      rest = y ++ l₂.flatMap f := by
  induction l generalizing pre with
  | nil => exact absurd h.symm (by simp)
  | cons a l ih =>
    rw [List.flatMap_cons] at h
    rcases List.append_eq_append_iff.mp h with ⟨z, hpre, hl⟩ | ⟨z, ha, hrest⟩
    · obtain ⟨l₁, a', l₂, x, y, rfl, hx, hy⟩ := ih hl
      exact ⟨a :: l₁, a', l₂, x, y, rfl, hx, hy⟩
    · cases z with
      | nil =>
        have htail : l.flatMap f = [] ++ b :: rest := hrest.symm
        obtain ⟨l₁, a', l₂, x, y, rfl, hx, hy⟩ := ih htail
        exact ⟨a :: l₁, a', l₂, x, y, rfl, hx, hy⟩
      | cons b' z =>
        obtain ⟨rfl, htail⟩ := List.cons.inj hrest
        exact ⟨[], a, l, pre, z, rfl, ha, htail⟩

/-- The set behind an instruction, as the block has it. -/
theorem after_eq_liveBefore {gs hs : List (SpillGroup R I)} {a : SpillGroup R I} {insts : List I}
    {out : Finset (Register R)}
    (h : (gs ++ a :: hs).map (·.origin) = insts.zip (liveAfterEach out insts)) :
    a.after = liveBefore out (hs.map (·.inst)) := by
  induction gs generalizing insts with
  | nil =>
    cases insts with
    | nil => cases h
    | cons i insts =>
      have hrest : hs.map (·.origin) = insts.zip (liveAfterEach out insts) := (List.cons.inj h).2
      have hinsts := congrArg (List.map Prod.fst) hrest
      rw [List.map_map, List.map_fst_zip (length_liveAfterEach _ _).ge] at hinsts
      have hafter : a.after = liveBefore out insts := congrArg Prod.snd (List.cons.inj h).1
      exact hafter.trans (congrArg (liveBefore out) hinsts.symm)
  | cons b gs ih =>
    cases insts with
    | nil => cases h
    | cons i insts => exact ih (List.cons.inj h).2

/-- The registers of `stands` that are left. -/
def keptOf (c : Nat) (gone : Finset VRegId) (stands : Finset (Register R)) : Finset VRegId :=
  (virtuals stands).filter (· < c) \ gone

/-- A temporary that stands only against registers around it has fewer neighbours than registers it
may have, if these leave room. -/
theorem degree_lt_of_around [LawfulTarget R I] {g : MachineFunction R I} {inf : LivenessInfo R}
    {c t : Nat} {gone temps : Finset VRegId} {stands : Finset (Register R)} {free : Finset R}
    (haround : ∀ p ∈ g.blocks.flatMap inf.liveAfter, ∀ r,
      InterferenceGraph.Conflicts p (.virtual t) r ∨ InterferenceGraph.Conflicts p r (.virtual t) →
      Around I c gone stands temps r) (ht : t ∈ temps)
    (hfree : ∀ q ∈ free, q ∈ LoweringTarget.allocatableRegs I ∧ .physical q ∉ stands)
    (hroom : (keptOf c gone stands).card + temps.card ≤ free.card) :
    ((InterferenceGraph.build g inf).edges t).card <
      ((InterferenceGraph.build g inf).availableRegs I t).length := by
  -- the neighbours of `t` are other temporaries and registers that are left
  have hedges : (InterferenceGraph.build g inf).edges t ⊆
      keptOf c gone stands ∪ temps.erase t := by
    intro w hw
    obtain ⟨hne, p, hp, hconf⟩ := InterferenceGraph.mem_edges_build.mp hw
    rcases haround p hp _ hconf with (⟨hstands, hkept⟩ | hres) | ⟨w', hw', heq⟩
    · obtain ⟨hlt, hnot⟩ := hkept w rfl
      exact Finset.mem_union_left _ (Finset.mem_sdiff.mpr
        ⟨Finset.mem_filter.mpr ⟨mem_virtuals.mpr hstands, hlt⟩, hnot⟩)
    · exact absurd rfl (hres.ne_virtual w)
    · cases heq
      exact Finset.mem_union_right _ (Finset.mem_erase.mpr ⟨hne.symm, hw'⟩)
  -- a free register that stands nowhere around is available
  have havailable : free ⊆ ((InterferenceGraph.build g inf).availableRegs I t).toFinset := by
    intro q hq
    obtain ⟨halloc, hnot⟩ := hfree q hq
    rw [List.mem_toFinset, InterferenceGraph.availableRegs, List.mem_filter, decide_eq_true_eq]
    refine ⟨halloc, fun hforb => ?_⟩
    obtain ⟨p, hp, hconf⟩ := InterferenceGraph.mem_forbiddenPhys_build.mp hforb
    rcases haround p hp _ hconf with (⟨hstands, -⟩ | ⟨q', hq', heq⟩) | ⟨t', -, heq⟩
    · exact hnot hstands
    · cases heq
      exact hq' halloc
    · cases heq
  have hcard := (Finset.card_le_card hedges).trans (Finset.card_union_le _ _)
  have herase := Finset.card_erase_add_one ht
  have hlength := (Finset.card_le_card havailable).trans (List.toFinset_card_le _)
  omega

namespace Grouped

variable {f g : MachineFunction R I} {info inf : LivenessInfo R} {gone : Finset VRegId}
  {bs : List (GroupedBlock R I)} {a b : SpillGroup R I} {t : VRegId}

/-- The instruction of a group, with its set, is one of `f`. -/
theorem origin_mem (h : Grouped f info gone g bs) (ha : a ∈ bs.flatMap (·.groups)) :
    a.origin ∈ f.blocks.flatMap info.liveAfter := by
  obtain ⟨b, hb, ha⟩ := List.mem_flatMap.mp ha
  obtain ⟨block, hblock, -, hlive, -⟩ := h.exists_origin hb
  exact List.mem_flatMap.mpr ⟨block, hblock, hlive ▸ List.mem_map_of_mem ha⟩

/-- A temporary that occurs is one of some group. -/
theorem exists_temporaries (h : Grouped f info gone g bs) (ht : g.Occurs t)
    (hge : f.vregCounter ≤ t) :
    ∃ a ∈ bs.flatMap (·.groups), t ∈ a.temporaries f.vregCounter := by
  obtain ⟨j, hj, hreg⟩ := ht
  rw [MachineFunction.insts, h.blocks] at hj
  obtain ⟨block, hblock, hj⟩ := List.mem_flatMap.mp hj
  obtain ⟨b, hb, rfl⟩ := List.mem_map.mp hblock
  obtain ⟨a, ha, hj⟩ := List.mem_flatMap.mp hj
  refine ⟨a, List.mem_flatMap.mpr ⟨b, hb, ha⟩, ?_⟩
  rcases List.mem_append.mp (SpillGroup.mem_regs_iff.mpr ⟨j, hj, hreg⟩) with hr | hr
  · exact Finset.mem_union_left _ (mem_temporaries.mpr ⟨hge, hr⟩)
  · exact Finset.mem_union_right _ (mem_temporaries.mpr ⟨hge, hr⟩)

/-- A temporary is around the instruction of its own group only. -/
theorem eq_of_around (h : Grouped f info gone g bs) (ha : a ∈ bs.flatMap (·.groups))
    (hb : b ∈ bs.flatMap (·.groups)) (hge : f.vregCounter ≤ t)
    (hta : t ∈ a.temporaries f.vregCounter)
    (htb : b.AroundInst f.vregCounter gone (.virtual t)) : b = a := by
  by_contra hne
  exact Finset.disjoint_left.mp (h.apart.forall hb ha hne) (htb.mem_temps hge) hta

variable [LawfulTarget R I]

/-- What stands against each other in `g` does so in the group of one instruction of `f`. -/
theorem exists_near (h : Grouped f info gone g bs) (hf : f.Wf) (hg : g.Wf)
    (hinfo : livenessAnalysis f = some info) (hinf : livenessAnalysis g = some inf)
    {p : I × Finset (Register R)} (hp : p ∈ g.blocks.flatMap inf.liveAfter) {d r : Register R}
    (hd : InterferenceGraph.Conflicts p d r) :
    ∃ a ∈ bs.flatMap (·.groups), a.Near f.vregCounter gone d r := by
  obtain ⟨j, live⟩ := p
  obtain ⟨block', hblock', hp⟩ := List.mem_flatMap.mp hp
  rw [h.blocks] at hblock'
  obtain ⟨b, hb, rfl⟩ := List.mem_map.mp hblock'
  obtain ⟨pre, rest, hinsts, rfl⟩ := mem_liveAfter_iff.mp hp
  obtain ⟨gs, a, hs, x, y, hgroups, hcode, rfl⟩ := flatMap_eq_append_cons hinsts
  have ha : a ∈ b.groups := hgroups ▸ List.mem_append_right _ List.mem_cons_self
  have hrest : ∀ a' ∈ hs, a'.Ok f.vregCounter gone := fun a' ha' => h.ok_of_mem hb a'
    (hgroups ▸ List.mem_append_right _ (List.mem_cons_of_mem _ ha'))
  obtain ⟨block, -, hid, hlive, -⟩ := h.exists_origin hb
  rw [LivenessInfo.liveAfter, hgroups] at hlive
  have hafter := after_eq_liveBefore hlive.symm
  rw [hid] at hafter
  have hout := survives_groups hrest (h.liveOut_survives hf hg hinfo hinf b.id)
  rw [← hafter] at hout
  rw [liveBefore_append] at hd
  exact ⟨a, List.mem_flatMap.mpr ⟨b, hb, ha⟩,
    (h.ok_of_mem hb a ha).near_of_conflicts hout hcode hd⟩

/-- What stands against a temporary is in the group of the temporary. -/
theorem near_temporary (h : Grouped f info gone g bs) (hf : f.Wf) (hg : g.Wf)
    (hinfo : livenessAnalysis f = some info) (hinf : livenessAnalysis g = some inf)
    (ha : a ∈ bs.flatMap (·.groups)) (hge : f.vregCounter ≤ t)
    (ht : t ∈ a.temporaries f.vregCounter) {p : I × Finset (Register R)}
    (hp : p ∈ g.blocks.flatMap inf.liveAfter) {r : Register R}
    (hr : InterferenceGraph.Conflicts p (.virtual t) r ∨
      InterferenceGraph.Conflicts p r (.virtual t)) :
    a.Near f.vregCounter gone (.virtual t) r := by
  obtain ⟨b, hb, hnear⟩ : ∃ b ∈ bs.flatMap (·.groups), b.Near f.vregCounter gone (.virtual t) r := by
    rcases hr with hr | hr
    · exact h.exists_near hf hg hinfo hinf hp hr
    · obtain ⟨b, hb, hnear⟩ := h.exists_near hf hg hinfo hinf hp hr
      exact ⟨b, hb, hnear.symm⟩
  exact h.eq_of_around ha hb hge ht hnear.aroundInst_left ▸ hnear

end Grouped

/-! ## What the function says before it is allocated -/

namespace MachineFunction

variable (f : MachineFunction R I)

/-- A definition of `d` stands against `x`. -/
def Against (d x : Register R) : Prop :=
  ∃ p inst, f.InstAt p inst ∧ d ∈ defRegs inst ∧
    (f.LiveAt x ⟨p.block, p.index + 1⟩ ∨ x ∈ ((defConflictRegs inst).lookup d).getD [])

/-- The two registers stand against each other somewhere. -/
def Interferes (a b : Register R) : Prop :=
  f.Against a b ∨ f.Against b a

/-- The instruction at `p` writes the register, or it is live behind the instruction. -/
def StandsBehind (p : Pos) (inst : I) (r : Register R) : Prop :=
  r ∈ defRegs inst ∨ f.LiveAt r ⟨p.block, p.index + 1⟩

/-- The registers on either side of the instruction. -/
def StandsAround (p : Pos) (inst : I) (r : Register R) : Prop :=
  f.LiveAt r p ∨ f.StandsBehind p inst r

/-- A colouring that colours greedily: interfering registers differ, every register that is written
has a colour unless it is among `left`, and those of `left` have none because the registers they
interfere with take all there are. -/
structure GreedyColouring (colour : VRegId → Option R) (left : Finset VRegId) : Prop where
  allowed : ∀ v r, colour v = some r →
    r ∈ LoweringTarget.allocatableRegs I ∧ ¬ f.Interferes (.virtual v) (.physical r)
  proper : ∀ v w r, v ≠ w → f.Interferes (.virtual v) (.virtual w) → colour v = some r →
    colour w ≠ some r
  total : ∀ v p inst, f.InstAt p inst → .virtual v ∈ defRegs inst → v ∉ left →
    ∃ r, colour v = some r
  uncoloured : ∀ v ∈ left, colour v = none
  blocked : ∀ v ∈ left, ∀ r ∈ LoweringTarget.allocatableRegs I,
    ¬ f.Interferes (.virtual v) (.physical r) →
    ∃ w, v ≠ w ∧ f.Interferes (.virtual v) (.virtual w) ∧ colour w = some r

variable (I) in
/-- Take any of the registers of `stands` that have a colour: the physical registers of `stands` leave
room for them and for the `temps` temporaries that are needed when no others are kept. -/
def Fits (left : Finset VRegId) (stands : Register R → Prop) (temps : Finset VRegId → Nat) : Prop :=
  ∀ kept : Finset VRegId, (∀ v ∈ kept, v ∉ left ∧ stands (.virtual v)) → 0 < temps kept →
    ∃ free : Finset R,
      (∀ q ∈ free, q ∈ LoweringTarget.allocatableRegs I ∧ ¬ stands (.physical q)) ∧
      kept.card + temps kept ≤ free.card

/-- The temporaries for the operands of `inst` when the registers of `kept` are kept. -/
def operandTemps (inst : I) (kept : Finset VRegId) : Nat :=
  (virtuals (useRegs inst).toFinset \ kept).card

/-- The temporaries for the results of `inst`: each needs a scratch register for its store. -/
def resultTemps (inst : I) (kept : Finset VRegId) : Nat :=
  2 * (virtuals (defRegs inst).toFinset \ kept).card

/-- There is room for the temporaries of an instruction: for those of its operands in front of it and
for those of its results behind it, and for both at once where the results conflict with the
operands. -/
structure RoomAt (left : Finset VRegId) (p : Pos) (inst : I) : Prop where
  operands : defConflictRegs inst = ∅ → Fits I left (f.LiveAt · p) (operandTemps inst)
  results : defConflictRegs inst = ∅ → Fits I left (f.StandsBehind p inst) (resultTemps inst)
  across : defConflictRegs inst ≠ ∅ → Fits I left (f.StandsAround p inst)
    fun kept => operandTemps inst kept + resultTemps inst kept

/-- Whichever registers a greedy colouring leaves without a colour, the temporaries of every
instruction have room beside the others. -/
def Roomy : Prop :=
  ∀ colour left, f.GreedyColouring colour left → left.Nonempty →
    ∀ p inst, f.InstAt p inst → f.RoomAt left p inst

end MachineFunction

section Rounds

variable {f g : MachineFunction R I} {info : LivenessInfo R}

/-- The entries of `live_after` are the points of the function. -/
theorem exists_instAt (hf : f.Wf) (hinfo : livenessAnalysis f = some info)
    {q : I × Finset (Register R)} (hq : q ∈ f.blocks.flatMap info.liveAfter) :
    ∃ p, f.InstAt p q.1 ∧ ∀ r ∈ q.2, f.LiveAt r ⟨p.block, p.index + 1⟩ := by
  obtain ⟨inst, live⟩ := q
  obtain ⟨block, hb, hq⟩ := List.mem_flatMap.mp hq
  obtain ⟨pre, rest, hinsts, rfl⟩ := mem_liveAfter_iff.mp hq
  refine ⟨⟨block.id, pre.length⟩, ⟨block, hb, rfl, by simp [hinsts]⟩, fun r hr => ?_⟩
  have hsplit : block.instructions = (pre ++ [inst]) ++ rest := by simp [hinsts]
  have hlive := liveAt_of_mem_liveBefore hf.nodup hb
    ((livenessAnalysis_sound hf.nodup hinfo).liveOut block hb r) hsplit hr
  rwa [List.length_append, List.length_singleton] at hlive

/-- What is live behind an instruction and not written by it, or read by it, is live in front. -/
theorem liveAt_of_after (hids : (f.blocks.map (·.id)).Nodup) {p : Pos} {inst : I}
    (hinst : f.InstAt p inst) {after : Finset (Register R)}
    (hafter : ∀ r ∈ after, f.LiveAt r ⟨p.block, p.index + 1⟩) {r : Register R}
    (hr : r ∈ liveBefore after [inst]) : f.LiveAt r p := by
  rcases Finset.mem_union.mp hr with huse | hlive
  · exact .here ⟨inst, hinst, List.mem_toFinset.mp huse⟩
  · obtain ⟨hlive, hdef⟩ := Finset.mem_sdiff.mp hlive
    obtain ⟨block, hb, hid, hget⟩ := hinst
    obtain ⟨id, index⟩ := p
    obtain rfl : block.id = id := hid
    refine .step (fun inst' hinst' hmem => hdef (List.mem_toFinset.mpr ?_))
      (.next hb (List.getElem?_eq_some_iff.mp hget).1) (hafter r hlive)
    have hsame := (instAt_unique hids hb hinst').symm.trans hget
    cases hsame
    exact hmem

/-- The set that the analysis has behind an instruction. -/
theorem exists_entry (hf : f.Wf) (hinfo : livenessAnalysis f = some info) {p : Pos} {inst : I}
    (h : f.InstAt p inst) : ∃ live, (inst, live) ∈ f.blocks.flatMap info.liveAfter ∧
      ∀ r, f.LiveAt r ⟨p.block, p.index + 1⟩ → r ∈ live := by
  obtain ⟨block, hb, hid, hinst⟩ := h
  obtain ⟨hlt, hget⟩ := List.getElem?_eq_some_iff.mp hinst
  obtain ⟨cfg, hcfg, hstable⟩ := livenessAnalysis_stable hinfo
  refine ⟨liveBefore (info.liveOut block.id) (block.instructions.drop (p.index + 1)),
    List.mem_flatMap.mpr ⟨block, hb, mem_liveAfter_iff.mpr
      ⟨block.instructions.take p.index, _, ?_, rfl⟩⟩, fun r hr => ?_⟩
  · rw [← hget, ← List.drop_eq_getElem_cons hlt, List.take_append_drop]
  · exact mem_liveBefore_of_liveAt hf.nodup hcfg
      (livenessAnalysis_sound hf.nodup hinfo).summarised hstable hr hb hid

/-- The conflicts that the allocator finds are those of the paths of the function. -/
theorem exists_conflicts_iff (hf : f.Wf) (hinfo : livenessAnalysis f = some info)
    {d x : Register R} : (∃ q ∈ f.blocks.flatMap info.liveAfter,
      InterferenceGraph.Conflicts q d x) ↔ f.Against d x := by
  constructor
  · rintro ⟨q, hq, hdef, hx⟩
    obtain ⟨p, hinst, hlive⟩ := exists_instAt hf hinfo hq
    exact ⟨p, q.1, hinst, hdef, (Finset.mem_union.mp hx).imp (hlive x) List.mem_toFinset.mp⟩
  · rintro ⟨p, inst, hinst, hdef, hx⟩
    obtain ⟨live, hq, hlive⟩ := exists_entry hf hinfo hinst
    exact ⟨_, hq, hdef, Finset.mem_union.mpr (hx.imp (hlive x) List.mem_toFinset.mpr)⟩

/-- An edge of the graph is an interference of the code. -/
theorem mem_edges_iff (hf : f.Wf) (hinfo : livenessAnalysis f = some info) {v w : VRegId} :
    w ∈ (InterferenceGraph.build f info).edges v ↔
      v ≠ w ∧ f.Interferes (.virtual v) (.virtual w) := by
  rw [InterferenceGraph.mem_edges_build, MachineFunction.Interferes,
    ← exists_conflicts_iff hf hinfo, ← exists_conflicts_iff hf hinfo]
  simp only [and_or_left, exists_or]

/-- And a register is available where it interferes with nothing. -/
theorem mem_availableRegs_iff (hf : f.Wf) (hinfo : livenessAnalysis f = some info) {v : VRegId}
    {r : R} : r ∈ (InterferenceGraph.build f info).availableRegs I v ↔
      r ∈ LoweringTarget.allocatableRegs I ∧ ¬ f.Interferes (.virtual v) (.physical r) := by
  rw [InterferenceGraph.availableRegs, List.mem_filter, decide_eq_true_eq,
    InterferenceGraph.mem_forbiddenPhys_build, MachineFunction.Interferes,
    ← exists_conflicts_iff hf hinfo, ← exists_conflicts_iff hf hinfo]
  simp only [and_or_left, exists_or]

/-- What a round finds is a greedy colouring. -/
theorem greedyColouring_of_computeSpill [Ord R] (hf : f.Wf) {spill : List VRegId}
    {assignedRegs : HashMap VRegId R} (h : computeSpill f = some (spill, assignedRegs)) :
    f.GreedyColouring assignedRegs.lookup spill.toFinset := by
  obtain ⟨info, stack, used, hinfo, hstack, hc⟩ := computeSpill_coloured h
  refine ⟨fun v r hr => ?_, fun v w r hne hvw hr => ?_, fun v p inst hinst hdef hv => ?_,
    fun v hv => ?_, fun v hv r halloc hfree => ?_⟩
  · exact (mem_availableRegs_iff hf hinfo).mp (hc.available v r hr)
  · exact hc.proper v r hr w ((mem_edges_iff hf hinfo).mpr ⟨hne, hvw⟩)
  · obtain ⟨live, hq, -⟩ := exists_entry hf hinfo hinst
    exact hc.total v ((hstack v).mpr (InterferenceGraph.mem_nodes_build_of_def hq hdef))
      fun hmem => hv (List.mem_toFinset.mpr hmem)
  · exact hc.unassigned v (List.mem_toFinset.mp hv)
  · obtain ⟨w, hw, hlook⟩ := hc.blocked v (List.mem_toFinset.mp hv) r
      ((mem_availableRegs_iff hf hinfo).mpr ⟨halloc, hfree⟩)
    obtain ⟨hne, hvw⟩ := (mem_edges_iff hf hinfo).mp hw
    exact ⟨w, hne, hvw, hlook⟩

omit [DecidableEq R] in
/-- The room that a group finds in the middle of the loop. -/
theorem MachineFunction.Fits.exists_free {stands : Register R → Prop} {temps : Finset VRegId → Nat}
    {c : Nat} {gone left tempsNow : Finset VRegId} {X : Finset (Register R)}
    (h : MachineFunction.Fits I left stands temps) (hX : ∀ r ∈ X, stands r) (hleft : left ⊆ gone)
    (hnow : tempsNow.card ≤ temps (keptOf c gone X)) (hne : tempsNow.Nonempty) :
    ∃ free : Finset R, (∀ q ∈ free, q ∈ LoweringTarget.allocatableRegs I ∧ .physical q ∉ X) ∧
      (keptOf c gone X).card + tempsNow.card ≤ free.card := by
  have hkept : ∀ v ∈ keptOf c gone X, v ∉ left ∧ stands (.virtual v) := by
    intro v hv
    obtain ⟨hv, hnot⟩ := Finset.mem_sdiff.mp hv
    exact ⟨fun hmem => hnot (hleft hmem), hX _ (mem_virtuals.mp (Finset.mem_filter.mp hv).1)⟩
  obtain ⟨free, hfree, hcard⟩ := h _ hkept ((Finset.card_pos.mpr hne).trans_le hnow)
  exact ⟨free, fun q hq => ⟨(hfree q hq).1, fun hmem => (hfree q hq).2 (hX _ hmem)⟩,
    (Nat.add_le_add_left hnow _).trans hcard⟩

omit [DecidableEq R] in
/-- The gone registers are not among those kept. -/
theorem card_gone_le (c : Nat) (gone regs : Finset VRegId) (stands : Finset (Register R)) :
    (regs ∩ gone).card ≤ (regs \ keptOf c gone stands).card := by
  refine Finset.card_le_card fun v hv => ?_
  obtain ⟨hreg, hgone⟩ := Finset.mem_inter.mp hv
  exact Finset.mem_sdiff.mpr ⟨hreg, fun hkept => (Finset.mem_sdiff.mp hkept).2 hgone⟩

/-- A group with temporaries belongs to an instruction that has lost a register. -/
theorem SpillGroup.Ok.gone_nonempty {a : SpillGroup R I} {c : Nat} {gone : Finset VRegId}
    (h : a.Ok c gone) {t : VRegId} (ht : t ∈ a.temporaries c) : gone.Nonempty := by
  rw [Finset.nonempty_iff_ne_empty]
  rintro rfl
  have hoperands := h.operands
  have hresults := h.results
  rw [Finset.inter_empty, Finset.card_empty, Nat.le_zero, Finset.card_eq_zero] at hoperands
  rw [Finset.inter_empty, Finset.card_empty, Nat.mul_zero, Nat.le_zero,
    Finset.card_eq_zero] at hresults
  rw [SpillGroup.temporaries, hoperands, hresults] at ht
  exact Finset.notMem_empty t ht

variable [LawfulTarget R I] {gone : Finset VRegId} {bs : List (GroupedBlock R I)}
  {colour : VRegId → Option R} {left : Finset VRegId}

/-- Where there is room, no temporary of a group lacks registers. -/
theorem MachineFunction.RoomAt.degree_lt {a : SpillGroup R I} {p : Pos} {t : VRegId}
    {inf : LivenessInfo R} (hroom : f.RoomAt left p a.inst) (h : Grouped f info gone g bs)
    (hf : f.Wf) (hg : g.Wf) (hinfo : livenessAnalysis f = some info)
    (hinf : livenessAnalysis g = some inf) (ha : a ∈ bs.flatMap (·.groups))
    (hge : f.vregCounter ≤ t) (ht : t ∈ a.temporaries f.vregCounter) (hleft : left ⊆ gone)
    (hinst : f.InstAt p a.inst) (hlive : ∀ r ∈ a.after, f.LiveAt r ⟨p.block, p.index + 1⟩) :
    ((InterferenceGraph.build g inf).edges t).card <
      ((InterferenceGraph.build g inf).availableRegs I t).length := by
  have hok := h.ok a ha
  have hbefore : ∀ r ∈ a.before, f.LiveAt r p := fun r hr =>
    liveAt_of_after hf.nodup hinst hlive hr
  have hbehind : ∀ r ∈ a.behind, f.StandsBehind p a.inst r := fun r hr =>
    (Finset.mem_union.mp hr).symm.imp List.mem_toFinset.mp (hlive r)
  -- an instruction without conflicts: the operands and the results have room apart
  by_cases hconf : defConflictRegs a.inst = ∅
  · rcases Finset.mem_union.mp ht with hop | hres
    · obtain ⟨free, hfree, hcard⟩ := (hroom.operands hconf).exists_free (c := f.vregCounter)
        hbefore hleft (hok.operands.trans (card_gone_le _ _ _ _)) ⟨t, hop⟩
      exact degree_lt_of_around (fun p hp r hr => hok.near_operands hconf hop
        (h.near_temporary hf hg hinfo hinf ha hge ht hp hr)) hop hfree hcard
    · obtain ⟨free, hfree, hcard⟩ := (hroom.results hconf).exists_free (c := f.vregCounter)
        hbehind hleft
        (hok.results.trans (Nat.mul_le_mul_left 2 (card_gone_le _ _ _ _))) ⟨t, hres⟩
      exact degree_lt_of_around (fun p hp r hr => hok.near_results hconf hres
        (h.near_temporary hf hg hinfo hinf ha hge ht hp hr)) hres hfree hcard
  -- one whose results conflict with its operands: all its temporaries together
  · have haround : ∀ r ∈ a.before ∪ a.behind, f.StandsAround p a.inst r :=
      fun r hr => (Finset.mem_union.mp hr).imp (hbefore r) (hbehind r)
    obtain ⟨free, hfree, hcard⟩ := (hroom.across hconf).exists_free (c := f.vregCounter)
      haround hleft ((Finset.card_union_le _ _).trans
        (Nat.add_le_add (hok.operands.trans (card_gone_le _ _ _ _))
          (hok.results.trans (Nat.mul_le_mul_left 2 (card_gone_le _ _ _ _))))) ⟨t, ht⟩
    exact degree_lt_of_around (fun p hp r hr =>
      (h.near_temporary hf hg hinfo hinf ha hge ht hp hr).aroundInst_right) ht hfree hcard

variable [Ord R]

/-- In a roomy function no round spills a temporary. -/
theorem MachineFunction.Roomy.spill_lt (hroom : f.Roomy) (h : Grouped f info gone g bs) (hf : f.Wf)
    (hg : g.Wf) (hinfo : livenessAnalysis f = some info) (hleft : f.GreedyColouring colour left)
    (hgone : gone = ∅ ∨ left.Nonempty ∧ left ⊆ gone) {spill : List VRegId}
    {assignedRegs : HashMap VRegId R} (hc : computeSpill g = some (spill, assignedRegs)) :
    ∀ v ∈ spill, v < f.vregCounter := by
  intro t ht
  by_contra hlt
  have hge := Nat.not_lt.mp hlt
  obtain ⟨inf, -, -, hinf, -⟩ := computeSpill_coloured hc
  obtain ⟨a, ha, hta⟩ := h.exists_temporaries (occurs_of_mem_spill hc ht) hge
  obtain ⟨hne, hsub⟩ := hgone.resolve_left ((h.ok a ha).gone_nonempty hta).ne_empty
  obtain ⟨p, hinst, hlive⟩ := exists_instAt hf hinfo (h.origin_mem ha)
  exact not_mem_spill_of_degree_lt hinf hc ((hroom colour left hleft hne p a.inst hinst).degree_lt h
    hf hg hinfo hinf ha hge hta hsub hinst hlive) ht

variable [ReservedStack R I]

/-- In a roomy function every round starts with groups, and from the second one on the registers
that the first round has spilled are gone. -/
theorem MachineFunction.Roomy.exists_grouped (hroom : f.Roomy) (hf : f.Wf)
    (hinfo : livenessAnalysis f = some info) {spill : List VRegId} {assignedRegs : HashMap VRegId R}
    (hc : computeSpill f = some (spill, assignedRegs)) {n : Nat} (hg : roundStart f n = some g) :
    ∃ gone bs, Grouped f info gone g bs ∧
      (n = 0 ∧ gone = ∅ ∨ spill.toFinset.Nonempty ∧ spill.toFinset ⊆ gone) := by
  induction n generalizing g with
  | zero =>
    cases hg
    exact ⟨∅, _, start_grouped hf info, Or.inl ⟨rfl, rfl⟩⟩
  | succ n ih =>
    obtain ⟨g', hg', hround⟩ := Option.bind_eq_some_iff.mp hg
    obtain ⟨gone, bs, hgroups, hgone⟩ := ih hg'
    obtain ⟨hwf, hle⟩ := roundStart_wf hf hg'
    obtain ⟨spill', assigned', hc'⟩ := computeSpill_eq_some hwf
    rw [spillRound_of_computeSpill hc'] at hround
    -- either the loop ends here, or it goes on with what it spills
    split at hround
    · cases hround
    · next hne =>
      cases hround
      have hown := hroom.spill_lt hgroups hf hwf hinfo (greedyColouring_of_computeSpill hf hc)
        (hgone.imp_left And.right) hc'
      obtain ⟨bs', hgroups'⟩ := hgroups.spillVreg hwf hle hown
      refine ⟨_, bs', hgroups', Or.inr ?_⟩
      -- the first round spills what a greedy colouring leaves; later ones add to it
      rcases hgone with ⟨rfl, rfl⟩ | ⟨hnonempty, hsub⟩
      · cases hg'
        rw [hc] at hc'
        cases hc'
        refine ⟨?_, Finset.subset_union_right⟩
        rw [List.toFinset_nonempty_iff]
        exact fun hnil => hne (List.isEmpty_iff.mpr hnil)
      · exact ⟨hnonempty, hsub.trans Finset.subset_union_left⟩

/-- The spill loop ends on a roomy function. -/
theorem MachineFunction.Roomy.returns (hroom : f.Roomy) (hf : f.Wf) :
    ∃ fuel, (registerAllocation fuel f).isSome := by
  obtain ⟨spill₀, assigned₀, hc₀⟩ := computeSpill_eq_some hf
  obtain ⟨info, -, -, hinfo, -⟩ := computeSpill_coloured hc₀
  refine returns_of_finite hf ((Set.finite_empty).subset fun n hn => ?_)
  obtain ⟨g, spill, assignedRegs, hg, hc, hne, hall⟩ := hn
  obtain ⟨v, hv⟩ := List.exists_mem_of_ne_nil spill hne
  obtain ⟨gone, bs, hgroups, hgone⟩ := hroom.exists_grouped hf hinfo hc₀ hg
  exact absurd (hroom.spill_lt hgroups hf (roundStart_wf hf hg).1 hinfo
    (greedyColouring_of_computeSpill hf hc₀) (hgone.imp_left And.right) hc v hv)
    (Nat.not_lt.mpr (hall v hv))

end Rounds

/-! ## Functions with few registers -/

section Few

open MachineFunction

variable {f : MachineFunction R I}

omit [DecidableEq R] in
/-- A live register is read somewhere. -/
theorem exists_reads_of_liveAt {r : Register R} {p : Pos} (h : f.LiveAt r p) :
    ∃ i ∈ f.insts, r ∈ useRegs i := by
  refine Flow.Until.induct (P := fun _ => ∃ i ∈ f.insts, r ∈ useRegs i) h ?_ fun _ _ _ _ hr => hr
  rintro u ⟨i, ⟨block, hb, -, hget⟩, huse⟩
  exact ⟨i, List.mem_flatMap.mpr ⟨block, hb, List.mem_of_getElem? hget⟩, huse⟩

omit [DecidableEq R] [LoweringTarget R I] in
/-- An instruction at a place is one of the function. -/
theorem MachineFunction.InstAt.mem_insts {p : Pos} {inst : I} (h : f.InstAt p inst) :
    inst ∈ f.insts := by
  obtain ⟨block, hb, -, hget⟩ := h
  exact List.mem_flatMap.mpr ⟨block, hb, List.mem_of_getElem? hget⟩

/-- An instruction with temporaries has a virtual register. -/
theorem exists_virtual_of_temps {inst : I} {kept : Finset VRegId}
    (h : 0 < operandTemps inst kept + resultTemps inst kept) :
    ∃ v, .virtual v ∈ instRegs inst := by
  rcases Nat.add_pos_iff_pos_or_pos.mp h with h | h
  · obtain ⟨v, hv⟩ := Finset.card_pos.mp h
    exact ⟨v, List.mem_append_left _
      (List.mem_toFinset.mp (mem_virtuals.mp (Finset.mem_sdiff.mp hv).1))⟩
  · obtain ⟨v, hv⟩ := Finset.card_pos.mp (Nat.pos_of_mul_pos_left h)
    exact ⟨v, List.mem_append_right _
      (List.mem_toFinset.mp (mem_virtuals.mp (Finset.mem_sdiff.mp hv).1))⟩

/-- A function is roomy if there are enough allocatable registers, never read and not written next
to virtual registers, for all its virtual registers and the temporaries of any instruction. -/
theorem MachineFunction.roomy_of_few {vs : Finset VRegId} {free : Finset R}
    (hvs : ∀ v, f.Occurs v → v ∈ vs) (halloc : ∀ q ∈ free, q ∈ LoweringTarget.allocatableRegs I)
    (hread : ∀ i ∈ f.insts, ∀ q ∈ free, .physical q ∉ useRegs i)
    (hwritten : ∀ i ∈ f.insts, ∀ v, .virtual v ∈ instRegs i → ∀ q ∈ free, .physical q ∉ defRegs i)
    (hcard : ∀ i ∈ f.insts, vs.card + (operandTemps i ∅ + resultTemps i ∅) ≤ free.card) :
    f.Roomy := by
  intro colour left _ _ p inst hinst
  have hmem := hinst.mem_insts
  have hcard := hcard inst hmem
  have hoperands (kept : Finset VRegId) : operandTemps inst kept ≤ operandTemps inst ∅ :=
    Finset.card_le_card (Finset.sdiff_subset_sdiff subset_rfl (Finset.empty_subset kept))
  have hresults (kept : Finset VRegId) : resultTemps inst kept ≤ resultTemps inst ∅ :=
    Nat.mul_le_mul_left 2
      (Finset.card_le_card (Finset.sdiff_subset_sdiff subset_rfl (Finset.empty_subset kept)))
  -- a free register is read by no instruction, so it is live nowhere
  have hlive : ∀ q ∈ free, ∀ p, ¬ f.LiveAt (.physical q) p := by
    intro q hq p hlive
    obtain ⟨i, hi, huse⟩ := exists_reads_of_liveAt hlive
    exact hread i hi q hq huse
  have hlive_vs : ∀ v p, f.LiveAt (.virtual v) p → v ∈ vs := by
    intro v p hlive
    obtain ⟨i, hi, huse⟩ := exists_reads_of_liveAt hlive
    exact hvs v ⟨i, hi, List.mem_append_left _ huse⟩
  have hbehind_vs : ∀ v, f.StandsBehind p inst (.virtual v) → v ∈ vs := fun v h =>
    h.elim (fun hdef => hvs v ⟨inst, hmem, List.mem_append_right _ hdef⟩) (hlive_vs v _)
  -- what stands are the registers of the function, and `kept` is a part of these
  have hfits (stands : Register R → Prop) (temps : Finset VRegId → Nat)
      (hstands : ∀ v, stands (.virtual v) → v ∈ vs)
      (hphys : (∃ v, .virtual v ∈ instRegs inst) → ∀ q ∈ free, ¬ stands (.physical q))
      (htemps : ∀ kept, temps kept ≤ operandTemps inst kept + resultTemps inst kept) :
      Fits I left stands temps := by
    intro kept hkept hpos
    refine ⟨free, fun q hq => ⟨halloc q hq, hphys ?_ q hq⟩, ?_⟩
    · exact exists_virtual_of_temps (hpos.trans_le (htemps kept))
    · have hsub := Finset.card_le_card fun v hv => hstands v (hkept v hv).2
      have := htemps kept
      have := hoperands kept
      have := hresults kept
      omega
  have hphys : (∃ v, .virtual v ∈ instRegs inst) →
      ∀ q ∈ free, ¬ f.StandsBehind p inst (.physical q) := by
    rintro ⟨v, hv⟩ q hq (hdef | hbehind)
    · exact hwritten inst hmem v hv q hq hdef
    · exact hlive q hq _ hbehind
  constructor
  · exact fun _ => hfits _ _ (fun v => hlive_vs v p) (fun _ q hq => hlive q hq p)
      fun kept => Nat.le_add_right _ _
  · exact fun _ => hfits _ _ hbehind_vs hphys fun kept => Nat.le_add_left _ _
  · refine fun _ => hfits _ _ (fun v h => h.elim (hlive_vs v p) (hbehind_vs v)) ?_ fun _ => le_rfl
    exact fun hv q hq h => h.elim (hlive q hq p) (hphys hv q hq)

end Few

/-! ## Values across a call -/

/-- Thirteen values, one more than there are callee-saved registers, are kept across a call. -/
def crossFn : MachineFunction RV64Reg RV64Inst where
  blocks := [⟨0, (List.range 13).map (fun k => .li (.virtual k) k) ++ .call 0 0 ::
    (List.range 13).map (fun k => .sd (.virtual k) (.physical .sp) 0) ++ [.ret]⟩]
  vregCounter := 13
  entry := 0
  frameInfo := ⟨[], 0, [], false⟩

/-- The instructions of the example. -/
theorem mem_crossFn_insts {i : RV64Inst} (hi : i ∈ crossFn.insts) :
    (∃ k < 13, i = .li (.virtual k) k ∨ i = .sd (.virtual k) (.physical .sp) 0) ∨
      i = .call 0 0 ∨ i = .ret := by
  simp only [MachineFunction.insts, crossFn, List.flatMap_cons, List.flatMap_nil, List.append_nil,
    List.cons_append, List.mem_cons, List.mem_append, List.mem_map, List.mem_range, List.not_mem_nil,
    or_false, List.append_assoc] at hi
  rcases hi with ⟨k, hk, rfl⟩ | rfl | ⟨k, hk, rfl⟩ | rfl
  · exact Or.inl ⟨k, hk, Or.inl rfl⟩
  · exact Or.inr (Or.inl rfl)
  · exact Or.inl ⟨k, hk, Or.inr rfl⟩
  · exact Or.inr (Or.inr rfl)

/-- Those with a virtual register have just that one. -/
theorem crossFn_virtual {i : RV64Inst} (hi : i ∈ crossFn.insts) {v : VRegId}
    (hv : .virtual v ∈ MachineFunction.instRegs i) :
    v < 13 ∧ (i = .li (.virtual v) v ∨ i = .sd (.virtual v) (.physical .sp) 0) := by
  rcases mem_crossFn_insts hi with ⟨k, hk, rfl | rfl⟩ | rfl | rfl
  · obtain rfl : v = k := by
      simpa [MachineFunction.instRegs, useRegs, defRegs, RV64Inst.useRegs, RV64Inst.defRegs] using hv
    exact ⟨hk, Or.inl rfl⟩
  · obtain rfl : v = k := by
      simpa [MachineFunction.instRegs, useRegs, defRegs, RV64Inst.useRegs, RV64Inst.defRegs] using hv
    exact ⟨hk, Or.inr rfl⟩
  · simp [MachineFunction.instRegs, useRegs, defRegs, RV64Inst.useRegs, RV64Inst.defRegs] at hv
  · simp [MachineFunction.instRegs, useRegs, defRegs, RV64Inst.useRegs, RV64Inst.defRegs] at hv

/-- The virtual registers of an instruction are one. -/
theorem crossFn_unique {i : RV64Inst} (hi : i ∈ crossFn.insts) {v w : VRegId}
    (hv : .virtual v ∈ MachineFunction.instRegs i) (hw : .virtual w ∈ MachineFunction.instRegs i) :
    v = w := by
  rcases (crossFn_virtual hi hv).2 with rfl | rfl
  · rcases (crossFn_virtual hi hw).2 with h | h
    · cases h
      rfl
    · cases h
  · rcases (crossFn_virtual hi hw).2 with h | h
    · cases h
    · cases h
      rfl

/-- The example is well formed. -/
theorem crossFn_wf : crossFn.Wf where
  vreg_lt v := by
    rintro ⟨i, hi, hv⟩
    exact (crossFn_virtual hi hv).1
  nodup := by decide
  succs i hi := by
    rcases mem_crossFn_insts hi with ⟨k, -, rfl | rfl⟩ | rfl | rfl
    all_goals exact ⟨[], rfl, fun b hb => absurd hb List.not_mem_nil⟩

/-- Its thirteen registers and one temporary more have room beside the registers that the calls
read. -/
theorem crossFn_roomy : crossFn.Roomy := by
  have hvs : ∀ v, crossFn.Occurs v → v ∈ Finset.range 13 := by
    rintro v ⟨i, hi, hv⟩
    exact Finset.mem_range.mpr (crossFn_virtual hi hv).1
  have halloc : ∀ q ∈ (RV64Reg.getAllocatableRegs.filter fun q => q ≠ .a0 ∧ q ≠ .a1).toFinset,
      q ∈ LoweringTarget.allocatableRegs RV64Inst :=
    fun q hq => List.mem_of_mem_filter (List.mem_toFinset.mp hq)
  refine MachineFunction.roomy_of_few hvs halloc ?_ ?_ ?_
  · intro i hi q hq hread
    rcases mem_crossFn_insts hi with ⟨k, -, rfl | rfl⟩ | rfl | rfl
    · simp [useRegs, RV64Inst.useRegs] at hread
    · obtain rfl : q = .sp := by simpa [useRegs, RV64Inst.useRegs] using hread
      exact absurd hq (by decide)
    · simp [useRegs, RV64Inst.useRegs] at hread
    · simp only [useRegs, RV64Inst.useRegs, List.mem_cons, Register.physical.injEq, List.not_mem_nil,
        or_false] at hread
      rcases hread with rfl | rfl | rfl
      all_goals exact absurd hq (by decide)
  · intro i hi v hv q _ hdef
    rcases (crossFn_virtual hi hv).2 with rfl | rfl
    · simp [defRegs, RV64Inst.defRegs] at hdef
    · simp [defRegs, RV64Inst.defRegs] at hdef
  · intro i hi
    have hone : ∀ regs : List (Register RV64Reg), regs ⊆ MachineFunction.instRegs i →
        (virtuals regs.toFinset \ ∅).card ≤ 1 := by
      intro regs hregs
      refine Finset.card_le_one.mpr fun v hv w hw => ?_
      have hmem : ∀ u ∈ virtuals regs.toFinset \ ∅, .virtual u ∈ MachineFunction.instRegs i :=
        fun u hu => hregs (List.mem_toFinset.mp (mem_virtuals.mp (Finset.mem_sdiff.mp hu).1))
      exact crossFn_unique hi (hmem v hv) (hmem w hw)
    have huse := hone (useRegs i) (List.subset_append_left _ _)
    have hdef := hone (defRegs i) (List.subset_append_right _ _)
    have hfree : (RV64Reg.getAllocatableRegs.filter
        fun q => q ≠ .a0 ∧ q ≠ .a1).toFinset.card = 24 := by decide
    rw [hfree, Finset.card_range, MachineFunction.operandTemps, MachineFunction.resultTemps]
    omega

end Mir
