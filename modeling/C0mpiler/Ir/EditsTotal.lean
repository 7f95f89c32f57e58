import C0mpiler.Ir.TerminatorEdits
import C0mpiler.Ir.CodeEdits
import Mathlib

/-!
# Edits that return

The edits of a module panic on missing keys and slots. With exact use lists and defined operands,
`replaceAllUsesWith` returns for two different values (`replaceAllUsesWith_total`), and
`eraseInstFromParent` returns for an unused instruction in the list of its block
(`eraseInstFromParent_total`).
-/

namespace Ir

/-- A slot that the instruction has can be overwritten. -/
theorem InstKind.replaceOperand_total {k : InstKind} {op : ValueId × OperandSlot}
    (hop : op ∈ k.valueOperands) (v : ValueId) : ∃ r, k.replaceOperand op.2 v = some r := by
  -- the operands in a list are numbered by their slots
  have hindex : ∀ {l : List ValueId} {g : Nat → OperandSlot},
      op ∈ l.zipIdx.map (fun a => (a.1, g a.2)) → ∃ i w, l[i]? = some w ∧ op.2 = g i := by
    intro l g hmem
    obtain ⟨⟨w, i⟩, hw, rfl⟩ := List.mem_map.mp hmem
    exact ⟨i, w, List.mem_zipIdx_iff_getElem?.mp hw, rfl⟩
  -- each slot that is listed can be set
  cases k with
  | call func args =>
    obtain ⟨i, w, hw, hslot⟩ := hindex hop
    rw [hslot]
    exact ⟨_, by rw [replaceOperand, hw]; rfl⟩
  | getElementPtr baseTy base indices =>
    rcases List.mem_cons.mp hop with rfl | hop
    · exact ⟨_, rfl⟩
    · obtain ⟨i, w, hw, hslot⟩ := hindex hop
      rw [hslot]
      exact ⟨_, by rw [replaceOperand, hw]; rfl⟩
  | phi incomings idx =>
    obtain ⟨⟨i, p⟩, hp, rfl⟩ := List.mem_map.mp hop
    exact ⟨_, by rw [replaceOperand, AList.mem_lookup_iff.mpr hp]; rfl⟩
  | branch thenBlock cond =>
    cases cond with
    | none => cases hop
    | some c =>
      rw [List.mem_singleton.mp hop]
      exact ⟨_, rfl⟩
  | ret value =>
    cases value with
    | none => cases hop
    | some w =>
      rw [List.mem_singleton.mp hop]
      exact ⟨_, rfl⟩
  | alloca | unreachable => cases hop
  | select cond thenVal elseVal =>
    simp only [valueOperands, List.mem_cons, List.not_mem_nil, or_false] at hop
    rcases hop with rfl | rfl | rfl <;> exact ⟨_, rfl⟩
  | binary op lhs rhs | icmp op lhs rhs | store lhs rhs =>
    simp only [valueOperands, List.mem_cons, List.not_mem_nil, or_false] at hop
    rcases hop with rfl | rfl <;> exact ⟨_, rfl⟩
  | load | ptrToInt | trunc | zext | sext =>
    rw [List.mem_singleton.mp hop]
    exact ⟨_, rfl⟩

namespace ModuleCore

variable {m m' : ModuleCore}

/-- The slot of the use is there, and what stands in it is defined. -/
def UseReady (m : ModuleCore) (u : Use) : Prop :=
  ∃ d w, m.inst u.user = some d ∧ (w, u.slot) ∈ d.kind.valueOperands ∧ m.Defined w

/-- A use that is ready can be given a value that is defined. -/
theorem replaceInstOperand_total {u : Use} {v : ValueId} (hu : m.UseReady u) (hv : m.Defined v) :
    ∃ m', m.replaceInstOperand u.user u.slot v = some m' := by
  obtain ⟨d, w, hd, hop, hw⟩ := hu
  obtain ⟨⟨old, k'⟩, hrep⟩ := InstKind.replaceOperand_total hop v
  obtain rfl : old = w :=
    InstKind.eq_of_mem_slot (InstKind.valueOperands_nodup d.kind)
      (InstKind.replaceOperand_spec hrep).mem hop
  have hcode := updInst_edited (m := m) u.user (g := fun d => { d with kind := k' })
    (fun _ => rfl) (fun _ => rfl) fun _ => False
  have hdefined : ∀ w, m.Defined w → (m.updInst u.user fun d => { d with kind := k' }).Defined w := by
    intro w hw
    rw [defined_iff, hcode.uses w not_false]
    exact defined_iff.mp hw
  obtain ⟨m₁, h₁, hsame⟩ := updValueUses_total (hdefined old hw) (·.filter fun x => x ≠ ⟨u.user, u.slot⟩)
  obtain ⟨m₂, h₂, -⟩ := updValueUses_total ((hdefined v hv).congr hsame) (· ++ [⟨u.user, u.slot⟩])
  exact ⟨m₂, by simp only [replaceInstOperand, hd, hrep, Option.bind_eq_bind, Option.bind_some, h₁, h₂]⟩

/-- Overwriting a slot keeps the slots of the other uses, and what is defined. -/
theorem replaceInstOperand_ready {inst : InstRef} {slot : OperandSlot} {v : ValueId}
    (hv : m.Defined v) (hrun : m.replaceInstOperand inst slot v = some m') :
    (∀ w, m.Defined w → m'.Defined w) ∧ ∀ u, m.UseReady u → m'.UseReady u := by
  obtain ⟨d, old, k', hd, hrep, hcode⟩ := replaceInstOperand_code hrun
  have hspec := InstKind.replaceOperand_spec hrep
  -- a value that is defined stays defined
  have hdefined : ∀ w, m.Defined w → m'.Defined w := by
    intro w hw
    unfold Defined at hw ⊢
    rw [hcode]
    cases w with
    | inst r =>
      rw [Code.valueTy, Option.isSome_map] at hw ⊢
      by_cases hr : r = inst
      · subst hr
        rw [Code.updInst_inst_self, Option.isSome_map]
        exact hw
      · rw [Code.updInst_inst_of_ne hr]
        exact hw
    | _ => exact hw
  refine ⟨hdefined, ?_⟩
  rintro u ⟨du, w, hdu, hop, hw⟩
  -- the slot that is set has the new value, the other slots of the user have their old ones
  by_cases hu : u.user = inst
  · rw [hu, hd] at hdu
    cases hdu
    obtain ⟨d', hd', hkind⟩ : ∃ d', m'.inst inst = some d' ∧ d'.kind = k' := by
      have hin : m'.code.inst inst = some { d.code with kind := k' } := by
        rw [hcode, Code.updInst_inst_self, code_inst_of_inst hd, Option.map_some]
      obtain ⟨d', hd', heq⟩ := inst_of_code_inst hin
      exact ⟨d', hd', congrArg InstData.kind heq⟩
    -- the slot that is set
    by_cases hslot : u.slot = slot
    · refine ⟨d', v, hu ▸ hd', ?_, hdefined v hv⟩
      rw [hkind, hspec.values, InstKind.mem_setSlot hspec.mem]
      exact Or.inl ⟨hslot, rfl⟩
    · refine ⟨d', w, hu ▸ hd', ?_, hdefined w hw⟩
      rw [hkind, hspec.values, InstKind.mem_setSlot hspec.mem]
      exact Or.inr ⟨hslot, hop⟩
  -- another instruction
  · have hin : m'.code.inst u.user = some du.code := by
      rw [hcode, Code.updInst_inst_of_ne hu, code_inst_of_inst hdu]
    obtain ⟨d', hd', heq⟩ := inst_of_code_inst hin
    have hkind : d'.code.kind = du.code.kind := congrArg InstData.kind heq
    exact ⟨d', w, hd', (show d'.kind = du.kind from hkind) ▸ hop, hdefined w hw⟩

/-- With exact use lists `replaceAllUsesWith` returns for two different values. -/
theorem replaceAllUsesWith_total (h : m.Indexed) {old new : ValueId} (hne : old ≠ new)
    (hold : m.Defined old) (hnew : m.Defined new) : ∃ m', m.replaceAllUsesWith old new = some m' := by
  obtain ⟨uses, huses⟩ := hold.valueUses
  have hready : ∀ u ∈ uses, m.UseReady u := by
    intro u hu
    obtain ⟨-, d, hd, hop⟩ := (h.values.mem_iff huses).mp hu
    exact ⟨d, old, hd, hop, hold⟩
  obtain ⟨m', hm', -⟩ := OptionFold.total_of_relates
    (fun m (u : Use) => m.replaceInstOperand u.user u.slot new)
    (Q := fun a b => (∀ w, a.Defined w → b.Defined w) ∧
      (a.Defined new → ∀ u, a.UseReady u → b.UseReady u))
    (fun _ => ⟨fun _ hw => hw, fun _ _ hu => hu⟩)
    (fun a b c hab hbc => ⟨fun w hw => hbc.1 w (hab.1 w hw), fun hn u hu =>
      hbc.2 (hab.1 new hn) u (hab.2 hn u hu)⟩) (l := uses) (s := m)
    (fun u hu s hs => by
      obtain ⟨s', hs'⟩ := replaceInstOperand_total (hs.2 hnew u (hready u hu)) (hs.1 new hnew)
      have hstep := replaceInstOperand_ready (hs.1 new hnew) hs'
      exact ⟨s', hs', hstep.1, fun _ => hstep.2⟩)
  refine ⟨m', ?_⟩
  simp only [replaceAllUsesWith, if_pos hne, huses, Option.bind_eq_bind, Option.bind_some, guard, hm']
  rfl

/-- An unused instruction in the list of its block is erased. -/
theorem eraseInstFromParent_total (h : m.Indexed) {i : InstRef} {d : InstData} {b : BlockRef}
    {bd : BlockData} (hd : m.inst i = some d) (huses : d.uses = []) (hparent : d.parent = some b)
    (hb : m.code.block b = some bd) (hmem : i.inst ∈ bd.insts) (hblocks : d.kind.blockOperands = []) :
    ∃ m', m.eraseInstFromParent i = some m' := by
  have hops : ∀ op ∈ d.kind.valueOperands, m.Defined op.1 := by
    intro op hop
    rw [defined_iff]
    exact h.values.live ⟨i, op.2⟩ op.1
      ⟨⟨d, hd, by rw [hparent]; rfl⟩, d, hd, hop⟩
  obtain ⟨m₁, hunreg⟩ := unregisterInstUse_total hd hops hblocks
  have hcode := unregisterInstUse_sameCode hunreg
  obtain ⟨before, after, hinsts, hfirst⟩ := List.eq_append_cons_of_mem hmem
  have hd₁ : m₁.code.inst i = some d.code := by
    rw [hcode.code_eq, code_inst_of_inst hd]
  have hloc := locateInst_of_insts hd₁ hparent (by rw [hcode.code_eq]; exact hb) hinsts hfirst
  obtain ⟨d₁, hd₁, heq⟩ := inst_of_code_inst hd₁
  have hparent₁ : d₁.parent = some b := (congrArg InstData.parent heq).trans hparent
  have hval : m.valueUses (.inst i) = some [] := by
    rw [valueUses, hd, Option.map_some, huses]
  refine ⟨_, by
    simp only [eraseInstFromParent, hval, List.isEmpty_nil, guard, if_true, detachInst, hunreg, hd₁,
      hparent₁, hloc, Option.bind_eq_bind, Option.bind_some, Option.pure_def]
    rfl⟩

end ModuleCore

end Ir
