import C0mpiler.Mir.LogueSound
import Mathlib

/-!
# Runs through prologue, body and epilogue

The words of the saved registers are written by the prologue, kept by the body and read by the
epilogues. A run is in the prologue, in the body or in an epilogue (`Phase`), and a step leads from
one phase to the same or to the next.
-/

namespace Mir

namespace FramedFunction

variable {R I : Type} {w : Nat} [DecidableEq R] [FrameSemantics R w I]
  {f f' : FramedFunction R I} {saved : List (R × StackSlotId)} {sym : SymbolId → BitVec w}
  {s₀ s s' : MachineState R I w}

/-- While the body runs, the frame holds the registers of the entry. -/
structure InFrame (f : FramedFunction R I) (saved : List (R × StackSlotId))
    (s₀ s : MachineState R I w) : Prop where
  sp : s.regs.get (spOperand I) =
    s₀.regs.get (spOperand I) + .ofInt w (asI32 (-f.frameLayout.frameSize))
  words : ∀ p ∈ saved, ∀ offset, f.frameLayout.slotOffsets.lookup p.2 = some offset →
    s.mem.read (LoweringTarget.wordSize I) (s.slotAddr offset) = s₀.regs.get (.physical p.1)
  kept : ∀ r, r = raReg I ∨ LoweringTarget.isCalleeSaved I r = true → r ∉ saved.map Prod.fst →
    s.regs.get (.physical r) = s₀.regs.get (.physical r)

/-- A saved register with its word. -/
def SavedWord (f : FramedFunction R I) (p : R × StackSlotId) : Prop :=
  (p.1 = raReg I ∨ LoweringTarget.isCalleeSaved I p.1 = true) ∧
    ∃ slot offset, slot.id = p.2 ∧ slot.size = LoweringTarget.wordSize I ∧ f.Placed slot offset

omit [DecidableEq R] in
/-- The reloads come in the reverse order of the saves, and the stack pointer last. -/
theorem epilogueInsts_eq (f : FramedFunction R I) (saved : List (R × StackSlotId)) :
    f.epilogueInsts saved =
      (saved.reverse.map fun p => emitLoadStackSlot (.physical p.1) p.2) ++
        emitAdjustSp (f.frameLayout.frameSize : Int) := by
  rw [epilogueInsts, List.reverse_cons, List.flatten_append, List.flatten_singleton,
    ← List.map_reverse, ← List.flatMap_def, List.map_eq_flatMap]

/-- The function `f` after register allocation, and `f'` with its frame. -/
structure Framed [Ord R] (f f' : FramedFunction R I) (saved : List (R × StackSlotId)) : Prop where
  allocated : f.Allocated
  laidOut : f'.LaidOut
  saving : f.Saving f' saved
  blocks : f'.blocks = f.blocks
  entry : f'.entry = f.entry
  maxOutgoingArgSize : f'.maxOutgoingArgSize = f.maxOutgoingArgSize
  outgoingArgOffset : f'.frameLayout.outgoingArgOffset = 0
  slots : ∀ slot ∈ f.frameInfo.stackSlots, slot ∈ f'.frameInfo.stackSlots

/-- The layout gives a framed function. -/
theorem exists_framed [Ord R] [LawfulFrameSizes R w I] (hf : f.Allocated) :
    ∃ f' saved, f.computeFrameLayout = some f' ∧ f.Framed f' saved := by
  obtain ⟨f', saved, hrun, hlaid, hsaving, hblocks, hentry, hmax, hout, hslots⟩ :=
    computeFrameLayout_spec hf.unframed
  exact ⟨f', saved, hrun, hf, hlaid, hsaving, hblocks, hentry, hmax, hout, hslots⟩

section Saved

variable [Ord R] (hframed : f.Framed f' saved)

include hframed

/-- What is saved: `ra` where there are calls, and the callee-saved registers that are used. -/
theorem Framed.mem_saved (p : R × StackSlotId) (hp : p ∈ saved) :
    (p.1 = raReg I ∧ f.frameInfo.needSaveRa = true) ∨ p.1 ∈ f.frameInfo.usedCalleeSaved := by
  have hmem : p.1 ∈ saved.map Prod.fst := List.mem_map_of_mem hp
  rw [hframed.saving.regs, List.mem_append] at hmem
  rcases hmem with hmem | hmem
  · obtain ⟨hneed, hra⟩ := List.mem_ite_nil_right.mp hmem
    exact Or.inl ⟨List.mem_singleton.mp hra, hneed⟩
  · exact Or.inr (List.mem_mergeSort.mp hmem)

/-- A register that is not saved is not written. -/
theorem Framed.unsaved {inst : I} (hinst : inst ∈ f.insts) {r : R}
    (hr : r = raReg I ∨ LoweringTarget.isCalleeSaved I r = true) (hnot : r ∉ saved.map Prod.fst) :
    .physical r ∉ defRegs inst := by
  intro hdef
  rw [hframed.saving.regs, List.mem_append, not_or] at hnot
  rcases hr with rfl | hr
  · have hcall := hframed.allocated.keepsRa inst hinst hdef
    have hneed : f.frameInfo.needSaveRa = true := by
      rw [hframed.allocated.needSaveRa]
      exact List.any_eq_true.mpr ⟨inst, hinst, hcall⟩
    rw [if_pos hneed] at hnot
    exact hnot.1 (List.mem_singleton_self _)
  · have hused := hframed.allocated.mem_usedCalleeSaved.mpr ⟨hr, inst, hinst, hdef⟩
    exact hnot.2 (List.mem_mergeSort.mpr hused)

/-- A saved register has a slot of one word. -/
theorem Framed.savedWord (p : R × StackSlotId) (hp : p ∈ saved) : f'.SavedWord p := by
  refine ⟨?_, ?_⟩
  · rcases hframed.mem_saved p hp with ⟨hra, -⟩ | hused
    · exact Or.inl hra
    · exact Or.inr (hframed.allocated.mem_usedCalleeSaved.mp hused).1
  · obtain ⟨-, slot, hslot, hid, hsize⟩ := hframed.saving.slots p hp
    obtain ⟨offset, hplaced⟩ := hframed.laidOut.placed slot hslot
    exact ⟨slot, offset, hid, hsize, hplaced⟩

end Saved

variable [LawfulFrame R w I]

/-- It is none of the special registers. -/
theorem savedReg_ne {r : R}
    (h : r = raReg I ∨ LoweringTarget.isCalleeSaved I r = true) :
    r ≠ zeroReg I ∧ r ≠ spReg I ∧ r ≠ scratchReg I ∧ r ≠ returnReg I := by
  rcases h with rfl | h
  · obtain ⟨hzero, hsp, hscratch⟩ := LawfulFrame.ra_ne (I := I)
    exact ⟨hzero, hsp, hscratch, (LawfulFrame.returnReg_ne (I := I)).2.2.symm⟩
  · obtain ⟨hzero, hsp, hscratch, -, hreturn⟩ := LawfulFrame.not_calleeSaved r h
    exact ⟨hzero, hsp, hscratch, hreturn⟩

variable [LawfulMachine R w I]

/-! ## The prologue -/

/-- Saving registers one after the other fills their words and no other slot. -/
theorem saveAll_spec (hlaid : f.LaidOut) (hfits : f.frameLayout.frameSize ≤ 2 ^ 32)
    {l : List (R × StackSlotId)} (hwords : ∀ p ∈ l, f.SavedWord p) (hnodup : (l.map Prod.snd).Nodup)
    (h : InSequence (Executes sym f.frameLayout)
      (l.map fun p => (emitStoreStackSlot (.physical p.1) p.2 (.physical (scratchReg I)) : I))
      s s') :
    (∀ r ≠ .physical (scratchReg I), s'.regs.get r = s.regs.get r) ∧
      (∀ p ∈ l, ∀ offset, f.frameLayout.slotOffsets.lookup p.2 = some offset →
        s'.mem.read (LoweringTarget.wordSize I) (s.slotAddr offset) =
          s.regs.get (.physical p.1)) ∧
      ∀ slot offset, f.Placed slot offset → slot.id ∉ l.map Prod.snd → ∀ j < slot.size,
        s'.mem (s.slotAddr offset + .ofNat w j) = s.mem (s.slotAddr offset + .ofNat w j) := by
  induction l generalizing s with
  -- nothing to save
  | nil =>
    cases h
    exact ⟨fun _ _ => rfl, fun p hp => absurd hp List.not_mem_nil, fun _ _ _ _ _ _ => rfl⟩
  | cons p l ih =>
    obtain ⟨hreg, slot, offset, hid, hsize, hplaced⟩ := hwords p List.mem_cons_self
    rw [List.map_cons, List.nodup_cons] at hnodup
    obtain ⟨s₁, hsave, hrest⟩ := h.cons_inv
    obtain ⟨-, hspne, hscratch, -⟩ := savedReg_ne hreg
    obtain ⟨hframe₁, o, ho, hmem₁⟩ := executes_save hscratch hsave
    have hoffset : o = offset := by
      have hlookup := hplaced.2
      rw [hid, ho] at hlookup
      exact Option.some.inj hlookup
    subst hoffset
    obtain ⟨hframe, hvalues, hothers⟩ :=
      ih (fun q hq => hwords q (List.mem_cons_of_mem _ hq)) hnodup.2 hrest
    have hsp : s₁.regs.get (spOperand I) = s.regs.get (spOperand I) :=
      hframe₁ _ fun heq => LawfulFrame.scratch_ne_sp (I := I) (Register.physical.inj heq).symm
    have haddr : ∀ o, s₁.slotAddr o = s.slotAddr o := MachineState.slotAddr_congr hsp
    simp only [haddr] at hvalues hothers
    have hwidth : w = 8 * LoweringTarget.wordSize I := LawfulMachine.width
    -- the first register was saved before, and the slots of the others lie apart from it
    refine ⟨fun r hr => (hframe r hr).trans (hframe₁ r hr), fun q hq o ho' => ?_,
      fun slot' offset' hplaced' hnot j hj => ?_⟩
    · rcases List.mem_cons.mp hq with rfl | hq
      · -- the later saves leave this word alone
        rw [ho] at ho'
        cases ho'
        have hkept : s'.mem.read (LoweringTarget.wordSize I) (s.slotAddr offset) =
            s₁.mem.read (LoweringTarget.wordSize I) (s.slotAddr offset) :=
          ByteMemory.read_congr fun j hj =>
            hothers slot offset hplaced (hid ▸ hnodup.1) j (hsize ▸ hj)
        rw [hkept, hmem₁, ByteMemory.read_write hwidth]
      · obtain ⟨hreg', -⟩ := hwords q (List.mem_cons_of_mem _ hq)
        have hne : (.physical q.1 : Register R) ≠ .physical (scratchReg I) :=
          fun heq => (savedReg_ne hreg').2.2.1 (Register.physical.inj heq)
        rw [hvalues q hq o ho', hframe₁ _ hne]
    · rw [List.map_cons, List.mem_cons, not_or] at hnot
      rw [hothers slot' offset' hplaced' hnot.2 j hj, hmem₁]
      have hbounds := (hlaid.bounds slot offset hplaced).2.2
      have hbounds' := (hlaid.bounds slot' offset' hplaced').2.2
      have hdisjoint := hlaid.disjoint slot' offset' slot offset hplaced' hplaced
        fun heq => hnot.1 (heq.trans hid)
      exact ByteMemory.write_of_far _ (MachineState.slotAddr_far s
        (LawfulMachine.width_le (I := I)) (by omega) (by omega) (by omega))

/-- The prologue sets up the frame. -/
theorem prologue_spec (hlaid : f.LaidOut) (hfits : f.frameLayout.frameSize ≤ 2 ^ 32)
    (hwords : ∀ p ∈ saved, f.SavedWord p) (hnodup : (saved.map Prod.snd).Nodup)
    (h : InSequence (Executes sym f.frameLayout) (f.prologueInsts saved) s₀ s) :
    f.InFrame saved s₀ s := by
  obtain ⟨s₁, hadjust, hsaves⟩ := InSequence.append_inv h
  obtain ⟨-, hsp, hframe₁⟩ := emitAdjustSp_spec hadjust
  obtain ⟨hframe, hvalues, -⟩ := saveAll_spec hlaid hfits hwords hnodup hsaves
  have hsp' : s.regs.get (spOperand I) = s₁.regs.get (spOperand I) :=
    hframe _ fun heq => LawfulFrame.scratch_ne_sp (I := I) (Register.physical.inj heq).symm
  have hregs : ∀ r, r = raReg I ∨ LoweringTarget.isCalleeSaved I r = true →
      s₁.regs.get (.physical r) = s₀.regs.get (.physical r) := fun r hr => by
    obtain ⟨-, hne, hscratch, -⟩ := savedReg_ne hr
    exact hframe₁ _ (fun heq => hne (Register.physical.inj heq))
      fun heq => hscratch (Register.physical.inj heq)
  refine ⟨hsp'.trans hsp, fun p hp offset ho => ?_, fun r hr _ => ?_⟩
  · rw [MachineState.slotAddr_congr hsp', hvalues p hp offset ho, hregs p.1 (hwords p hp).1]
  · have hscratch := (savedReg_ne hr).2.2.1
    exact (hframe _ fun heq => hscratch (Register.physical.inj heq)).trans (hregs r hr)

/-! ## The epilogue -/

/-- Reloading registers one after the other gives them the values of their words. -/
theorem loadAll_spec {l : List (R × StackSlotId)}
    (hregs : ∀ p ∈ l, p.1 = raReg I ∨ LoweringTarget.isCalleeSaved I p.1 = true)
    (hsaved : ∀ p ∈ l, ∀ offset, f.frameLayout.slotOffsets.lookup p.2 = some offset →
      s.mem.read (LoweringTarget.wordSize I) (s.slotAddr offset) = s₀.regs.get (.physical p.1))
    (h : InSequence (Executes sym f.frameLayout)
      (l.map fun p => (emitLoadStackSlot (.physical p.1) p.2 : I)) s s') :
    s'.mem = s.mem ∧ (∀ r, (∀ p ∈ l, r ≠ .physical p.1) → s'.regs.get r = s.regs.get r) ∧
      ∀ p ∈ l, s'.regs.get (.physical p.1) = s₀.regs.get (.physical p.1) := by
  induction l generalizing s with
  | nil =>
    cases h
    exact ⟨rfl, fun _ _ => rfl, fun p hp => absurd hp List.not_mem_nil⟩
  | cons p l ih =>
    obtain ⟨s₁, hload, hrest⟩ := h.cons_inv
    obtain ⟨hzero, hspne, -, -⟩ := savedReg_ne (hregs p List.mem_cons_self)
    obtain ⟨hmem₁, hframe₁, o, ho, hvalue⟩ := executes_load ⟨hspne, hzero⟩ hload
    rw [hsaved p List.mem_cons_self o ho] at hvalue
    have hsp : s₁.regs.get (spOperand I) = s.regs.get (spOperand I) :=
      hframe₁ _ fun heq => hspne (Register.physical.inj heq).symm
    obtain ⟨hmem, hframe, hvalues⟩ := ih (fun q hq => hregs q (List.mem_cons_of_mem _ hq))
      (fun q hq o ho => by
        rw [hmem₁, MachineState.slotAddr_congr hsp]
        exact hsaved q (List.mem_cons_of_mem _ hq) o ho) hrest
    refine ⟨hmem.trans hmem₁, fun r hr => ?_, fun q hq => ?_⟩
    · exact (hframe r fun q hq => hr q (List.mem_cons_of_mem _ hq)).trans
        (hframe₁ r (hr p List.mem_cons_self))
    · by_cases hmem' : ∃ q' ∈ l, q'.1 = q.1
      · obtain ⟨q', hq', heq⟩ := hmem'
        exact heq ▸ hvalues q' hq'
      · rcases List.mem_cons.mp hq with rfl | hq
        · have hlater := hframe (.physical q.1) fun q' hq' heq =>
            hmem' ⟨q', hq', (Register.physical.inj heq).symm⟩
          exact hlater.trans hvalue
        · exact absurd ⟨q, hq, rfl⟩ hmem'

/-- The stack pointer, the return address and the callee-saved registers are those of the entry. -/
structure Restored (s₀ s : MachineState R I w) : Prop where
  sp : s.regs.get (spOperand I) = s₀.regs.get (spOperand I)
  ra : s.regs.get (.physical (raReg I)) = s₀.regs.get (.physical (raReg I))
  calleeSaved : ∀ r, LoweringTarget.isCalleeSaved I r = true →
    s.regs.get (.physical r) = s₀.regs.get (.physical r)

/-- The epilogue restores the registers and keeps the result. -/
theorem epilogue_spec (hfits : FrameFits w f.frameLayout.frameSize)
    (hregs : ∀ p ∈ saved, p.1 = raReg I ∨ LoweringTarget.isCalleeSaved I p.1 = true)
    (hframe : f.InFrame saved s₀ s)
    (h : InSequence (Executes sym f.frameLayout) (f.epilogueInsts saved) s s') :
    Restored s₀ s' ∧ s'.mem = s.mem ∧
      s'.regs.get (.physical (returnReg I)) = s.regs.get (.physical (returnReg I)) := by
  rw [epilogueInsts_eq] at h
  obtain ⟨s₁, hloads, hadjust⟩ := InSequence.append_inv h
  obtain ⟨hmem₁, hkept₁, hvalues⟩ := loadAll_spec
    (fun p hp => hregs p (List.mem_reverse.mp hp))
    (fun p hp => hframe.words p (List.mem_reverse.mp hp)) hloads
  obtain ⟨hmem, hsp, hkept⟩ := emitAdjustSp_spec hadjust
  have hother : ∀ r, (∀ p ∈ saved, r ≠ p.1) →
      s₁.regs.get (.physical r) = s.regs.get (.physical r) := fun r hr =>
    hkept₁ _ fun p hp heq => hr p (List.mem_reverse.mp hp) (Register.physical.inj heq)
  have hrestored : ∀ r, r = raReg I ∨ LoweringTarget.isCalleeSaved I r = true →
      s'.regs.get (.physical r) = s₀.regs.get (.physical r) := fun r hr => by
    obtain ⟨-, hspne, hscratch, -⟩ := savedReg_ne hr
    rw [hkept _ (fun heq => hspne (Register.physical.inj heq))
      fun heq => hscratch (Register.physical.inj heq)]
    by_cases hmem' : ∃ p ∈ saved, p.1 = r
    · obtain ⟨p, hp, rfl⟩ := hmem'
      exact hvalues p (List.mem_reverse.mpr hp)
    · rw [hother r fun p hp heq => hmem' ⟨p, hp, heq.symm⟩]
      exact hframe.kept r hr fun hr' => hmem' (List.mem_map.mp hr')
  refine ⟨⟨?_, hrestored _ (Or.inl rfl), fun r hr => hrestored r (Or.inr hr)⟩,
    hmem.trans hmem₁, ?_⟩
  · rw [hsp, hother _ fun p hp heq => (savedReg_ne (hregs p hp)).2.1 heq.symm, hframe.sp, add_assoc,
      hfits.neg_add, add_zero]
  · obtain ⟨hreturn, hscratch, -⟩ := LawfulFrame.returnReg_ne (I := I)
    rw [hkept _ (fun heq => hreturn (Register.physical.inj heq))
      fun heq => hscratch (Register.physical.inj heq)]
    exact hother _ fun p hp heq => (savedReg_ne (hregs p hp)).2.2.2 heq.symm

/-! ## The body -/

section Body

variable [Ord R] (hframed : f.Framed f' saved)

include hframed

/-- Accesses to the frame leave the words of the saved registers alone. -/
theorem Framed.sameSaved (hfits : f'.frameLayout.frameSize ≤ 2 ^ 32) {inst : I}
    (hinst : inst ∈ f.insts) {pseudo : FramePseudo R} (hpseudo : framePseudo inst = some pseudo)
    (hexec : Executes sym f'.frameLayout inst s s') : SameSaved f'.frameLayout saved s s' := by
  intro p hp o ho j hj
  have hwithin := hframed.allocated.within inst hinst pseudo hpseudo
  have hsp : pseudo.dest ≠ spOperand I :=
    ne_of_mem_of_not_mem (LawfulFrame.pseudo_dest hpseudo) (hframed.allocated.keepsSp inst hinst)
  obtain ⟨-, slot, offset, hid, hsize, hplaced⟩ := hframed.savedWord p hp
  obtain ⟨hnew, -⟩ := hframed.saving.slots p hp
  have hbounds := hframed.laidOut.bounds slot offset hplaced
  have hoffset : o = offset := by
    have hlookup := hplaced.2
    rw [hid, ho] at hlookup
    exact Option.some.inj hlookup
  subst hoffset
  have hwidth : 32 ≤ w := LawfulMachine.width_le (I := I)
  -- it is enough that a store lies apart from the word
  have hfar : (pseudo.dest ≠ zeroOperand I ∨ ∀ o', ¬pseudo.StoresAt f'.frameLayout o') →
      (∀ o', pseudo.StoresAt f'.frameLayout o' → ∃ o'' : Nat, s.slotAddr o' = s.slotAddr o'' ∧
        o'' + LoweringTarget.wordSize I ≤ 2 ^ 32 ∧
        (offset + j < o'' ∨ o'' + LoweringTarget.wordSize I ≤ offset + j)) →
      s'.mem (s.slotAddr offset + .ofNat w j) = s.mem (s.slotAddr offset + .ofNat w j) := by
    intro hzero hapart
    rcases hexec.mem_pseudo hpseudo hsp hzero with hmem | ⟨o', x, hstores, hmem⟩
    · rw [hmem]
    · obtain ⟨o'', haddr, hle, hcases⟩ := hapart o' hstores
      rw [hmem, haddr]
      exact ByteMemory.write_of_far _ (s.slotAddr_far hwidth (by omega) hle hcases)
  cases pseudo with
  | loadStack rd slot' => exact hfar (Or.inr fun _ => id) fun _ h => h.elim
  | getStackAddr rd slot' => exact hfar (Or.inr fun _ => id) fun _ h => h.elim
  | loadIncomingArg rd o' => exact hfar (Or.inr fun _ => id) fun _ h => h.elim
  -- a spill slot is older than the slots of the saved registers
  | saveStack rs id rt =>
    obtain ⟨hzero, slot', hslot', rfl, hword⟩ := hwithin
    refine hfar (Or.inl hzero) fun o' hstores => ?_
    obtain ⟨offset', hplaced'⟩ := hframed.laidOut.placed slot' (hframed.slots slot' hslot')
    have ho' : o' = offset' := Option.some.inj (hstores.symm.trans hplaced'.2)
    have hold := hframed.allocated.id_lt hslot'
    have hbounds' := hframed.laidOut.bounds slot' offset' hplaced'
    have hdisjoint := hframed.laidOut.disjoint slot offset slot' offset' hplaced hplaced'
      fun heq => Nat.not_lt.mpr hnew ((heq.symm.trans hid) ▸ hold)
    exact ⟨offset', by rw [ho'], by omega, by omega⟩
  -- the outgoing arguments lie below all slots
  | storeOutgoingArg rs o' rt =>
    obtain ⟨hzero, hnonneg, hle⟩ := hwithin
    refine hfar (Or.inl hzero) fun o'' hstores => ⟨o'.toNat, ?_, ?_⟩
    · have hout : o'' = asI32 o' := by
        have hstores' : o'' = asI32 (asI32 f'.frameLayout.outgoingArgOffset + o') := hstores
        rw [hframed.outgoingArgOffset] at hstores'
        rw [hstores', show asI32 0 = 0 from rfl, zero_add]
      rw [MachineState.slotAddr, hout, asI32_of_bounds (asI32_bounds o'), Int.toNat_of_nonneg hnonneg]
      rfl
    · have hmax := hframed.maxOutgoingArgSize
      omega

omit [LawfulFrame R w I] in
/-- The words of the saved registers lie in the frame and were not given to the code. -/
theorem Framed.sameSaved_of_keeps (hfits : FrameFits w f'.frameLayout.frameSize)
    (hkeeps : f.KeepsFrame f' s s') : SameSaved f'.frameLayout saved s s' := by
  intro p hp o ho j hj
  obtain ⟨-, slot, offset, hid, hsize, hplaced⟩ := hframed.savedWord p hp
  obtain ⟨hnew, -⟩ := hframed.saving.slots p hp
  obtain ⟨-, hargs, hend⟩ := hframed.laidOut.bounds slot offset hplaced
  have hoffset : o = offset := by
    have hlookup := hplaced.2
    rw [hid, ho] at hlookup
    exact Option.some.inj hlookup
  subst hoffset
  have hdist := s.dist_slotAddr (LawfulMachine.width_le (I := I)) hfits
    (o := offset) (j := j) (by omega)
  refine hkeeps _ (by omega) ?_
  rw [hdist]
  rintro (hout | ⟨slot', hslot', offset', hplaced', hle, hlt⟩)
  · omega
  · -- the slots of the code have smaller ids
    have hold := hframed.allocated.id_lt hslot'
    have hdisjoint := hframed.laidOut.disjoint slot offset slot' offset' hplaced hplaced'
      fun heq => Nat.not_lt.mpr hnew ((heq.symm.trans hid) ▸ hold)
    omega

/-- A step of the body stays in the frame. -/
theorem InFrame.step (hfits : FrameFits w f'.frameLayout.frameSize) (hframe : f'.InFrame saved s₀ s)
    {inst : I} (hinst : inst ∈ f.insts) (hexec : Executes sym f'.frameLayout inst s s')
    (hkeeps : framePseudo inst = none → f.KeepsFrame f' s s') :
    f'.InFrame saved s₀ s' := by
  have hnosp := hframed.allocated.keepsSp inst hinst
  have hsp := hexec.frame hnosp hnosp
  have hsaved : SameSaved f'.frameLayout saved s s' := by
    cases hpseudo : framePseudo inst with
    | none => exact hframed.sameSaved_of_keeps hfits (hkeeps hpseudo)
    | some pseudo => exact hframed.sameSaved hfits.le hinst hpseudo hexec
  refine ⟨hsp.trans hframe.sp, fun p hp o ho => ?_, fun r hr hnot => ?_⟩
  · rw [MachineState.slotAddr_congr hsp, ByteMemory.read_congr (hsaved p hp o ho)]
    exact hframe.words p hp o ho
  · rw [hexec.frame hnosp (hframed.unsaved hinst hr hnot)]
    exact hframe.kept r hr hnot

end Body

/-! ## Runs -/

/-- The code that a run executes. -/
def logueCode (f : FramedFunction R I) (saved : List (R × StackSlotId)) : FramedFunction R I :=
  { f with
    blocks := f.blocks.map fun block => { block with instructions := f.withLogue saved block } }

variable (sym) in
/-- Where runs of a function from its entry get to: the instructions that are left of the block, and
the state. `f` is the function as it was before it got its frame: an instruction that is no frame
access keeps what is not given to `f`. -/
inductive Reaches [Ord R] (f g : FramedFunction R I) (s₀ : MachineState R I w) :
    List I → MachineState R I w → Prop
  | entry {block : MachineBlock I} (hblock : block ∈ g.blocks) (hid : block.id = g.entry) :
      Reaches f g s₀ block.instructions s₀
  | next {inst : I} {rest : List I} {s s' : MachineState R I w}
      (hreach : Reaches f g s₀ (inst :: rest) s) (hret : LoweringTarget.isRet inst = false)
      (hexec : Executes sym g.frameLayout inst s s')
      (hkeeps : framePseudo inst = none → f.KeepsFrame g s s') : Reaches f g s₀ rest s'
  | goto {inst : I} {rest : List I} {s : MachineState R I w} {label : BlockId}
      {block : MachineBlock I} (hreach : Reaches f g s₀ (inst :: rest) s)
      (hbranch : MachineSemantics.branch inst s.regs.get = some (some label))
      (hblock : block ∈ g.blocks) (hid : block.id = label) : Reaches f g s₀ block.instructions s

section Phases

variable [Ord R]

variable (sym f f' saved s₀) in
/-- A run is in the prologue, in the body or in an epilogue. -/
inductive Phase : List I → MachineState R I w → Prop
  | prologue {before after l : List I} {s : MachineState R I w}
      (hsplit : before ++ after = f'.prologueInsts saved) (hl : l ⊆ f.insts)
      (hrun : InSequence (Executes sym f'.frameLayout) before s₀ s) :
      Phase (after ++ withEpilogue (f'.epilogueInsts saved) l) s
  | body {l : List I} {s : MachineState R I w} (hl : l ⊆ f.insts)
      (hframe : f'.InFrame saved s₀ s) : Phase (withEpilogue (f'.epilogueInsts saved) l) s
  | epilogue {before after l : List I} {ret : I} {s₁ s : MachineState R I w}
      (hsplit : before ++ after = f'.epilogueInsts saved) (hl : l ⊆ f.insts)
      (hret : LoweringTarget.isRet ret = true)
      (hreach : Reaches sym f (f'.logueCode saved) s₀
        (f'.epilogueInsts saved ++ ret :: withEpilogue (f'.epilogueInsts saved) l) s₁)
      (hframe : f'.InFrame saved s₀ s₁)
      (hrun : InSequence (Executes sym f'.frameLayout) before s₁ s) :
      Phase (after ++ ret :: withEpilogue (f'.epilogueInsts saved) l) s

variable (sym f f' saved s₀) in
/-- What comes next in a phase. -/
inductive Next (inst : I) (rest : List I) (s : MachineState R I w) : Prop
  | prologue {before after l : List I}
      (hsplit : before ++ inst :: after = f'.prologueInsts saved) (hl : l ⊆ f.insts)
      (hrest : rest = after ++ withEpilogue (f'.epilogueInsts saved) l)
      (hrun : InSequence (Executes sym f'.frameLayout) before s₀ s)
  | body {l : List I} (hinst : inst ∈ f.insts) (hret : LoweringTarget.isRet inst = false)
      (hl : l ⊆ f.insts) (hrest : rest = withEpilogue (f'.epilogueInsts saved) l)
      (hframe : f'.InFrame saved s₀ s)
  | epilogue {before after l : List I} {ret : I} {s₁ : MachineState R I w}
      (hsplit : before ++ inst :: after = f'.epilogueInsts saved) (hl : l ⊆ f.insts)
      (hret : LoweringTarget.isRet ret = true)
      (hreach : Reaches sym f (f'.logueCode saved) s₀
        (f'.epilogueInsts saved ++ ret :: withEpilogue (f'.epilogueInsts saved) l) s₁)
      (hframe : f'.InFrame saved s₀ s₁)
      (hrest : rest = after ++ ret :: withEpilogue (f'.epilogueInsts saved) l)
      (hrun : InSequence (Executes sym f'.frameLayout) before s₁ s)
  | ret {s₁ : MachineState R I w} (hret : LoweringTarget.isRet inst = true)
      (hreach : Reaches sym f (f'.logueCode saved) s₀
        (f'.epilogueInsts saved ++ inst :: rest) s₁)
      (hframe : f'.InFrame saved s₀ s₁)
      (hrun : InSequence (Executes sym f'.frameLayout) (f'.epilogueInsts saved) s₁ s)

variable {inst : I} {rest : List I}

omit [LawfulFrame R w I] [LawfulMachine R w I] in
/-- In an epilogue comes its next instruction, or the return. -/
theorem next_epilogue {before after l : List I} {ret : I} {s₁ : MachineState R I w}
    (hsplit : before ++ after = f'.epilogueInsts saved) (hl : l ⊆ f.insts)
    (hret : LoweringTarget.isRet ret = true)
    (hreach : Reaches sym f (f'.logueCode saved) s₀
      (f'.epilogueInsts saved ++ ret :: withEpilogue (f'.epilogueInsts saved) l) s₁)
    (hframe : f'.InFrame saved s₀ s₁)
    (hrun : InSequence (Executes sym f'.frameLayout) before s₁ s)
    (heq : inst :: rest = after ++ ret :: withEpilogue (f'.epilogueInsts saved) l) :
    Next f f' saved sym s₀ inst rest s := by
  cases after with
  | nil =>
    rw [List.nil_append] at heq
    obtain ⟨rfl, rfl⟩ := List.cons.inj heq
    rw [List.append_nil] at hsplit
    exact .ret hret hreach hframe (hsplit ▸ hrun)
  | cons i after =>
    obtain ⟨rfl, rfl⟩ := List.cons.inj heq
    exact .epilogue hsplit hl hret hreach hframe rfl hrun

omit [LawfulFrame R w I] [LawfulMachine R w I] in
/-- In the body comes an instruction of the function, or the epilogue in front of a return. -/
theorem next_body {l : List I} (hl : l ⊆ f.insts) (hframe : f'.InFrame saved s₀ s)
    (hreach : Reaches sym f (f'.logueCode saved) s₀ (inst :: rest) s)
    (heq : inst :: rest = withEpilogue (f'.epilogueInsts saved) l) :
    Next f f' saved sym s₀ inst rest s := by
  cases l with
  | nil => cases heq
  | cons i l =>
    have hl' : l ⊆ f.insts := fun j hj => hl (List.mem_cons_of_mem _ hj)
    rw [withEpilogue, List.flatMap_cons] at heq
    split at heq
    · next hret =>
      rw [List.append_assoc] at heq
      exact next_epilogue (List.nil_append _) hl' hret (heq ▸ hreach) hframe (.nil s) heq
    · next hret =>
      obtain ⟨rfl, rfl⟩ := List.cons.inj heq
      exact .body (hl List.mem_cons_self) (Bool.eq_false_iff.mpr hret) hl' rfl hframe

variable (hframed : f.Framed f' saved) (hfits : FrameFits w f'.frameLayout.frameSize)

include hframed hfits

/-- The phase after an instruction, as far as that is run to its end. -/
theorem Phase.next (h : Phase f f' saved sym s₀ (inst :: rest) s)
    (hreach : Reaches sym f (f'.logueCode saved) s₀ (inst :: rest) s) :
    Next f f' saved sym s₀ inst rest s := by
  generalize heq : inst :: rest = insts at h
  cases h with
  | @prologue before after l _ hsplit hl hrun =>
    cases after with
    | nil =>
      rw [List.append_nil] at hsplit
      have hframe := prologue_spec hframed.laidOut hfits.le hframed.savedWord
        hframed.saving.nodup (hsplit ▸ hrun)
      exact next_body hl hframe hreach heq
    | cons i after =>
      obtain ⟨rfl, rfl⟩ := List.cons.inj heq
      exact .prologue hsplit hl rfl hrun
  | body hl hframe => exact next_body hl hframe hreach heq
  | epilogue hsplit hl hret hreach' hframe hrun =>
    exact next_epilogue hsplit hl hret hreach' hframe hrun heq

/-- Every state that is reached is in a phase. -/
theorem Reaches.phase (h : Reaches sym f (f'.logueCode saved) s₀ rest s) :
    Phase f f' saved sym s₀ rest s := by
  have hinsts : ∀ block ∈ f'.blocks, block.instructions ⊆ f.insts := fun block hblock inst hinst =>
    List.mem_flatMap.mpr ⟨block, hframed.blocks ▸ hblock, hinst⟩
  induction h with
  | entry hblock hid =>
    obtain ⟨block, hmem, rfl⟩ := List.mem_map.mp hblock
    have hentry : block.id = f'.entry := hid
    show Phase f f' saved sym s₀ (f'.withLogue saved block) s₀
    rw [withLogue, if_pos hentry]
    exact .prologue (List.nil_append _) (hinsts block hmem) (.nil _)
  | @next inst rest s s' hreach hret hexec hkeeps ih =>
    cases ih.next hframed hfits hreach with
    | prologue hsplit hl hrest hrun =>
      rw [hrest]
      exact .prologue (by rw [List.append_assoc]; exact hsplit) hl (hrun.append (.single hexec))
    | body hinst _ hl hrest hframe =>
      rw [hrest]
      exact .body hl (hframe.step hframed hfits hinst hexec hkeeps)
    | epilogue hsplit hl hret' hreach' hframe hrest hrun =>
      rw [hrest]
      exact .epilogue (by rw [List.append_assoc]; exact hsplit) hl hret' hreach' hframe
        (hrun.append (.single hexec))
    | ret hret' => rw [hret] at hret'; cases hret'
  -- a branch is in the body; it goes to a block that is not the entry, so no prologue follows
  | @goto inst rest s label block hreach hbranch hblock hid ih =>
    have hlogue : ¬Logue inst := fun hi => hi.straight.2 _ _ hbranch
    cases ih.next hframed hfits hreach with
    | prologue hsplit =>
      have hmem : inst ∈ f'.prologueInsts saved :=
        hsplit ▸ List.mem_append_right _ List.mem_cons_self
      exact absurd (logue_prologue inst hmem) hlogue
    | body hinst _ _ _ hframe =>
      obtain ⟨old, hmem, rfl⟩ := List.mem_map.mp hblock
      have hentry : old.id ≠ f'.entry := by
        rw [hframed.entry, show old.id = label from hid]
        exact hframed.allocated.branches inst hinst _ label hbranch
      show Phase f f' saved sym s₀ (f'.withLogue saved old) s
      rw [withLogue, if_neg hentry]
      exact .body (hinsts old hmem) hframe
    | epilogue hsplit =>
      have hmem : inst ∈ f'.epilogueInsts saved :=
        hsplit ▸ List.mem_append_right _ List.mem_cons_self
      exact absurd (logue_epilogue inst hmem) hlogue
    | ret hret =>
      rw [LawfulFrame.ret_branch hret] at hbranch
      cases hbranch

/-- A return is reached with the registers of the entry, from the state in front of its epilogue. -/
theorem Reaches.restored (h : Reaches sym f (f'.logueCode saved) s₀ (inst :: rest) s)
    (hret : LoweringTarget.isRet inst = true) :
    Restored s₀ s ∧ ∃ s₁, Reaches sym f (f'.logueCode saved) s₀
      (f'.epilogueInsts saved ++ inst :: rest) s₁ ∧ s.mem = s₁.mem ∧
      s.regs.get (.physical (returnReg I)) = s₁.regs.get (.physical (returnReg I)) := by
  have hregs : ∀ p ∈ saved, p.1 = raReg I ∨ LoweringTarget.isCalleeSaved I p.1 = true :=
    fun p hp => (hframed.savedWord p hp).1
  have hlogue : ¬Logue inst := fun hi => by rw [hi.straight.1] at hret; cases hret
  cases (Reaches.phase hframed hfits h).next hframed hfits h with
  | prologue hsplit =>
    exact absurd (logue_prologue inst (hsplit ▸ List.mem_append_right _ List.mem_cons_self)) hlogue
  | body _ hret' => rw [hret] at hret'; cases hret'
  | epilogue hsplit =>
    exact absurd (logue_epilogue inst (hsplit ▸ List.mem_append_right _ List.mem_cons_self)) hlogue
  | @ret s₁ _ hreach hframe hrun =>
    obtain ⟨hrestored, hmem, hvalue⟩ := epilogue_spec hfits hregs hframe hrun
    exact ⟨hrestored, s₁, hreach, hmem, hvalue⟩

end Phases

/-! ## Every function -/

omit [DecidableEq R] [LawfulFrame R w I] [LawfulMachine R w I] in
/-- A frame access expands if its slot has an offset. -/
theorem expandPseudo_some {layout : FrameLayout R} {inst : I}
    (h : ∀ p slot, framePseudo inst = some p → p.slot? = some slot →
      ∃ offset, layout.slotOffsets.lookup slot = some offset) :
    ∃ insts, expandPseudo layout inst = some insts := by
  rw [expandPseudo]
  cases hp : framePseudo inst with
  | none => exact ⟨_, rfl⟩
  | some p =>
    cases p with
    | loadStack rd slot | saveStack rs slot rt | getStackAddr rd slot =>
      obtain ⟨offset, hoffset⟩ := h _ slot hp rfl
      exact ⟨_, Option.bind_eq_some_iff.mpr ⟨offset, hoffset, rfl⟩⟩
    | storeOutgoingArg rs offset rt => exact ⟨_, rfl⟩
    | loadIncomingArg rd offset => exact ⟨_, rfl⟩

omit [DecidableEq R] [LawfulFrame R w I] [LawfulMachine R w I] in
/-- An instruction is one of the prologue, of an epilogue or of the body. -/
theorem mem_withLogue {block : MachineBlock I} {inst : I} (h : inst ∈ f.withLogue saved block) :
    inst ∈ f.prologueInsts saved ∨ inst ∈ f.epilogueInsts saved ∨ inst ∈ block.instructions := by
  rcases List.mem_append.mp h with h | h
  · exact Or.inl (List.mem_ite_nil_right.mp h).2
  · obtain ⟨i, hi, hinst⟩ := List.mem_flatMap.mp h
    split at hinst
    · rcases List.mem_append.mp hinst with hinst | hinst
      · exact Or.inr (Or.inl hinst)
      · exact Or.inr (Or.inr (List.mem_singleton.mp hinst ▸ hi))
    · exact Or.inr (Or.inr (List.mem_singleton.mp hinst ▸ hi))

variable [Ord R]

/-- Every frame access of the code has its slot. -/
theorem Framed.expands (hframed : f.Framed f' saved) {block : MachineBlock I}
    (hblock : block ∈ f'.blocks) {inst : I} (hinst : inst ∈ f'.withLogue saved block) :
    ∃ insts, expandPseudo f'.frameLayout inst = some insts := by
  have hsaved : ∀ p ∈ saved, ∃ offset, f'.frameLayout.slotOffsets.lookup p.2 = some offset :=
    fun p hp => by
      obtain ⟨-, slot, offset, hid, -, hplaced⟩ := hframed.savedWord p hp
      exact ⟨offset, hid ▸ hplaced.2⟩
  have hadjust : ∀ offset, inst ∈ (emitAdjustSp offset : List I) → framePseudo inst = none := by
    intro offset hmem
    obtain ⟨p, halu⟩ := alu_adjustSp inst hmem (fun _ => 0) fun _ => 0
    exact framePseudo_of_alu halu
  refine expandPseudo_some fun p slot hp hslot => ?_
  rcases mem_withLogue hinst with hmem | hmem | hmem
  · rcases List.mem_append.mp hmem with hmem | hmem
    · rw [hadjust _ hmem] at hp
      cases hp
    · obtain ⟨q, hq, rfl⟩ := List.mem_map.mp hmem
      rw [LawfulFrame.pseudo_store] at hp
      cases hp
      cases hslot
      exact hsaved q hq
  · rw [epilogueInsts_eq] at hmem
    rcases List.mem_append.mp hmem with hmem | hmem
    · obtain ⟨q, hq, rfl⟩ := List.mem_map.mp hmem
      rw [LawfulFrame.pseudo_load] at hp
      cases hp
      cases hslot
      exact hsaved q (List.mem_reverse.mp hq)
    · rw [hadjust _ hmem] at hp
      cases hp
  · have hbody : inst ∈ f.insts := List.mem_flatMap.mpr ⟨block, hframed.blocks ▸ hblock, hmem⟩
    -- one of the body: its slot was there before
    have hwithin := hframed.allocated.within inst hbody p hp
    have hof : ∃ s ∈ f.frameInfo.stackSlots, s.id = slot := by
      cases p with
      | loadStack rd slot' | getStackAddr rd slot' =>
        cases hslot
        exact hwithin
      | saveStack rs slot' rt =>
        cases hslot
        obtain ⟨-, s, hs, hid, -⟩ := hwithin
        exact ⟨s, hs, hid⟩
      | storeOutgoingArg rs offset rt => cases hslot
      | loadIncomingArg rd offset => cases hslot
    obtain ⟨s, hs, rfl⟩ := hof
    obtain ⟨offset, hplaced⟩ := hframed.laidOut.placed s (hframed.slots s hs)
    exact ⟨offset, hplaced.2⟩

/-- A function of one block, with one slot. -/
def oneBlock (size : Nat) (insts : List RV64Inst) : FramedFunction RV64Reg RV64Inst where
  toMachineFunction := calleeSavedScan
    { blocks := [⟨0, insts⟩]
      vregCounter := 0
      entry := 0
      frameInfo :=
        { stackSlots := [⟨0, size, 8, .alloca⟩]
          maxAlign := 8
          usedCalleeSaved := []
          needSaveRa := false } }
  maxOutgoingArgSize := 0
  frameLayout := ⟨0, ∅, 0, 0, ∅, none⟩

/-- A function of one block without pseudo instructions. -/
theorem oneBlock_allocated {size : Nat} {insts : List RV64Inst}
    (hbranch : ∀ inst ∈ insts, ∀ (g : Register RV64Reg → BitVec 64) (label : BlockId),
      MachineSemantics.branch inst g ≠ some (some label))
    (hsp : ∀ inst ∈ insts, spOperand RV64Inst ∉ defRegs inst)
    (hra : ∀ inst ∈ insts, .physical .ra ∈ defRegs inst → isCall inst = true)
    (hpseudo : ∀ inst ∈ insts, framePseudo inst = none) : (oneBlock size insts).Allocated := by
  have hinsts : (oneBlock size insts).insts = insts := by
    show insts ++ [] = insts
    rw [List.append_nil]
  refine ⟨⟨rfl, fun slot hslot => ⟨3, ?_⟩, ⟨3, rfl⟩⟩, rfl, rfl, rfl, List.nodup_singleton _,
    List.mem_singleton_self _, ?_, ?_, ?_, ?_⟩
  · rcases List.mem_singleton.mp hslot with rfl
    rfl
  · exact fun inst hinst g label h => absurd h (hbranch inst (hinsts ▸ hinst) g label)
  · exact fun inst hinst => hsp inst (hinsts ▸ hinst)
  · exact fun inst hinst => hra inst (hinsts ▸ hinst)
  · intro inst hinst p hp
    rw [hpseudo inst (hinsts ▸ hinst)] at hp
    cases hp

/-- After a call `s1` is written, so both `ra` and `s1` are saved. -/
def callBlock : FramedFunction RV64Reg RV64Inst :=
  oneBlock 24 [.call 0 0, .mv (.physical .s1) (.physical .a0), .ret]

/-- The frame of a function of one block without calls and callee-saved registers. -/
def leafFramed (size : Nat) : FramedFunction RV64Reg RV64Inst :=
  { oneBlock size [.ret] with
    frameLayout :=
      ⟨BumpLayout.nextMultiple size 16, AList.insert 0 0 ∅, 0, BumpLayout.nextMultiple size 16, ∅,
        none⟩ }

/-- A leaf function saves nothing. -/
theorem computeFrameLayout_leaf (size : Nat) :
    (oneBlock size [.ret]).computeFrameLayout = some (leafFramed size) := by
  have hsorted : (oneBlock size [.ret]).sortedCalleeSaved = [] := List.mergeSort_nil
  have hra : (oneBlock size [.ret]).raSlotOf = (none, oneBlock size [.ret]) := rfl
  have hzero : BumpLayout.nextMultiple 0 8 = 0 := by decide
  have hplace : placeSlot (0, ∅) ⟨0, size, 8, .alloca⟩ = some (size, AList.insert 0 0 ∅) := by
    rw [placeSlot, if_neg (show (8 : Nat) ≠ 0 by decide)]
    dsimp only
    rw [hzero, Nat.zero_add]
    rfl
  rw [computeFrameLayout, hra]
  dsimp only
  rw [hsorted]
  show (List.foldlM placeSlot (BumpLayout.nextMultiple 0 8, ∅) [⟨0, size, 8, .alloca⟩]).bind _ = _
  rw [hzero, List.foldlM_cons, hplace]
  rfl

end FramedFunction

end Mir
