import C0mpiler.Data.OptionFold
import C0mpiler.Mir.FrameExec
import C0mpiler.Mir.Regalloc
import Mathlib

/-!
# Returns restore the registers

A run of a function with its prologue and epilogues, from its entry on. Every return is reached with
the stack pointer, the return address and the callee-saved registers as they were at the entry, and
with the result that was there in front of the epilogue, unless the size of the frame is one that the
cast to 32 bits spoils.

The instructions between prologue and epilogue may do what their registers allow, and write what
memory they like but for the part of the frame that was never given to them (`KeepsFrame`). The
registers are saved there.
-/

namespace Mir

/-- Frames whose size and offsets keep their meaning when they are cut down to 32 bits. With
addresses of 64 bits a frame of `2 ^ 31` bytes is added and subtracted as `-2 ^ 31`, and a larger
one lies on the wrong side of the stack pointer. -/
def FrameFits (w n : Nat) : Prop :=
  n < 2 ^ 31 ∨ w = 32 ∧ n < 2 ^ 32

/-- A frame that fits is below the bound that the layout needs. -/
theorem FrameFits.le {w n : Nat} (h : FrameFits w n) : n ≤ 2 ^ 32 := by
  rcases h with h | ⟨-, h⟩ <;> omega

/-- The prologue and the epilogue move the stack pointer by opposite distances. -/
theorem FrameFits.neg_add {w n : Nat} (h : FrameFits w n) :
    BitVec.ofInt w (asI32 (-n)) + BitVec.ofInt w (asI32 n) = 0 := by
  have hzero : (asI32 (-n) + asI32 n) % ((2 ^ w : Nat) : Int) = 0 := by
    rcases h with h | ⟨rfl, -⟩
    · rw [asI32_of_bounds (by omega), asI32_of_bounds (by omega), neg_add_cancel, Int.zero_emod]
    · have hsum := (asI32_modEq (-n)).add (asI32_modEq n)
      rw [neg_add_cancel] at hsum
      exact hsum
  refine BitVec.eq_of_toInt_eq ?_
  rw [← BitVec.ofInt_add, BitVec.toInt_ofInt, show (0 : BitVec w).toInt = 0 from BitVec.toInt_zero]
  exact Int.bmod_eq_zero_of_dvd (Int.dvd_of_emod_eq_zero hzero)

section Run

variable {R I : Type} {w : Nat} [FrameSemantics R w I]

/-- Slots are addressed from `sp`. -/
theorem MachineState.slotAddr_congr {s s' : MachineState R I w}
    (h : s'.regs.get (spOperand I) = s.regs.get (spOperand I)) (offset : Int) :
    s'.slotAddr offset = s.slotAddr offset := by
  rw [slotAddr, slotAddr, h]

/-- A byte of the frame is far from a word at other offsets. -/
theorem MachineState.slotAddr_far (s : MachineState R I w) (hw : 32 ≤ w) {o o' j n : Nat}
    (ho : o + j < 2 ^ 32) (ho' : o' + n ≤ 2 ^ 32) (h : o + j < o' ∨ o' + n ≤ o + j) :
    n ≤ ByteMemory.dist (s.slotAddr o') (s.slotAddr o + .ofNat w j) := by
  have hadd : s.slotAddr o + .ofNat w j =
      s.regs.get (spOperand I) + .ofInt w (asI32 o + (j : Int)) := by
    rw [slotAddr, BitVec.ofInt_add, BitVec.ofInt_natCast, add_assoc]
  have hx : asI32 o + (j : Int) ≡ (o + j : Nat) [ZMOD 2 ^ 32] := by
    rw [Nat.cast_add]
    exact (asI32_modEq o).add_right _
  rw [hadd]
  exact ByteMemory.dist_of_modEq hw _ hx (asI32_modEq o') ho ho' h

/-- A byte of a slot is where its offset says. -/
theorem MachineState.dist_slotAddr (s : MachineState R I w) (hw : 32 ≤ w) {n o j : Nat}
    (hfits : FrameFits w n) (h : o + j < n) :
    ByteMemory.dist (s.regs.get (spOperand I)) (s.slotAddr o + .ofNat w j) = o + j := by
  have hsub : s.slotAddr o + .ofNat w j - s.regs.get (spOperand I) = .ofInt w (asI32 o + (j : Int)) := by
    rw [slotAddr, BitVec.ofInt_add, BitVec.ofInt_natCast, add_assoc, add_sub_cancel_left]
  rw [ByteMemory.dist, hsub, BitVec.toNat_ofInt]
  rcases hfits with hn | ⟨rfl, hn⟩
  · have hpow : 2 ^ 32 ≤ 2 ^ w := Nat.pow_le_pow_right (by decide) hw
    rw [asI32_of_bounds (by omega), ← Nat.cast_add, ← Int.natCast_mod, Int.toNat_natCast,
      Nat.mod_eq_of_lt (by omega)]
  · have hmod := (asI32_modEq o).add_right (j : Int)
    unfold Int.ModEq at hmod
    omega

end Run

namespace FramedFunction

section Straight

variable {R I : Type} {w : Nat} [FrameSemantics R w I]

/-- The instructions of prologues and epilogues compute, or access the frame. -/
def Logue (inst : I) : Prop :=
  (∃ p, framePseudo inst = some p) ∨
    ∀ (g : Register R → BitVec w) (sym : SymbolId → BitVec w),
      ∃ p, MachineSemantics.alu inst g sym = some p

variable [LawfulMachine R w I]

/-- Only arithmetic is emitted to move `sp`. -/
theorem alu_adjustSp {offset : Int} : ∀ inst ∈ (emitAdjustSp offset : List I),
    ∀ (g : Register R → BitVec w) (sym : SymbolId → BitVec w),
      ∃ p, MachineSemantics.alu inst g sym = some p := by
  intro inst hinst g sym
  rw [emitAdjustSp] at hinst
  split at hinst
  · cases hinst
  split at hinst
  · next hfits =>
    have hfits' : FitsImm12 (asI32 offset) := by
      rwa [asI32_of_bounds (by have := hfits.1; have := hfits.2; omega)]
    rcases List.mem_singleton.mp hinst with rfl
    exact ⟨_, LawfulMachine.alu_addi _ _ hfits' g sym⟩
  · rcases List.mem_pair.mp hinst with rfl | rfl
    · exact ⟨_, LawfulMachine.alu_loadImm _ _ g sym⟩
    · exact ⟨_, LawfulMachine.alu_add _ _ _ g sym⟩

/-- The prologue and the epilogue neither return nor branch. -/
theorem Logue.straight [DecidableEq R] [LawfulFrame R w I] {inst : I} (h : Logue inst) :
    LoweringTarget.isRet inst = false ∧
      ∀ (g : Register R → BitVec w) (label : BlockId),
        MachineSemantics.branch inst g ≠ some (some label) := by
  rcases h with ⟨p, hp⟩ | halu
  · refine ⟨(LawfulFrame.pseudo_alu hp (fun _ => 0) fun _ => 0).2.2, fun g label hbranch => ?_⟩
    rw [(LawfulFrame.pseudo_alu hp g fun _ => 0).2.1] at hbranch
    cases hbranch
  · refine ⟨?_, fun g label hbranch => ?_⟩
    · obtain ⟨p, hp⟩ := halu (fun _ => 0) fun _ => 0
      exact (LawfulFrame.alu_access hp).2.2
    · obtain ⟨p, hp⟩ := halu g fun _ => 0
      rw [LawfulMachine.alu_branch _ hbranch] at hp
      cases hp

end Straight

variable {R I : Type} {w : Nat} [DecidableEq R] [FrameSemantics R w I]

/-! ## What the lowering hands over -/

/-- A frame access stays in its slot, or in the area of the outgoing arguments. -/
def Within (f : FramedFunction R I) : FramePseudo R → Prop
  | .loadStack _ slot | .getStackAddr _ slot => ∃ s ∈ f.frameInfo.stackSlots, s.id = slot
  | .saveStack _ slot rt => rt ≠ zeroOperand I ∧
    ∃ s ∈ f.frameInfo.stackSlots, s.id = slot ∧ LoweringTarget.wordSize I ≤ s.size
  | .storeOutgoingArg _ offset rt => rt ≠ zeroOperand I ∧
    0 ≤ offset ∧ offset + LoweringTarget.wordSize I ≤ f.maxOutgoingArgSize
  | .loadIncomingArg _ _ => True

/-- A function after register allocation: nothing is laid out yet, the registers to be saved are
those that the scan of the instructions found, no instruction writes the stack pointer, and only
calls write the return address. No branch goes back to the entry block. -/
structure Allocated (f : FramedFunction R I) : Prop extends Numbered f where
  scanned : calleeSavedScan f.toMachineFunction = f.toMachineFunction
  raSlot : f.frameLayout.raSlot = none
  calleeSavedSlots : f.frameLayout.calleeSavedSlots = ∅
  blockIds : (f.blocks.map (·.id)).Nodup
  entryBlock : f.entry ∈ f.blocks.map (·.id)
  branches : ∀ inst ∈ f.insts, ∀ (g : Register R → BitVec w) (label : BlockId),
    MachineSemantics.branch inst g = some (some label) → label ≠ f.entry
  keepsSp : ∀ inst ∈ f.insts, spOperand I ∉ defRegs inst
  keepsRa : ∀ inst ∈ f.insts, .physical (raReg I) ∈ defRegs inst → isCall inst = true
  within : ∀ inst ∈ f.insts, ∀ p, framePseudo inst = some p → f.Within p

variable {f f' g : FramedFunction R I} {saved : List (R × StackSlotId)}

/-- The callee-saved registers are the ones that are written. -/
theorem Allocated.usedCalleeSaved (hf : f.Allocated) :
    f.frameInfo.usedCalleeSaved = (f.insts.flatMap fun inst => (defRegs inst).filterMap fun
      | .physical r => if LoweringTarget.isCalleeSaved I r then some r else none
      | .virtual _ => none).dedup :=
  (congrArg (fun m : MachineFunction R I => m.frameInfo.usedCalleeSaved) hf.scanned).symm

/-- The return address is saved where there is a call. -/
theorem Allocated.needSaveRa (hf : f.Allocated) :
    f.frameInfo.needSaveRa = f.insts.any isCall :=
  (congrArg (fun m : MachineFunction R I => m.frameInfo.needSaveRa) hf.scanned).symm

/-- Nothing is laid out yet. -/
theorem Allocated.unframed (hf : f.Allocated) : f.Unframed where
  toNumbered := hf.toNumbered
  nodup := hf.usedCalleeSaved ▸ List.nodup_dedup _
  raSlot := hf.raSlot
  calleeSavedSlots := hf.calleeSavedSlots

/-- A callee-saved register is used exactly if some instruction writes it. -/
theorem Allocated.mem_usedCalleeSaved (hf : f.Allocated) {r : R} :
    r ∈ f.frameInfo.usedCalleeSaved ↔
      LoweringTarget.isCalleeSaved I r = true ∧ ∃ inst ∈ f.insts, .physical r ∈ defRegs inst := by
  rw [hf.usedCalleeSaved, List.mem_dedup, List.mem_flatMap]
  constructor
  · rintro ⟨inst, hinst, hmem⟩
    obtain ⟨reg, hreg, hsome⟩ := List.mem_filterMap.mp hmem
    cases reg with
    | virtual v => cases hsome
    | physical r' =>
      obtain ⟨hsaved, heq⟩ := Option.ite_none_right_eq_some.mp hsome
      cases heq
      exact ⟨hsaved, inst, hinst, hreg⟩
  · rintro ⟨hsaved, inst, hinst, hreg⟩
    exact ⟨inst, hinst, List.mem_filterMap.mpr ⟨_, hreg, if_pos hsaved⟩⟩

/-! ## The code with prologue and epilogues -/

/-- The entry block begins with the prologue. -/
def withLogue (f : FramedFunction R I) (saved : List (R × StackSlotId)) (block : MachineBlock I) :
    List I :=
  (if block.id = f.entry then f.prologueInsts saved else []) ++
    withEpilogue (f.epilogueInsts saved) block.instructions

/-- An edit of one block. -/
theorem modifyBlock_eq {id : BlockId} {edit : List I → List I} {blocks : List (MachineBlock I)}
    (hnodup : (blocks.map (·.id)).Nodup) (hid : id ∈ blocks.map (·.id)) :
    modifyBlock id edit blocks = some (blocks.map fun block =>
      if block.id = id then { block with instructions := edit block.instructions } else block) := by
  induction blocks with
  | nil => cases hid
  | cons block blocks ih =>
    rw [List.map_cons, List.nodup_cons] at hnodup
    rw [modifyBlock, List.map_cons]
    split
    · next heq =>
      have hrest : ∀ b ∈ blocks, b.id ≠ id := fun b hb hbid =>
        hnodup.1 (List.mem_map.mpr ⟨b, hb, hbid.trans heq.symm⟩)
      have hkeep : (blocks.map fun b =>
          if b.id = id then { b with instructions := edit b.instructions } else b) = blocks := by
        conv_rhs => rw [← List.map_id blocks]
        exact List.map_congr_left fun b hb => if_neg (hrest b hb)
      rw [hkeep]
    · next hne =>
      have hid' : id ∈ blocks.map (·.id) := by
        rw [List.map_cons, List.mem_cons] at hid
        exact hid.resolve_left fun heq => hne heq.symm
      rw [ih hnodup.2 hid']
      rfl

variable [LawfulMachine R w I] [LawfulFrame R w I]

/-- The prologue is straight code. -/
theorem logue_prologue : ∀ inst ∈ f.prologueInsts saved, Logue inst := by
  intro inst hinst
  rcases List.mem_append.mp hinst with hinst | hinst
  · exact Or.inr (alu_adjustSp inst hinst)
  · obtain ⟨p, -, rfl⟩ := List.mem_map.mp hinst
    exact Or.inl ⟨_, LawfulFrame.pseudo_store _ _ _⟩

/-- So is the epilogue. -/
theorem logue_epilogue : ∀ inst ∈ f.epilogueInsts saved, Logue inst := by
  intro inst hinst
  obtain ⟨piece, hpiece, hinst⟩ := List.mem_flatten.mp hinst
  rcases List.mem_cons.mp (List.mem_reverse.mp hpiece) with rfl | hpiece
  · exact Or.inr (alu_adjustSp inst hinst)
  · obtain ⟨p, -, rfl⟩ := List.mem_map.mp hpiece
    rcases List.mem_singleton.mp hinst with rfl
    exact Or.inl ⟨_, LawfulFrame.pseudo_load _ _⟩

/-- The prologue has no returns. -/
theorem withEpilogue_append {epilogue insts insts' : List I} (h : ∀ inst ∈ insts, Logue inst) :
    withEpilogue epilogue (insts ++ insts') = insts ++ withEpilogue epilogue insts' := by
  rw [withEpilogue, List.flatMap_append]
  congr 1
  induction insts with
  | nil => rfl
  | cons inst insts ih =>
    rw [List.flatMap_cons, ih fun i hi => h i (List.mem_cons_of_mem _ hi),
      (h inst List.mem_cons_self).straight.1]
    rfl

/-- `insert_logue` returns. -/
theorem insertLogue_eq [Ord R] (hsaves : f.saves = some saved) (hids : (f.blocks.map (·.id)).Nodup)
    (hentry : f.entry ∈ f.blocks.map (·.id)) :
    f.insertLogue = some { f with
      blocks := f.blocks.map fun block => { block with instructions := f.withLogue saved block } } := by
  rw [insertLogue, hsaves, Option.bind_eq_bind, Option.bind_some, modifyBlock_eq hids hentry,
    Option.bind_eq_bind, Option.bind_some, List.map_map]
  congr 3
  refine List.map_congr_left fun block _ => ?_
  rw [Function.comp_apply, withLogue]
  split
  · rw [withEpilogue_append logue_prologue]
  · rfl

end FramedFunction

end Mir
