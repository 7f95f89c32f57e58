import C0mpiler.Data.BumpLayout
import C0mpiler.Mir.Lower
import C0mpiler.Mir.TargetExec
import Mathlib

/-!
# The stack frame

`compute_frame_layout` (`lower/layout.rs`). The return address and the callee-saved registers that a
function uses get slots behind those of the lowering and of the register allocator, and all slots
are placed behind the area of the outgoing arguments. The offsets count from the stack pointer.

The slots of the frame are aligned, lie between the outgoing arguments and the end of the frame, and
do not overlap (`FramedFunction.LaidOut`).
-/

namespace Mir

/-- `FrameLayout`: the offsets from `sp`, once the slots are placed. -/
structure FrameLayout (R : Type) where
  frameSize : Nat
  slotOffsets : HashMap StackSlotId Int
  outgoingArgOffset : Int
  incomingArgOffset : Int
  calleeSavedSlots : HashMap R StackSlotId
  raSlot : Option StackSlotId

/-- A machine function with the fields that concern its frame. -/
structure FramedFunction (R I : Type) extends MachineFunction R I where
  maxOutgoingArgSize : Nat
  frameLayout : FrameLayout R

/-- What a frame access stands for. -/
inductive FramePseudo (R : Type) where
  | loadStack (rd : Register R) (slot : StackSlotId)
  | saveStack (rs : Register R) (slot : StackSlotId) (rt : Register R)
  | storeOutgoingArg (rs : Register R) (offset : Int) (rt : Register R)
  | loadIncomingArg (rd : Register R) (offset : Int)
  | getStackAddr (rd : Register R) (slot : StackSlotId)

/-- What the frame takes from a target: some registers, the word accesses, and which instructions
access the frame. -/
class FrameTarget (R : outParam Type) (w : outParam Nat) (I : Type) extends
    MachineSemantics R w I where
  spReg : R
  raReg : R
  returnReg : R
  /-- The first of `spill_scratch_regs`. -/
  scratchReg : R
  frameAlign : Nat
  emitLoadWord (rd rs1 : Register R) (imm : Int) : I
  emitStoreWord (rs1 rs2 : Register R) (imm : Int) : I
  framePseudo : I → Option (FramePseudo R)

export FrameTarget (spReg raReg returnReg scratchReg frameAlign emitLoadWord emitStoreWord
  framePseudo)

instance : FrameTarget RV64Reg 64 RV64Inst where
  spReg := .sp
  raReg := .ra
  returnReg := .a0
  scratchReg := .t6
  frameAlign := 16
  emitLoadWord := .ld
  emitStoreWord := .sd
  framePseudo
    | .loadStack rd slot => some (.loadStack rd slot)
    | .saveStack rs slot rt => some (.saveStack rs slot rt)
    | .storeOutgoingArg rs offset rt => some (.storeOutgoingArg rs offset rt)
    | .loadIncomingArg rd offset => some (.loadIncomingArg rd offset)
    | .getStackAddr rd slot => some (.getStackAddr rd slot)
    | _ => none

instance : FrameTarget RV32Reg 32 RV32Inst where
  spReg := .sp
  raReg := .ra
  returnReg := .a0
  scratchReg := .t6
  frameAlign := 16
  emitLoadWord := .lw
  emitStoreWord := .sw
  framePseudo
    | .loadStack rd slot => some (.loadStack rd slot)
    | .saveStack rs slot rt => some (.saveStack rs slot rt)
    | .storeOutgoingArg rs offset rt => some (.storeOutgoingArg rs offset rt)
    | .loadIncomingArg rd offset => some (.loadIncomingArg rd offset)
    | .getStackAddr rd slot => some (.getStackAddr rd slot)
    | _ => none

namespace FramedFunction

section Layout

variable {R I : Type} {w : Nat} [DecidableEq R] [Ord R] [FrameTarget R w I]

/-- `new_stack_slot(WORD_SIZE, WORD_SIZE, kind)`, and the id of the slot. -/
def newWordSlot (f : FramedFunction R I) (kind : StackSlotKind) :
    StackSlotId × FramedFunction R I :=
  let word := LoweringTarget.wordSize I
  (f.frameInfo.stackSlots.length, { f with toMachineFunction := f.newStackSlot word word kind })

/-- The slot for the return address, if it has to be saved. -/
def raSlotOf (f : FramedFunction R I) : Option StackSlotId × FramedFunction R I :=
  if f.frameInfo.needSaveRa then
    match f.frameLayout.raSlot with
    | some slot => (some slot, f)
    | none =>
      let (slot, f) := f.newWordSlot .localTemp
      (some slot, f)
  else (none, f)

/-- The slot for a callee-saved register. -/
def calleeSavedSlot (s : List (R × StackSlotId) × FramedFunction R I) (phy : R) :
    List (R × StackSlotId) × FramedFunction R I :=
  match s.2.frameLayout.calleeSavedSlots.lookup phy with
  | some slot => (s.1 ++ [(phy, slot)], s.2)
  | none =>
    let (slot, f) := s.2.newWordSlot .calleeSaved
    (s.1 ++ [(phy, slot)], f)

/-- `used_callee_saved`, sorted. -/
def sortedCalleeSaved (f : FramedFunction R I) : List R :=
  f.frameInfo.usedCalleeSaved.mergeSort fun a b => (compare a b).isLE

/-- The offset of one more slot; an alignment of zero is a panic. -/
def placeSlot (s : Nat × HashMap StackSlotId Int) (slot : StackSlot) :
    Option (Nat × HashMap StackSlotId Int) :=
  if slot.align = 0 then none
  else
    let offset := BumpLayout.nextMultiple s.1 slot.align
    some (offset + slot.size, s.2.insert slot.id offset)

/-- `compute_frame_layout`. -/
def computeFrameLayout (f : FramedFunction R I) : Option (FramedFunction R I) := do
  let (raSlot, f) := f.raSlotOf
  let (calleeSavedSlots, f) := f.sortedCalleeSaved.foldl calleeSavedSlot ([], f)
  let start := BumpLayout.nextMultiple f.maxOutgoingArgSize (LoweringTarget.wordSize I)
  let (stop, slotOffsets) ← f.frameInfo.stackSlots.foldlM placeSlot (start, ∅)
  let frameSize := BumpLayout.nextMultiple stop (max f.frameInfo.maxAlign (frameAlign I))
  some { f with
    frameLayout :=
      { frameSize, slotOffsets
        outgoingArgOffset := 0
        incomingArgOffset := frameSize
        calleeSavedSlots := HashMap.collect calleeSavedSlots
        raSlot } }

/-- Slots are numbered as they are made, and alignments are powers of two. -/
structure Numbered (f : FramedFunction R I) : Prop where
  ids : f.frameInfo.stackSlots.map (·.id) = List.range f.frameInfo.stackSlots.length
  align : ∀ slot ∈ f.frameInfo.stackSlots, ∃ k, slot.align = 2 ^ k
  maxAlign : ∃ k, f.frameInfo.maxAlign = 2 ^ k

/-- What the lowering and the register allocator hand over: nothing is laid out yet. -/
structure Unframed (f : FramedFunction R I) : Prop extends Numbered f where
  nodup : f.frameInfo.usedCalleeSaved.Nodup
  raSlot : f.frameLayout.raSlot = none
  calleeSavedSlots : f.frameLayout.calleeSavedSlots = ∅

/-- A slot of the function with its offset. -/
def Placed (f : FramedFunction R I) (slot : StackSlot) (offset : Nat) : Prop :=
  slot ∈ f.frameInfo.stackSlots ∧ f.frameLayout.slotOffsets.lookup slot.id = some (offset : Int)

/-- The frame is sound. -/
structure LaidOut (f : FramedFunction R I) : Prop where
  frameSize : 16 ∣ f.frameLayout.frameSize
  placed : ∀ slot ∈ f.frameInfo.stackSlots, ∃ offset, f.Placed slot offset
  bounds : ∀ slot offset, f.Placed slot offset → slot.align ∣ offset ∧
    f.maxOutgoingArgSize ≤ offset ∧ offset + slot.size ≤ f.frameLayout.frameSize
  disjoint : ∀ slot offset slot' offset', f.Placed slot offset → f.Placed slot' offset' →
    slot.id ≠ slot'.id → offset + slot.size ≤ offset' ∨ offset' + slot'.size ≤ offset

end Layout

end FramedFunction

/-- What the targets have in common: words and frames have power-of-two sizes. -/
class LawfulFrameSizes (R : outParam Type) (w : outParam Nat) (I : Type) [FrameTarget R w I] :
    Prop where
  wordSize : ∃ k, LoweringTarget.wordSize I = 2 ^ k
  frameAlign : frameAlign I = 16

instance : LawfulFrameSizes RV64Reg 64 RV64Inst := ⟨⟨3, rfl⟩, rfl⟩

instance : LawfulFrameSizes RV32Reg 32 RV32Inst := ⟨⟨2, rfl⟩, rfl⟩

/-- The larger of two powers of two is one. -/
theorem pow_max {a b : Nat} (ha : ∃ k, a = 2 ^ k) (hb : ∃ k, b = 2 ^ k) : ∃ k, max a b = 2 ^ k := by
  rcases max_choice a b with h | h <;> rw [h]
  · exact ha
  · exact hb

namespace FramedFunction

variable {R I : Type} {w : Nat} [FrameTarget R w I] {f f' f'' : FramedFunction R I}

/-! ## The slots that are added -/

/-- `f'` is `f` with some slots of a word added. -/
structure Grown (f f' : FramedFunction R I) : Prop where
  blocks : f'.blocks = f.blocks
  entry : f'.entry = f.entry
  usedCalleeSaved : f'.frameInfo.usedCalleeSaved = f.frameInfo.usedCalleeSaved
  needSaveRa : f'.frameInfo.needSaveRa = f.frameInfo.needSaveRa
  maxOutgoingArgSize : f'.maxOutgoingArgSize = f.maxOutgoingArgSize
  frameLayout : f'.frameLayout = f.frameLayout
  numbered : f.Numbered → f'.Numbered
  length_le : f.frameInfo.stackSlots.length ≤ f'.frameInfo.stackSlots.length
  slots : ∀ slot ∈ f'.frameInfo.stackSlots, slot ∈ f.frameInfo.stackSlots ∨
    f.frameInfo.stackSlots.length ≤ slot.id ∧ slot.size = LoweringTarget.wordSize I
  kept : ∀ slot ∈ f.frameInfo.stackSlots, slot ∈ f'.frameInfo.stackSlots

theorem Grown.refl (f : FramedFunction R I) : f.Grown f :=
  ⟨rfl, rfl, rfl, rfl, rfl, rfl, id, le_refl _, fun _ h => Or.inl h, fun _ h => h⟩

theorem Grown.trans (h : f.Grown f') (h' : f'.Grown f'') : f.Grown f'' where
  blocks := h'.blocks.trans h.blocks
  entry := h'.entry.trans h.entry
  usedCalleeSaved := h'.usedCalleeSaved.trans h.usedCalleeSaved
  needSaveRa := h'.needSaveRa.trans h.needSaveRa
  maxOutgoingArgSize := h'.maxOutgoingArgSize.trans h.maxOutgoingArgSize
  frameLayout := h'.frameLayout.trans h.frameLayout
  numbered hf := h'.numbered (h.numbered hf)
  length_le := h.length_le.trans h'.length_le
  slots slot hslot := by
    rcases h'.slots slot hslot with hold | ⟨hid, hsize⟩
    · exact h.slots slot hold
    · exact Or.inr ⟨h.length_le.trans hid, hsize⟩
  kept slot hslot := h'.kept slot (h.kept slot hslot)

/-- One slot more. -/
theorem length_newWordSlot (f : FramedFunction R I) (kind : StackSlotKind) :
    (f.newWordSlot kind).2.frameInfo.stackSlots.length = f.frameInfo.stackSlots.length + 1 :=
  List.length_append ..

variable [LawfulFrameSizes R w I]

/-- A slot behind the others. -/
theorem newWordSlot_grown (f : FramedFunction R I) (kind : StackSlotKind) :
    f.Grown (f.newWordSlot kind).2 := by
  have hword := LawfulFrameSizes.wordSize (I := I)
  refine ⟨rfl, rfl, rfl, rfl, rfl, rfl, fun hf => ⟨?_, fun slot hslot => ?_, ?_⟩, ?_,
    fun slot hslot => ?_, fun slot hslot => List.mem_append_left _ hslot⟩
  · show (f.frameInfo.stackSlots ++ _).map _ = List.range (f.frameInfo.stackSlots ++ _).length
    rw [List.map_append, hf.ids, List.length_append, List.length_singleton, List.range_succ]
    rfl
  · rcases List.mem_append.mp hslot with hold | hnew
    · exact hf.align slot hold
    · rcases List.mem_singleton.mp hnew with rfl
      exact hword
  · exact pow_max hf.maxAlign hword
  · show _ ≤ (f.frameInfo.stackSlots ++ _).length
    rw [List.length_append]
    exact Nat.le_add_right _ _
  · rcases List.mem_append.mp hslot with hold | hnew
    · exact Or.inl hold
    · rcases List.mem_singleton.mp hnew with rfl
      exact Or.inr ⟨le_refl _, rfl⟩

variable [DecidableEq R]

/-- Callee-saved registers without slots get the next ones. -/
theorem foldl_calleeSavedSlot (l : List R) (pairs : List (R × StackSlotId))
    (hnone : f.frameLayout.calleeSavedSlots = ∅) :
    (l.foldl calleeSavedSlot (pairs, f)).1 = pairs ++ l.zipIdx f.frameInfo.stackSlots.length ∧
      f.Grown (l.foldl calleeSavedSlot (pairs, f)).2 ∧
      (l.foldl calleeSavedSlot (pairs, f)).2.frameInfo.stackSlots.length =
        f.frameInfo.stackSlots.length + l.length := by
  induction l generalizing pairs f with
  | nil => exact ⟨by rw [List.zipIdx_nil, List.append_nil]; rfl, .refl f, rfl⟩
  | cons r l ih =>
    have hstep : calleeSavedSlot (pairs, f) r =
        (pairs ++ [(r, f.frameInfo.stackSlots.length)], (f.newWordSlot .calleeSaved).2) := by
      rw [calleeSavedSlot, hnone]
      rfl
    have hgrown := f.newWordSlot_grown .calleeSaved
    obtain ⟨hpairs, hrest, hlen⟩ := ih (f := (f.newWordSlot .calleeSaved).2)
      (pairs ++ [(r, f.frameInfo.stackSlots.length)]) (hgrown.frameLayout ▸ hnone)
    rw [List.foldl_cons, hstep]
    refine ⟨?_, hgrown.trans hrest, ?_⟩
    · rw [hpairs, length_newWordSlot, List.zipIdx_cons, List.append_assoc]
      rfl
    · rw [hlen, length_newWordSlot, List.length_cons]
      omega

/-! ## The offsets -/

omit [FrameTarget R w I] [LawfulFrameSizes R w I] [DecidableEq R] in
/-- The loop places the slots one behind the other. -/
theorem foldlM_placeSlot {slots : List StackSlot} (halign : ∀ slot ∈ slots, 0 < slot.align)
    (start : Nat) (offsets : HashMap StackSlotId Int) :
    slots.foldlM placeSlot (start, offsets) =
      some (BumpLayout.stop StackSlot.size StackSlot.align start slots,
        ((BumpLayout.place StackSlot.size StackSlot.align start slots).map fun p =>
          (p.1.id, (p.2 : Int))).foldl (fun m p => m.insert p.1 p.2) offsets) := by
  induction slots generalizing start offsets with
  | nil => rfl
  | cons slot slots ih =>
    have hpos := halign slot List.mem_cons_self
    rw [List.foldlM_cons, placeSlot, if_neg hpos.ne']
    exact ih (fun s hs => halign s (List.mem_cons_of_mem _ hs)) _ _

variable [Ord R]

/-- The slots in a row from `start`, and its end. -/
abbrev slotRow (start : Nat) (slots : List StackSlot) : List (StackSlot × Nat) :=
  BumpLayout.place StackSlot.size StackSlot.align start slots

/-- Where the slots end. -/
abbrev slotEnd (start : Nat) (slots : List StackSlot) : Nat :=
  BumpLayout.stop StackSlot.size StackSlot.align start slots

omit [LawfulFrameSizes R w I] [DecidableEq R] [Ord R] in
/-- With the slots in a row the frame is sound. -/
theorem laidOut_of_row (hnum : f.Numbered) (halign : frameAlign I = 16) {start : Nat}
    (hstart : f.maxOutgoingArgSize ≤ start)
    (hoffsets : f.frameLayout.slotOffsets = HashMap.collect
      ((slotRow start f.frameInfo.stackSlots).map fun p => (p.1.id, (p.2 : Int))))
    (hsize : f.frameLayout.frameSize = BumpLayout.nextMultiple
      (slotEnd start f.frameInfo.stackSlots) (max f.frameInfo.maxAlign (frameAlign I))) :
    f.LaidOut := by
  have hids : (f.frameInfo.stackSlots.map (·.id)).Nodup := hnum.ids ▸ List.nodup_range
  have hpos : ∀ slot ∈ f.frameInfo.stackSlots, 0 < slot.align := fun slot hslot => by
    obtain ⟨k, hk⟩ := hnum.align slot hslot
    exact hk ▸ Nat.two_pow_pos k
  have hfst : (slotRow start f.frameInfo.stackSlots).map Prod.fst = f.frameInfo.stackSlots :=
    BumpLayout.map_fst_place
  have hkeys : (((slotRow start f.frameInfo.stackSlots).map fun p =>
      (p.1.id, (p.2 : Int))).map Prod.fst).Nodup := by
    have hmap : ((slotRow start f.frameInfo.stackSlots).map fun p => (p.1.id, (p.2 : Int))).map
        Prod.fst = ((slotRow start f.frameInfo.stackSlots).map Prod.fst).map (·.id) := by
      rw [List.map_map, List.map_map]
      rfl
    rw [hmap, hfst]
    exact hids
  -- a slot of the map is a slot of the row
  have hrow : ∀ slot offset, f.Placed slot offset →
      (slot, offset) ∈ slotRow start f.frameInfo.stackSlots := by
    rintro slot offset ⟨hslot, hlookup⟩
    rw [hoffsets, HashMap.lookup_collect hkeys] at hlookup
    obtain ⟨⟨slot', offset'⟩, hmem, heq⟩ := List.mem_map.mp hlookup
    obtain ⟨hid, hoff⟩ := Prod.mk.inj heq
    have hslot' : slot' ∈ f.frameInfo.stackSlots := by
      rw [← hfst]
      exact List.mem_map_of_mem hmem
    have hoff' : offset' = offset := Int.ofNat.inj hoff
    rwa [List.inj_on_of_nodup_map hids hslot' hslot hid, hoff'] at hmem
  have hmax : ∃ k, max f.frameInfo.maxAlign (frameAlign I) = 2 ^ k :=
    pow_max hnum.maxAlign (halign ▸ ⟨4, rfl⟩)
  have hend := BumpLayout.le_nextMultiple
    (show 0 < max f.frameInfo.maxAlign (frameAlign I) by rw [halign]; omega)
    (slotEnd start f.frameInfo.stackSlots)
  refine ⟨?_, fun slot hslot => ?_, fun slot offset h => ?_,
    fun slot offset slot' offset' h h' hne => ?_⟩
  · obtain ⟨k, hk⟩ := hmax
    have hk16 : 2 ^ 4 ≤ 2 ^ k := by rw [← hk, halign]; exact le_max_right _ _
    have hdvd : 2 ^ 4 ∣ 2 ^ k := pow_dvd_pow 2 ((Nat.pow_le_pow_iff_right one_lt_two).mp hk16)
    rw [hsize, hk]
    exact hdvd.trans (BumpLayout.dvd_nextMultiple _ _)
  · have hexists : ∃ offset, (slot, offset) ∈ slotRow start f.frameInfo.stackSlots :=
      BumpLayout.exists_place hslot
    obtain ⟨offset, hmem⟩ := hexists
    refine ⟨offset, hslot, ?_⟩
    rw [hoffsets, HashMap.lookup_collect hkeys]
    exact List.mem_map.mpr ⟨_, hmem, rfl⟩
  · obtain ⟨hdvd, hle, hstop⟩ := BumpLayout.place_bounds hpos (hrow slot offset h)
    exact ⟨hdvd, hstart.trans hle, hsize ▸ hstop.trans hend⟩
  · have hpair : (slotRow start f.frameInfo.stackSlots).Pairwise fun p q =>
        p.2 + p.1.size ≤ q.2 ∨ q.2 + q.1.size ≤ p.2 :=
      (BumpLayout.place_pairwise hpos).imp Or.inl
    have hsymm : Std.Symm fun p q : StackSlot × Nat =>
        p.2 + p.1.size ≤ q.2 ∨ q.2 + q.1.size ≤ p.2 := ⟨fun _ _ h => h.symm⟩
    exact hpair.forall (hrow slot offset h) (hrow slot' offset' h')
      fun heq => hne (congrArg StackSlot.id (Prod.mk.inj heq).1)

/-- The registers that are saved, with their slots. -/
def saves (f : FramedFunction R I) : Option (List (R × StackSlotId)) := do
  let calleeSaved ← f.sortedCalleeSaved.mapM fun r =>
    (f.frameLayout.calleeSavedSlots.lookup r).map fun slot => (r, slot)
  some (f.frameLayout.raSlot.toList.map (fun slot => (raReg I, slot)) ++ calleeSaved)

/-- What saving relies on: the registers are the return address, if it has to be saved, and the
callee-saved registers that are used; their slots are different words that came last. -/
structure Saving (f f' : FramedFunction R I) (saved : List (R × StackSlotId)) : Prop where
  saves : f'.saves = some saved
  regs : saved.map Prod.fst =
    (if f.frameInfo.needSaveRa then [raReg I] else []) ++ f.sortedCalleeSaved
  nodup : (saved.map Prod.snd).Nodup
  slots : ∀ p ∈ saved, f.frameInfo.stackSlots.length ≤ p.2 ∧
    ∃ slot ∈ f'.frameInfo.stackSlots, slot.id = p.2 ∧ slot.size = LoweringTarget.wordSize I

omit [FrameTarget R w I] [LawfulFrameSizes R w I] [Ord R] in
/-- Pairs that are looked up one after the other. -/
theorem mapM_zipIdx {m : HashMap R StackSlotId} {l : List R} {n : Nat}
    (h : ∀ p ∈ l.zipIdx n, m.lookup p.1 = some p.2) :
    l.mapM (fun r => (m.lookup r).map fun slot => (r, slot)) = some (l.zipIdx n) := by
  induction l generalizing n with
  | nil => rfl
  | cons r l ih =>
    rw [List.zipIdx_cons, List.forall_mem_cons] at h
    rw [List.mapM_cons, h.1, ih h.2]
    rfl

omit [DecidableEq R] [Ord R] in
/-- A slot for the return address, where the function calls. -/
theorem raSlotOf_spec (hf : f.frameLayout.raSlot = none) :
    f.raSlotOf.1 = (if f.frameInfo.needSaveRa then some f.frameInfo.stackSlots.length else none) ∧
      f.Grown f.raSlotOf.2 ∧
      f.raSlotOf.2.frameInfo.stackSlots.length =
        f.frameInfo.stackSlots.length + (if f.frameInfo.needSaveRa then 1 else 0) := by
  rw [raSlotOf, hf]
  split
  · exact ⟨rfl, f.newWordSlot_grown .localTemp, f.length_newWordSlot .localTemp⟩
  · exact ⟨rfl, .refl f, rfl⟩

omit [DecidableEq R] [Ord R] [LawfulFrameSizes R w I] in
/-- Slots are numbered from zero. -/
theorem Numbered.id_lt (h : f.Numbered) {slot : StackSlot} (hslot : slot ∈ f.frameInfo.stackSlots) :
    slot.id < f.frameInfo.stackSlots.length := by
  have hmem : slot.id ∈ f.frameInfo.stackSlots.map (·.id) := List.mem_map_of_mem hslot
  rwa [h.ids, List.mem_range] at hmem

omit [DecidableEq R] [Ord R] [LawfulFrameSizes R w I] in
/-- An id that is taken is that of an old slot or of a word. -/
theorem Grown.word (h : f.Grown f') (hf : f.Numbered) {id : StackSlotId}
    (hle : f.frameInfo.stackSlots.length ≤ id) (hlt : id < f'.frameInfo.stackSlots.length) :
    ∃ slot ∈ f'.frameInfo.stackSlots, slot.id = id ∧ slot.size = LoweringTarget.wordSize I := by
  have hmem : id ∈ f'.frameInfo.stackSlots.map (·.id) := by
    rw [(h.numbered hf).ids]
    exact List.mem_range.mpr hlt
  obtain ⟨slot, hslot, rfl⟩ := List.mem_map.mp hmem
  rcases h.slots slot hslot with hold | ⟨-, hsize⟩
  · exact absurd (hf.id_lt hold) (Nat.not_lt.mpr hle)
  · exact ⟨slot, hslot, rfl, hsize⟩

/-- `compute_frame_layout` returns, and the frame is sound. -/
theorem computeFrameLayout_spec (hf : f.Unframed) : ∃ f' saved, f.computeFrameLayout = some f' ∧
    f'.LaidOut ∧ f.Saving f' saved ∧ f'.blocks = f.blocks ∧ f'.entry = f.entry ∧
    f'.maxOutgoingArgSize = f.maxOutgoingArgSize ∧
    f'.frameLayout.outgoingArgOffset = 0 ∧
    (∀ slot ∈ f.frameInfo.stackSlots, slot ∈ f'.frameInfo.stackSlots) := by
  obtain ⟨hra, hgrown₁, hlen₁⟩ := raSlotOf_spec hf.raSlot
  have hsorted : f.raSlotOf.2.sortedCalleeSaved = f.sortedCalleeSaved := by
    rw [sortedCalleeSaved, sortedCalleeSaved, hgrown₁.usedCalleeSaved]
  have hnone : f.raSlotOf.2.frameLayout.calleeSavedSlots = ∅ := by
    rw [hgrown₁.frameLayout, hf.calleeSavedSlots]
  obtain ⟨hpairs, hgrown₂, hlen₂⟩ := foldl_calleeSavedSlot f.sortedCalleeSaved [] hnone
  rw [List.nil_append] at hpairs
  generalize hf₂ : f.sortedCalleeSaved.foldl calleeSavedSlot ([], f.raSlotOf.2) = s at *
  obtain ⟨pairs, f₂⟩ := s
  dsimp only at hpairs hgrown₂ hlen₂
  have hgrown := hgrown₁.trans hgrown₂
  have hnum := hgrown.numbered hf.toNumbered
  have hpos : ∀ slot ∈ f₂.frameInfo.stackSlots, 0 < slot.align := fun slot hslot => by
    obtain ⟨k, hk⟩ := hnum.align slot hslot
    exact hk ▸ Nat.two_pow_pos k
  have hword : 0 < LoweringTarget.wordSize I := by
    obtain ⟨k, hk⟩ := LawfulFrameSizes.wordSize (I := I)
    exact hk ▸ Nat.two_pow_pos k
  have hloop := foldlM_placeSlot hpos
    (BumpLayout.nextMultiple f₂.maxOutgoingArgSize (LoweringTarget.wordSize I)) ∅
  -- the loop over the slots cannot fail
  have hrun : ∃ f', f.computeFrameLayout = some f' ∧ f'.toMachineFunction = f₂.toMachineFunction ∧
      f'.maxOutgoingArgSize = f₂.maxOutgoingArgSize ∧ f'.frameLayout =
        { frameSize := BumpLayout.nextMultiple
            (slotEnd (BumpLayout.nextMultiple f₂.maxOutgoingArgSize (LoweringTarget.wordSize I))
              f₂.frameInfo.stackSlots) (max f₂.frameInfo.maxAlign (frameAlign I))
          slotOffsets := HashMap.collect
            ((slotRow (BumpLayout.nextMultiple f₂.maxOutgoingArgSize (LoweringTarget.wordSize I))
              f₂.frameInfo.stackSlots).map fun p => (p.1.id, (p.2 : Int)))
          outgoingArgOffset := 0
          incomingArgOffset := BumpLayout.nextMultiple
            (slotEnd (BumpLayout.nextMultiple f₂.maxOutgoingArgSize (LoweringTarget.wordSize I))
              f₂.frameInfo.stackSlots) (max f₂.frameInfo.maxAlign (frameAlign I))
          calleeSavedSlots := HashMap.collect pairs
          raSlot := f.raSlotOf.1 } := by
    rw [computeFrameLayout]
    dsimp only
    rw [hsorted, hf₂]
    dsimp only
    rw [hloop]
    exact ⟨_, rfl, rfl, rfl, rfl⟩
  obtain ⟨f', hrun, hfun, hmaxOut, hlayout⟩ := hrun
  have hinfo : f'.frameInfo = f₂.frameInfo := congrArg MachineFunction.frameInfo hfun
  have hpairsNodup : (pairs.map Prod.fst).Nodup := by
    rw [hpairs, List.zipIdx_map_fst]
    exact ((List.mergeSort_perm _ _).nodup_iff).mpr hf.nodup
  have hmapM : f'.sortedCalleeSaved.mapM (fun r =>
      (f'.frameLayout.calleeSavedSlots.lookup r).map fun slot => (r, slot)) = some pairs := by
    have hsorted' : f'.sortedCalleeSaved = f.sortedCalleeSaved := by
      rw [sortedCalleeSaved, sortedCalleeSaved, hinfo, hgrown.usedCalleeSaved]
    rw [hsorted', hlayout, hpairs]
    refine mapM_zipIdx fun p hp => ?_
    rw [← hpairs] at hp ⊢
    exact (HashMap.lookup_collect hpairsNodup).mpr hp
  -- the slot of the return address comes first
  have hraSlots : ∀ p ∈ f.raSlotOf.1.toList.map fun slot => (raReg I, slot),
      p.2 = f.frameInfo.stackSlots.length ∧
        f.frameInfo.stackSlots.length < f.raSlotOf.2.frameInfo.stackSlots.length := by
    intro p hp
    rw [hra] at hp
    split at hp
    · next hneed =>
      rcases List.mem_singleton.mp hp with rfl
      refine ⟨rfl, ?_⟩
      rw [hlen₁, if_pos hneed]
      exact Nat.lt_succ_self _
    · cases hp
  refine ⟨f', f.raSlotOf.1.toList.map (fun slot => (raReg I, slot)) ++ pairs, hrun, ?_, ?_,
    (congrArg MachineFunction.blocks hfun).trans hgrown.blocks,
    (congrArg MachineFunction.entry hfun).trans hgrown.entry,
    hmaxOut.trans hgrown.maxOutgoingArgSize, by rw [hlayout], fun slot hslot => ?_⟩
  · have hstart : f'.maxOutgoingArgSize ≤
        BumpLayout.nextMultiple f₂.maxOutgoingArgSize (LoweringTarget.wordSize I) := by
      rw [hmaxOut]
      exact BumpLayout.le_nextMultiple hword _
    refine laidOut_of_row ⟨hinfo ▸ hnum.ids, hinfo ▸ hnum.align, hinfo ▸ hnum.maxAlign⟩
      LawfulFrameSizes.frameAlign hstart ?_ ?_
    · rw [hlayout, hinfo]
    · rw [hlayout, hinfo]
  · refine ⟨?_, ?_, ?_, fun p hp => ?_⟩
    · rw [saves, hmapM, hlayout]
      rfl
    · rw [List.map_append, hpairs, List.zipIdx_map_fst, hra]
      split <;> rfl
    · rw [List.map_append, hpairs, List.zipIdx_map_snd, List.nodup_append]
      refine ⟨?_, List.nodup_range' _, fun a ha b hb heq => ?_⟩
      · rw [hra]
        split <;> simp
      · obtain ⟨p, hp, rfl⟩ := List.mem_map.mp ha
        obtain ⟨hid, hlt⟩ := hraSlots p hp
        have hle := (List.mem_range'_1.mp hb).1
        rw [← heq, hid] at hle
        exact absurd hlt (Nat.not_lt.mpr hle)
    · have hbounds : f.frameInfo.stackSlots.length ≤ p.2 ∧ p.2 < f₂.frameInfo.stackSlots.length := by
        rcases List.mem_append.mp hp with hp | hp
        · obtain ⟨hid, hlt⟩ := hraSlots p hp
          rw [hid]
          exact ⟨le_refl _, hlt.trans_le hgrown₂.length_le⟩
        · rw [hpairs] at hp
          refine ⟨hgrown₁.length_le.trans (List.le_snd_of_mem_zipIdx hp), ?_⟩
          rw [hlen₂]
          exact List.snd_lt_add_of_mem_zipIdx hp
      refine ⟨hbounds.1, ?_⟩
      rw [hinfo]
      exact hgrown.word hf.toNumbered hbounds.1 hbounds.2
  · rw [hinfo]
    exact hgrown.kept slot hslot

end FramedFunction

end Mir
