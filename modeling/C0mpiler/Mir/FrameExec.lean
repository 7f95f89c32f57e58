import C0mpiler.Mir.Logue
import Mathlib

/-!
# What frame accesses do

What the targets have in common (`LawfulFrame`), and what the expansion of a frame access does to
registers and memory, whether or not its offset fits an immediate.
-/

namespace Mir

/-- The register a frame access writes. -/
def FramePseudo.dest {R : Type} : FramePseudo R → Register R
  | .loadStack rd _ | .loadIncomingArg rd _ | .getStackAddr rd _ => rd
  | .saveStack _ _ rt | .storeOutgoingArg _ _ rt => rt

/-- The slot of a frame access. -/
def FramePseudo.slot? {R : Type} : FramePseudo R → Option StackSlotId
  | .loadStack _ slot | .saveStack _ slot _ | .getStackAddr _ slot => some slot
  | .storeOutgoingArg _ _ _ | .loadIncomingArg _ _ => none

/-- What the targets have in common. -/
class LawfulFrame (R : outParam Type) (w : outParam Nat) (I : Type) [DecidableEq R]
    [FrameSemantics R w I] : Prop where
  sp_ne_zero : spReg I ≠ zeroReg I
  scratch_ne_zero : scratchReg I ≠ zeroReg I
  scratch_ne_sp : scratchReg I ≠ spReg I
  ra_ne : raReg I ≠ zeroReg I ∧ raReg I ≠ spReg I ∧ raReg I ≠ scratchReg I
  returnReg_ne : returnReg I ≠ spReg I ∧ returnReg I ≠ scratchReg I ∧ returnReg I ≠ raReg I
  not_calleeSaved : ∀ r, LoweringTarget.isCalleeSaved I r = true → r ≠ zeroReg I ∧ r ≠ spReg I ∧
    r ≠ scratchReg I ∧ r ≠ raReg I ∧ r ≠ returnReg I
  pseudo_load (rd : Register R) (slot : StackSlotId) :
    framePseudo (emitLoadStackSlot rd slot : I) = some (.loadStack rd slot)
  pseudo_store (rs : Register R) (slot : StackSlotId) (rt : Register R) :
    framePseudo (emitStoreStackSlot rs slot rt : I) = some (.saveStack rs slot rt)
  pseudo_dest {inst : I} {p : FramePseudo R} (h : framePseudo inst = some p) :
    p.dest ∈ defRegs inst
  pseudo_alu {inst : I} {p : FramePseudo R} (h : framePseudo inst = some p)
    (g : Register R → BitVec w) (sym : SymbolId → BitVec w) :
    MachineSemantics.alu inst g sym = none ∧ MachineSemantics.branch inst g = none ∧
      LoweringTarget.isRet inst = false
  access_load (rd rs1 : Register R) (imm : Int) :
    wordAccess (emitLoadWord rd rs1 imm : I) = some (.load rd rs1 imm)
  access_store (rs1 rs2 : Register R) (imm : Int) :
    wordAccess (emitStoreWord rs1 rs2 imm : I) = some (.store rs1 rs2 imm)
  access_dest {inst : I} {rd rs1 : Register R} {imm : Int}
    (h : wordAccess inst = some (.load rd rs1 imm)) : rd ∈ defRegs inst
  alu_access {inst : I} {g : Register R → BitVec w} {sym : SymbolId → BitVec w}
    {p : Register R × BitVec w} (h : MachineSemantics.alu inst g sym = some p) :
    wordAccess inst = none ∧ p.1 ∈ defRegs inst ∧ LoweringTarget.isRet inst = false
  ret_branch {inst : I} (h : LoweringTarget.isRet inst = true) (g : Register R → BitVec w) :
    MachineSemantics.branch inst g = none

instance : LawfulFrame RV64Reg 64 RV64Inst where
  sp_ne_zero := by decide
  scratch_ne_zero := by decide
  scratch_ne_sp := by decide
  ra_ne := by decide
  returnReg_ne := by decide
  not_calleeSaved r h := by
    revert h
    cases r <;> decide
  pseudo_load _ _ := rfl
  pseudo_store _ _ _ := rfl
  pseudo_dest {i p} h := by cases i <;> cases h <;> exact List.mem_singleton_self _
  pseudo_alu {i p} h g sym := by cases i <;> cases h <;> exact ⟨rfl, rfl, rfl⟩
  access_load _ _ _ := rfl
  access_store _ _ _ := rfl
  access_dest {i rd rs1 imm} h := by
    cases i <;> cases h
    exact List.mem_singleton_self _
  alu_access {i g sym p} h := by
    cases i with
    | addi | addiw | xori | ori | andi | slli | srli | srai | slliw | srliw | sraiw | slti | sltiu =>
      obtain ⟨-, h⟩ := Option.ite_none_right_eq_some.mp h
      cases h
      exact ⟨rfl, List.mem_singleton_self _, rfl⟩
    | _ => cases h <;> exact ⟨rfl, List.mem_singleton_self _, rfl⟩
  ret_branch {i} h g := by
    cases i with
    | ret => rfl
    | _ => cases h

instance : LawfulFrame RV32Reg 32 RV32Inst where
  sp_ne_zero := by decide
  scratch_ne_zero := by decide
  scratch_ne_sp := by decide
  ra_ne := by decide
  returnReg_ne := by decide
  not_calleeSaved r h := by
    revert h
    cases r <;> decide
  pseudo_load _ _ := rfl
  pseudo_store _ _ _ := rfl
  pseudo_dest {i p} h := by cases i <;> cases h <;> exact List.mem_singleton_self _
  pseudo_alu {i p} h g sym := by cases i <;> cases h <;> exact ⟨rfl, rfl, rfl⟩
  access_load _ _ _ := rfl
  access_store _ _ _ := rfl
  access_dest {i rd rs1 imm} h := by
    cases i <;> cases h
    exact List.mem_singleton_self _
  alu_access {i g sym p} h := by
    cases i with
    | addi | xori | ori | andi | slli | srli | srai | slti | sltiu =>
      obtain ⟨-, h⟩ := Option.ite_none_right_eq_some.mp h
      cases h
      exact ⟨rfl, List.mem_singleton_self _, rfl⟩
    | _ => cases h <;> exact ⟨rfl, List.mem_singleton_self _, rfl⟩
  ret_branch {i} h g := by
    cases i with
    | ret => rfl
    | _ => cases h

section Exec

variable {R I : Type} {w : Nat} [DecidableEq R] [FrameSemantics R w I]
  {sym : SymbolId → BitVec w} {layout : FrameLayout R} {inst : I} {s s' : MachineState R I w}

/-! ## Single instructions -/

/-- A register that is not the zero register holds what is written. -/
theorem RegFile.get_set_self {ρ : Regs R I w} {r : Register R} (hr : r ≠ zeroOperand I)
    (x : BitVec w) : (ρ.set r x).get r = x := by
  rw [RegFile.get_set ρ hr, Function.update_self]

/-- An instruction that is no frame access stands for itself. -/
theorem Executes.plain (hp : framePseudo inst = none) (h : Executes sym layout inst s s') :
    ExecInst sym inst s s' := by
  obtain ⟨insts, hexpand, hrun⟩ := h
  rw [expandPseudo, hp] at hexpand
  cases hexpand
  exact hrun.single_inv

variable [LawfulFrame R w I]

/-- An arithmetic instruction writes its register. -/
theorem ExecInst.alu_inv {rd : Register R} {x : BitVec w}
    (h : MachineSemantics.alu inst s.regs.get sym = some (rd, x)) (hexec : ExecInst sym inst s s') :
    s' = { s with regs := s.regs.set rd x } := by
  have haccess := (LawfulFrame.alu_access h).1
  cases hexec with
  | load hload => rw [haccess] at hload; cases hload
  | store hstore => rw [haccess] at hstore; cases hstore
  | alu halu => rw [h] at halu; cases halu; rfl
  | other _ _ halu => rw [h] at halu; cases halu

/-- A load reads a word. -/
theorem ExecInst.load_inv {rd rs1 : Register R} {imm : Int}
    (h : wordAccess inst = some (.load rd rs1 imm)) (hexec : ExecInst sym inst s s') :
    s' = { s with
      regs := s.regs.set rd
        (s.mem.read (LoweringTarget.wordSize I) (s.regs.get rs1 + .ofInt w imm)) } := by
  cases hexec with
  | load hload => rw [h] at hload; cases hload; rfl
  | store hstore => rw [h] at hstore; cases hstore
  | alu halu => rw [(LawfulFrame.alu_access halu).1] at h; cases h
  | other _ haccess => rw [h] at haccess; cases haccess

/-- A store writes one. -/
theorem ExecInst.store_inv {rs1 rs2 : Register R} {imm : Int}
    (h : wordAccess inst = some (.store rs1 rs2 imm)) (hexec : ExecInst sym inst s s') :
    s' = { s with
      mem := s.mem.write (LoweringTarget.wordSize I) (s.regs.get rs1 + .ofInt w imm)
        (s.regs.get rs2) } := by
  cases hexec with
  | load hload => rw [h] at hload; cases hload
  | store hstore => rw [h] at hstore; cases hstore; rfl
  | alu halu => rw [(LawfulFrame.alu_access halu).1] at h; cases h
  | other _ haccess => rw [h] at haccess; cases haccess

/-- Registers that an instruction does not write keep their contents. -/
theorem ExecInst.frame (hexec : ExecInst sym inst s s') {r : Register R}
    (hr : r ∉ defRegs inst) : s'.regs.get r = s.regs.get r := by
  cases hexec with
  | load hload =>
    have hdef := LawfulFrame.access_dest hload
    exact RegFile.get_set_ne _ (ne_of_mem_of_not_mem hdef hr).symm _
  | store => rfl
  | alu halu =>
    have hdef := (LawfulFrame.alu_access halu).2.1
    exact RegFile.get_set_ne _ (ne_of_mem_of_not_mem hdef hr).symm _
  | other _ _ _ hkept => exact hkept r hr

/-- An arithmetic instruction is no pseudo instruction. -/
theorem framePseudo_of_alu {g : Register R → BitVec w} {p : Register R × BitVec w}
    (h : MachineSemantics.alu inst g sym = some p) : framePseudo inst = none := by
  cases hp : framePseudo inst with
  | none => rfl
  | some q =>
    rw [(LawfulFrame.pseudo_alu hp g sym).1] at h
    cases h

/-- So it is executed as it stands. -/
theorem Executes.alu_inv {rd : Register R} {x : BitVec w}
    (h : MachineSemantics.alu inst s.regs.get sym = some (rd, x))
    (hexec : Executes sym layout inst s s') : s' = { s with regs := s.regs.set rd x } :=
  (hexec.plain (framePseudo_of_alu h)).alu_inv h

/-! ## Frame accesses -/

variable [LawfulMachine R w I]

/-- An address too far for an immediate is computed in a register. -/
theorem far_addr {rd : Register R} {offset : Int} (hsp : rd ≠ spOperand I)
    (h : InSequence (ExecInst sym) ([loadImm rd (asI32 offset), emitAdd rd (spOperand I) rd] : List I)
      s s') :
    s'.mem = s.mem ∧ (∀ r ≠ rd, s'.regs.get r = s.regs.get r) ∧
      (rd ≠ zeroOperand I → s'.regs.get rd = s.slotAddr offset) := by
  obtain ⟨s₁, hli, hadd⟩ := h.cons_inv
  have h₁ := hli.alu_inv (LawfulMachine.alu_loadImm rd (asI32 offset) _ sym)
  have h₂ := hadd.single_inv.alu_inv (LawfulMachine.alu_add rd (spOperand I) rd _ sym)
  subst h₁ h₂
  refine ⟨rfl, fun r hr => ?_, fun hzero => ?_⟩
  · show ((s.regs.set rd _).set rd _).get r = s.regs.get r
    rw [RegFile.get_set_ne _ hr, RegFile.get_set_ne _ hr]
  · show ((s.regs.set rd _).set rd _).get rd = _
    rw [RegFile.get_set_self hzero, RegFile.get_set_ne _ hsp.symm, RegFile.get_set_self hzero]
    rfl

/-- Loading from an offset: large ones are computed in the register itself. -/
theorem loadAt_spec {rd : Register R} {offset : Int} (hsp : rd ≠ spOperand I)
    (h : InSequence (ExecInst sym) (loadAt rd offset : List I) s s') :
    s'.mem = s.mem ∧ (∀ r ≠ rd, s'.regs.get r = s.regs.get r) ∧
      (rd ≠ zeroOperand I →
        s'.regs.get rd = s.mem.read (LoweringTarget.wordSize I) (s.slotAddr offset)) := by
  rw [loadAt] at h
  split at h
  · have h₁ := h.single_inv.load_inv (LawfulFrame.access_load rd _ _)
    subst h₁
    exact ⟨rfl, fun r hr => RegFile.get_set_ne _ hr _, fun hzero => RegFile.get_set_self hzero _⟩
  · obtain ⟨s₁, haddr, hload⟩ := InSequence.append_inv (show InSequence _ ([_, _] ++ [_]) s s' from h)
    obtain ⟨hmem, hframe, hvalue⟩ := far_addr hsp haddr
    have h₁ := hload.single_inv.load_inv (LawfulFrame.access_load rd rd 0)
    subst h₁
    refine ⟨hmem, fun r hr => ?_, fun hzero => ?_⟩
    · exact (RegFile.get_set_ne _ hr _).trans (hframe r hr)
    · rw [RegFile.get_set_self hzero, hvalue hzero, hmem, show BitVec.ofInt w 0 = 0 from rfl, add_zero]

/-- Storing at an offset: large ones need the scratch register. -/
theorem storeAt_spec {rs rt : Register R} {offset : Int} (hsp : rt ≠ spOperand I)
    (h : InSequence (ExecInst sym) (storeAt rs offset rt : List I) s s') :
    (∀ r ≠ rt, s'.regs.get r = s.regs.get r) ∧
      (rt ≠ zeroOperand I → ∃ x, (rs ≠ rt → x = s.regs.get rs) ∧
        s'.mem = s.mem.write (LoweringTarget.wordSize I) (s.slotAddr offset) x) := by
  rw [storeAt] at h
  split at h
  · have h₁ := h.single_inv.store_inv (LawfulFrame.access_store _ rs _)
    subst h₁
    exact ⟨fun _ _ => rfl, fun _ => ⟨_, fun _ => rfl, rfl⟩⟩
  · obtain ⟨s₁, haddr, hstore⟩ := InSequence.append_inv (show InSequence _ ([_, _] ++ [_]) s s' from h)
    obtain ⟨hmem, hframe, hvalue⟩ := far_addr hsp haddr
    have h₁ := hstore.single_inv.store_inv (LawfulFrame.access_store rt rs 0)
    subst h₁
    refine ⟨hframe, fun hzero => ⟨_, fun hne => hframe rs hne, ?_⟩⟩
    show s₁.mem.write _ _ _ = _
    rw [hmem, hvalue hzero, show BitVec.ofInt w 0 = 0 from rfl, add_zero]

/-- The address of an offset. -/
theorem addrAt_spec {rd : Register R} {offset : Int} (hsp : rd ≠ spOperand I)
    (h : InSequence (ExecInst sym) (addrAt rd offset : List I) s s') :
    s'.mem = s.mem ∧ ∀ r ≠ rd, s'.regs.get r = s.regs.get r := by
  rw [addrAt] at h
  split at h
  · next hfits =>
    have hfits' : FitsImm12 (asI32 offset) := by
      rwa [asI32_of_bounds (by have := hfits.1; have := hfits.2; omega)]
    have h₁ := h.single_inv.alu_inv (LawfulMachine.alu_addi rd (spOperand I) hfits' _ sym)
    subst h₁
    exact ⟨rfl, fun r hr => RegFile.get_set_ne _ hr _⟩
  · obtain ⟨hmem, hframe, -⟩ := far_addr hsp h
    exact ⟨hmem, hframe⟩

/-- What an instruction does not write keeps its contents, expanded or not. -/
theorem Executes.frame (h : Executes sym layout inst s s') (hsp : spOperand I ∉ defRegs inst)
    {r : Register R} (hr : r ∉ defRegs inst) : s'.regs.get r = s.regs.get r := by
  cases hp : framePseudo inst with
  | none => exact (h.plain hp).frame hr
  | some p =>
    have hdest := LawfulFrame.pseudo_dest hp
    have hne : r ≠ p.dest := (ne_of_mem_of_not_mem hdest hr).symm
    have hsp' : p.dest ≠ spOperand I := ne_of_mem_of_not_mem hdest hsp
    obtain ⟨insts, hexpand, hrun⟩ := h
    rw [expandPseudo, hp] at hexpand
    cases p with
    | loadStack rd slot =>
      obtain ⟨offset, -, heq⟩ := Option.bind_eq_some_iff.mp hexpand
      cases heq
      exact (loadAt_spec hsp' hrun).2.1 r hne
    | saveStack rs slot rt =>
      obtain ⟨offset, -, heq⟩ := Option.bind_eq_some_iff.mp hexpand
      cases heq
      exact (storeAt_spec hsp' hrun).1 r hne
    | storeOutgoingArg rs offset rt =>
      cases hexpand
      exact (storeAt_spec hsp' hrun).1 r hne
    | loadIncomingArg rd offset =>
      cases hexpand
      exact (loadAt_spec hsp' hrun).2.1 r hne
    | getStackAddr rd slot =>
      obtain ⟨offset, -, heq⟩ := Option.bind_eq_some_iff.mp hexpand
      cases heq
      exact (addrAt_spec hsp' hrun).2 r hne

/-- The word a frame access writes, if it is a store. -/
def FramePseudo.StoresAt (layout : FrameLayout R) (offset : Int) : FramePseudo R → Prop
  | .saveStack _ slot _ => layout.slotOffsets.lookup slot = some offset
  | .storeOutgoingArg _ o _ => offset = asI32 (asI32 layout.outgoingArgOffset + o)
  | _ => False

/-- A frame access writes at most the word it is for. -/
theorem Executes.mem_pseudo {p : FramePseudo R} (hp : framePseudo inst = some p)
    (h : Executes sym layout inst s s') (hsp : p.dest ≠ spOperand I)
    (hzero : p.dest ≠ zeroOperand I ∨ ∀ offset, ¬p.StoresAt layout offset) :
    s'.mem = s.mem ∨ ∃ offset x, p.StoresAt layout offset ∧
      s'.mem = s.mem.write (LoweringTarget.wordSize I) (s.slotAddr offset) x := by
  obtain ⟨insts, hexpand, hrun⟩ := h
  rw [expandPseudo, hp] at hexpand
  cases p with
  | loadStack rd slot =>
    obtain ⟨offset, -, heq⟩ := Option.bind_eq_some_iff.mp hexpand
    cases heq
    exact Or.inl (loadAt_spec hsp hrun).1
  | saveStack rs slot rt =>
    obtain ⟨offset, hoffset, heq⟩ := Option.bind_eq_some_iff.mp hexpand
    cases heq
    have hrt := hzero.resolve_right fun hnone => hnone offset hoffset
    obtain ⟨x, -, hmem⟩ := (storeAt_spec hsp hrun).2 hrt
    exact Or.inr ⟨offset, x, hoffset, hmem⟩
  | storeOutgoingArg rs o rt =>
    cases hexpand
    have hrt := hzero.resolve_right fun hnone => hnone _ rfl
    obtain ⟨x, -, hmem⟩ := (storeAt_spec hsp hrun).2 hrt
    exact Or.inr ⟨_, x, rfl, hmem⟩
  | loadIncomingArg rd offset =>
    cases hexpand
    exact Or.inl (loadAt_spec hsp hrun).1
  | getStackAddr rd slot =>
    obtain ⟨offset, -, heq⟩ := Option.bind_eq_some_iff.mp hexpand
    cases heq
    exact Or.inl (addrAt_spec hsp hrun).1

/-! ## The pieces of prologues and epilogues -/

/-- Moving `sp` moves it by the offset as an `i32`. -/
theorem emitAdjustSp_spec {offset : Int}
    (h : InSequence (Executes sym layout) (emitAdjustSp offset : List I) s s') :
    s'.mem = s.mem ∧
      s'.regs.get (spOperand I) = s.regs.get (spOperand I) + .ofInt w (asI32 offset) ∧
      ∀ r, r ≠ spOperand I → r ≠ .physical (scratchReg I) → s'.regs.get r = s.regs.get r := by
  have hsp : spOperand I ≠ zeroOperand I :=
    fun heq => LawfulFrame.sp_ne_zero (I := I) (Register.physical.inj heq)
  rw [emitAdjustSp] at h
  split at h
  · next hzero =>
    cases h
    refine ⟨rfl, ?_, fun _ _ _ => rfl⟩
    rw [hzero]
    exact (add_zero _).symm
  split at h
  · next hfits =>
    have hfits' : FitsImm12 (asI32 offset) := by
      rwa [asI32_of_bounds (by have := hfits.1; have := hfits.2; omega)]
    have h₁ := h.single_inv.alu_inv (LawfulMachine.alu_addi _ (spOperand I) hfits' _ sym)
    subst h₁
    exact ⟨rfl, RegFile.get_set_self hsp _, fun r hr _ => RegFile.get_set_ne _ hr _⟩
  · obtain ⟨s₁, hli, hadd⟩ := h.cons_inv
    have h₁ := hli.alu_inv (LawfulMachine.alu_loadImm _ (asI32 offset) _ sym)
    have h₂ := hadd.single_inv.alu_inv
      (LawfulMachine.alu_add _ (spOperand I) (.physical (scratchReg I)) _ sym)
    subst h₁ h₂
    have hscratch : (.physical (scratchReg I) : Register R) ≠ zeroOperand I :=
      fun heq => LawfulFrame.scratch_ne_zero (I := I) (Register.physical.inj heq)
    have hne : spOperand I ≠ (.physical (scratchReg I) : Register R) :=
      fun heq => LawfulFrame.scratch_ne_sp (I := I) (Register.physical.inj heq).symm
    refine ⟨rfl, ?_, fun r hr hr' => ?_⟩
    · show ((s.regs.set _ _).set (spOperand I) _).get (spOperand I) = _
      rw [RegFile.get_set_self hsp, RegFile.get_set_ne _ hne, RegFile.get_set_self hscratch]
    · show ((s.regs.set _ _).set (spOperand I) _).get r = _
      rw [RegFile.get_set_ne _ hr, RegFile.get_set_ne _ hr']

/-- The reload of a register that is not the stack pointer. -/
theorem executes_load {r : R} {slot : StackSlotId} (hr : r ≠ spReg I ∧ r ≠ zeroReg I)
    (h : Executes sym layout (emitLoadStackSlot (.physical r) slot : I) s s') :
    s'.mem = s.mem ∧ (∀ r' ≠ .physical r, s'.regs.get r' = s.regs.get r') ∧
      ∃ offset, layout.slotOffsets.lookup slot = some offset ∧
        s'.regs.get (.physical r) =
          s.mem.read (LoweringTarget.wordSize I) (s.slotAddr offset) := by
  obtain ⟨insts, hexpand, hrun⟩ := h
  rw [expandPseudo, LawfulFrame.pseudo_load] at hexpand
  obtain ⟨offset, hoffset, heq⟩ := Option.bind_eq_some_iff.mp hexpand
  cases heq
  obtain ⟨hmem, hframe, hvalue⟩ :=
    loadAt_spec (fun heq => hr.1 (Register.physical.inj heq)) hrun
  exact ⟨hmem, hframe, offset, hoffset, hvalue fun heq => hr.2 (Register.physical.inj heq)⟩

/-- The store of a register that is not the scratch register. -/
theorem executes_save {r : R} {slot : StackSlotId} (hr : r ≠ scratchReg I)
    (h : Executes sym layout
      (emitStoreStackSlot (.physical r) slot (.physical (scratchReg I)) : I) s s') :
    (∀ r' ≠ .physical (scratchReg I), s'.regs.get r' = s.regs.get r') ∧
      ∃ offset, layout.slotOffsets.lookup slot = some offset ∧
        s'.mem = s.mem.write (LoweringTarget.wordSize I) (s.slotAddr offset)
          (s.regs.get (.physical r)) := by
  obtain ⟨insts, hexpand, hrun⟩ := h
  rw [expandPseudo, LawfulFrame.pseudo_store] at hexpand
  obtain ⟨offset, hoffset, heq⟩ := Option.bind_eq_some_iff.mp hexpand
  cases heq
  obtain ⟨hframe, hmem⟩ := storeAt_spec
    (fun heq => LawfulFrame.scratch_ne_sp (I := I) (Register.physical.inj heq)) hrun
  obtain ⟨x, hx, hwrite⟩ :=
    hmem fun heq => LawfulFrame.scratch_ne_zero (I := I) (Register.physical.inj heq)
  rw [hx fun heq => hr (Register.physical.inj heq)] at hwrite
  exact ⟨hframe, offset, hoffset, hwrite⟩

end Exec

end Mir
