import C0mpiler.Mir.BranchRelax
import C0mpiler.Mir.LowerGep
import C0mpiler.Mir.Logue
import C0mpiler.Opt.ScalarMemcpy
import Mathlib

/-!
# Copies expanded in the lowering

`try_emit_inline_memcpy` (`lower.rs`): a copy of four bytes is one load and one store of a word, any
other copy of at most 32 bytes is one load and one store for each byte.
-/

namespace Mir

open Ir (ModuleCore ValueId Access startsWith)

/-- The accesses to memory that the lowering emits. Other sizes are refused. -/
class MemTarget (R : outParam Type) (I : Type) [EmitTarget R I] where
  emitLoadMem (rd rs1 : Register R) (imm : Int) (size : Nat) (unsigned : Bool) : Option I
  emitStoreMem (rs1 rs2 : Register R) (imm : Int) (size : Nat) : Option I

export MemTarget (emitLoadMem emitStoreMem)

instance : MemTarget RV64Reg RV64Inst where
  emitLoadMem rd rs1 imm size unsigned :=
    match size, unsigned with
    | 1, false => some (.lb rd rs1 imm)
    | 1, true => some (.lbu rd rs1 imm)
    | 2, false => some (.lh rd rs1 imm)
    | 2, true => some (.lhu rd rs1 imm)
    | 4, false => some (.lw rd rs1 imm)
    | 4, true => some (.lwu rd rs1 imm)
    | 8, _ => some (.ld rd rs1 imm)
    | _, _ => none
  emitStoreMem rs1 rs2 imm size :=
    match size with
    | 1 => some (.sb rs1 rs2 imm)
    | 2 => some (.sh rs1 rs2 imm)
    | 4 => some (.sw rs1 rs2 imm)
    | 8 => some (.sd rs1 rs2 imm)
    | _ => none

instance : MemTarget RV32Reg RV32Inst where
  emitLoadMem rd rs1 imm size unsigned :=
    match size, unsigned with
    | 1, false => some (.lb rd rs1 imm)
    | 1, true => some (.lbu rd rs1 imm)
    | 2, false => some (.lh rd rs1 imm)
    | 2, true => some (.lhu rd rs1 imm)
    | 4, _ => some (.lw rd rs1 imm)
    | _, _ => none
  emitStoreMem rs1 rs2 imm size :=
    match size with
    | 1 => some (.sb rs1 rs2 imm)
    | 2 => some (.sh rs1 rs2 imm)
    | 4 => some (.sw rs1 rs2 imm)
    | _ => none

section Model

variable {R I : Type} [DecidableEq R] [EmitTarget R I] [MemTarget R I] (m : ModuleCore)
  (symbols : HashMap String SymbolId) (S : FunctionLoweringState)

/-- The loop over the bytes. -/
def emitByteCopies (dest src : Register R) : List Nat → Emitter I → Option (Emitter I)
  | [], e => some e
  | offset :: offsets, e => do
    let byte := .virtual e.vregCounter
    let load ← emitLoadMem byte src offset 1 true
    let store ← emitStoreMem dest byte offset 1
    emitByteCopies dest src offsets ((e.newVreg.push load).push store)

/-- `try_emit_inline_memcpy`. -/
def tryEmitInlineMemcpy (rawCalleeName : String) (args : List ValueId) (e : Emitter I) :
    Option (Bool × Emitter I) :=
  if !startsWith rawCalleeName "llvm.memcpy." then some (false, e)
  else
    match args with
    | dest :: src :: size :: isVolatile :: _ => do
      match ← m.constIntU64 size with
      | none => some (false, e)
      | some size =>
        if 32 < size then some (false, e)
        else
          match ← m.constIntU64 isVolatile with
          | some 0 =>
            let (destReg, e) ← lowerOperand m symbols S dest e
            let (srcReg, e) ← lowerOperand m symbols S src e
            if size = 4 then
              let word := .virtual e.vregCounter
              let load ← emitLoadMem word srcReg 0 4 true
              let store ← emitStoreMem destReg word 0 4
              some (true, (e.newVreg.push load).push store)
            else (emitByteCopies destReg srcReg (List.range size) e).map (true, ·)
          | _ => some (false, e)
    | _ => some (false, e)

end Model

/-! ## What the accesses do -/

/-- An access to some bytes of the memory. -/
inductive MemAccess (R : Type) where
  | load (rd rs1 : Register R) (imm : Int) (size : Nat) (unsigned : Bool)
  | store (rs1 rs2 : Register R) (imm : Int) (size : Nat)

/-- The instructions that access the memory. -/
class MemSemantics (R : outParam Type) (w : outParam Nat) (I : Type) [MachineSemantics R w I] where
  memAccess : I → Option (MemAccess R)

export MemSemantics (memAccess)

/-- A load that fills the register extends nothing. -/
instance : MemSemantics RV64Reg 64 RV64Inst where
  memAccess
    | .lb rd rs1 imm => some (.load rd rs1 imm 1 false)
    | .lbu rd rs1 imm => some (.load rd rs1 imm 1 true)
    | .lh rd rs1 imm => some (.load rd rs1 imm 2 false)
    | .lhu rd rs1 imm => some (.load rd rs1 imm 2 true)
    | .lw rd rs1 imm => some (.load rd rs1 imm 4 false)
    | .lwu rd rs1 imm => some (.load rd rs1 imm 4 true)
    | .ld rd rs1 imm => some (.load rd rs1 imm 8 true)
    | .sb rs1 rs2 imm => some (.store rs1 rs2 imm 1)
    | .sh rs1 rs2 imm => some (.store rs1 rs2 imm 2)
    | .sw rs1 rs2 imm => some (.store rs1 rs2 imm 4)
    | .sd rs1 rs2 imm => some (.store rs1 rs2 imm 8)
    | _ => none

instance : MemSemantics RV32Reg 32 RV32Inst where
  memAccess
    | .lb rd rs1 imm => some (.load rd rs1 imm 1 false)
    | .lbu rd rs1 imm => some (.load rd rs1 imm 1 true)
    | .lh rd rs1 imm => some (.load rd rs1 imm 2 false)
    | .lhu rd rs1 imm => some (.load rd rs1 imm 2 true)
    | .lw rd rs1 imm => some (.load rd rs1 imm 4 true)
    | .sb rs1 rs2 imm => some (.store rs1 rs2 imm 1)
    | .sh rs1 rs2 imm => some (.store rs1 rs2 imm 2)
    | .sw rs1 rs2 imm => some (.store rs1 rs2 imm 4)
    | _ => none

/-- The accesses of one byte and of a word are emitted, and an access computes nothing. -/
class LawfulMem (R : outParam Type) (w : outParam Nat) (I : Type) [MachineSemantics R w I]
    [MemTarget R I] [MemSemantics R w I] : Prop where
  load_mem {size : Nat} (hsize : size = 1 ∨ size = 4) (rd rs1 : Register R) (imm : Int) :
    ∃ i : I, emitLoadMem rd rs1 imm size true = some i ∧
      memAccess i = some (.load rd rs1 imm size true)
  store_mem {size : Nat} (hsize : size = 1 ∨ size = 4) (rs1 rs2 : Register R) (imm : Int) :
    ∃ i : I, emitStoreMem rs1 rs2 imm size = some i ∧
      memAccess i = some (.store rs1 rs2 imm size)
  access_alu {i : I} {p : MemAccess R} (h : memAccess i = some p) (g : Register R → BitVec w)
    (sym : SymbolId → BitVec w) :
    MachineSemantics.alu i g sym = none ∧ MachineSemantics.branch i g = none

instance : LawfulMem RV64Reg 64 RV64Inst where
  load_mem h rd rs1 imm := by
    rcases h with rfl | rfl
    · exact ⟨_, rfl, rfl⟩
    · exact ⟨_, rfl, rfl⟩
  store_mem h rs1 rs2 imm := by
    rcases h with rfl | rfl
    · exact ⟨_, rfl, rfl⟩
    · exact ⟨_, rfl, rfl⟩
  access_alu {i p} h g sym := by cases i <;> cases h <;> exact ⟨rfl, rfl⟩

instance : LawfulMem RV32Reg 32 RV32Inst where
  load_mem h rd rs1 imm := by
    rcases h with rfl | rfl
    · exact ⟨_, rfl, rfl⟩
    · exact ⟨_, rfl, rfl⟩
  store_mem h rs1 rs2 imm := by
    rcases h with rfl | rfl
    · exact ⟨_, rfl, rfl⟩
    · exact ⟨_, rfl, rfl⟩
  access_alu {i p} h g sym := by cases i <;> cases h <;> exact ⟨rfl, rfl⟩

section Run

variable {R I : Type} {w : Nat} [DecidableEq R] [MachineSemantics R w I] [MemSemantics R w I]
  (sym : SymbolId → BitVec w)

/-- One instruction, and its access to the memory if it is one. -/
def memStep (i : I) (s : MachineState R I w) : Option (MachineState R I w × List (Access w)) :=
  match memAccess i with
  | some (.load rd rs1 imm size unsigned) =>
    let addr := s.regs.get rs1 + .ofInt w imm
    let x := s.mem.read size addr
    let x := if unsigned then x else (x.setWidth (8 * size)).signExtend w
    some ({ s with regs := s.regs.set rd x }, [⟨addr, size⟩])
  | some (.store rs1 rs2 imm size) =>
    let addr := s.regs.get rs1 + .ofInt w imm
    some ({ s with mem := s.mem.write size addr (s.regs.get rs2) }, [⟨addr, size⟩])
  | none =>
    match stepInst sym i s.regs with
    | some (ρ, none) => some ({ s with regs := ρ }, [])
    | _ => none

/-- A run, with the accesses that it makes. -/
def memRun : List I → MachineState R I w → Option (MachineState R I w × List (Access w))
  | [], s => some (s, [])
  | i :: is, s => do
    let (s, accesses) ← memStep sym i s
    let (s, accesses') ← memRun is s
    some (s, accesses ++ accesses')

variable {sym} {s s₁ s' : MachineState R I w} {accesses accesses' : List (Access w)}

/-- Two stretches of code. -/
theorem memRun_append {code code' : List I} (h : memRun sym code s = some (s₁, accesses))
    (h' : memRun sym code' s₁ = some (s', accesses')) :
    memRun sym (code ++ code') s = some (s', accesses ++ accesses') := by
  induction code generalizing s accesses with
  | nil =>
    cases h
    exact h'
  | cons i code ih =>
    obtain ⟨⟨s₂, first⟩, hstep, h⟩ := Option.bind_eq_some_iff.mp h
    obtain ⟨⟨s₃, rest⟩, hrest, h⟩ := Option.bind_eq_some_iff.mp h
    cases h
    simp only [List.cons_append, memRun, hstep, ih hrest, Option.bind_eq_bind, Option.bind_some,
      List.append_assoc]

variable [MemTarget R I] [LawfulMem R w I]

/-- Code that accesses no memory. -/
theorem memRun_of_runInsts {code : List I} {ρ ρ' : Regs R I w} (mem : ByteMemory w)
    (h : runInsts sym code ρ = some (ρ', none)) : memRun sym code ⟨ρ, mem⟩ = some (⟨ρ', mem⟩, []) := by
  induction code generalizing ρ with
  | nil =>
    cases h
    rfl
  | cons i code ih =>
    obtain ⟨⟨ρ₁, target⟩, hstep, h⟩ := Option.bind_eq_some_iff.mp h
    cases target with
    | some label => cases h
    | none =>
      have hplain : memAccess i = none := by
        refine Option.eq_none_iff_forall_not_mem.mpr fun p hp => ?_
        obtain ⟨halu, hbranch⟩ := LawfulMem.access_alu hp ρ.get sym
        rw [stepInst, halu, hbranch] at hstep
        cases hstep
      simp only [memRun, memStep, hplain, hstep, ih h, Option.bind_eq_bind, Option.bind_some,
        List.append_nil]

/-- The code emitted between `e` and `e'` takes the state from `s` to `s'` with these accesses; older
registers keep their contents. -/
structure MemEmits (sym : SymbolId → BitVec w) (e e' : Emitter I) (s s' : MachineState R I w)
    (accesses : List (Access w)) : Prop where
  counter_le : e.vregCounter ≤ e'.vregCounter
  run : ∃ code, e'.out = e.out ++ code ∧ memRun sym code s = some (s', accesses)
  old : ∀ r, OldReg e.vregCounter r → s'.regs.get r = s.regs.get r

omit [MemTarget R I] [LawfulMem R w I] in
theorem MemEmits.trans {e e₁ e' : Emitter I} (h : MemEmits sym e e₁ s s₁ accesses)
    (h' : MemEmits sym e₁ e' s₁ s' accesses') : MemEmits sym e e' s s' (accesses ++ accesses') where
  counter_le := h.counter_le.trans h'.counter_le
  run := by
    obtain ⟨code, hout, hrun⟩ := h.run
    obtain ⟨code', hout', hrun'⟩ := h'.run
    exact ⟨code ++ code', by rw [hout', hout, List.append_assoc], memRun_append hrun hrun'⟩
  old r hr := (h'.old r (hr.mono h.counter_le)).trans (h.old r hr)

/-- Arithmetic touches no memory. -/
theorem Emits.memEmits {e e' : Emitter I} {ρ ρ' : Regs R I w} (h : Emits sym [] e e' ρ ρ')
    (mem : ByteMemory w) : MemEmits sym e e' ⟨ρ, mem⟩ ⟨ρ', mem⟩ [] where
  counter_le := h.counter_le
  run := by
    obtain ⟨code, hout, hrun⟩ := h.run
    exact ⟨code, hout, memRun_of_runInsts mem hrun⟩
  old r hr := h.get_oldReg hr

variable (sym s)

omit [LawfulMem R w I] [MemTarget R I] in
/-- A load into a new register and a store of it. -/
theorem memEmits_copy (offset : Nat) {e : Emitter I} {dest src : Register R} {load store : I}
    {size : Nat}
    (hdest : OldReg e.vregCounter dest)
    (hload : memAccess load = some (.load (.virtual e.vregCounter) src offset size true))
    (hstore : memAccess store = some (.store dest (.virtual e.vregCounter) offset size)) :
    ∃ ρ', MemEmits sym e ((e.newVreg.push load).push store) s
      ⟨ρ', s.mem.write size (s.regs.get dest + .ofNat w offset)
        (s.mem.read size (s.regs.get src + .ofNat w offset))⟩
      [⟨s.regs.get src + .ofNat w offset, size⟩, ⟨s.regs.get dest + .ofNat w offset, size⟩] := by
  refine ⟨s.regs.set (.virtual e.vregCounter) (s.mem.read size (s.regs.get src + .ofNat w offset)),
    Nat.le_succ _, ⟨[load, store], ?_, ?_⟩, fun r hr => ?_⟩
  · show (e.out ++ [load]) ++ [store] = _
    rw [List.append_assoc]
    rfl
  · have hne : dest ≠ .virtual e.vregCounter := hdest _ le_rfl
    simp only [memRun, memStep, hload, hstore, Option.bind_eq_bind, Option.bind_some, if_true,
      BitVec.ofInt_natCast, RegFile.get_set_virtual, RegFile.get_set_ne _ hne, List.append_nil,
      List.singleton_append]
  · exact RegFile.get_set_ne _ (hr _ le_rfl) _

/-- The accesses of a copy of `n` bytes that is expanded. -/
def inlineAccesses (n : Nat) (dest src : BitVec w) : List (Access w) :=
  if n = 4 then [⟨src, 4⟩, ⟨dest, 4⟩]
  else (List.range n).flatMap fun j => [⟨src + .ofNat w j, 1⟩, ⟨dest + .ofNat w j, 1⟩]

/-- The memory behind it. -/
def inlineCopy (n : Nat) (mem : ByteMemory w) (dest src : BitVec w) : ByteMemory w :=
  if n = 4 then mem.copy 4 dest src else mem.copyBytes n dest src

/-- The bytes, one by one. -/
theorem emitByteCopies_emits (offsets : List Nat) {dest src : Register R} {e : Emitter I}
    (hdest : OldReg e.vregCounter dest) (hsrc : OldReg e.vregCounter src) :
    ∃ e' ρ', emitByteCopies dest src offsets e = some e' ∧
      MemEmits sym e e' s
        ⟨ρ', offsets.foldl (fun mem j => mem.write 1 (s.regs.get dest + .ofNat w j)
          (mem.read 1 (s.regs.get src + .ofNat w j))) s.mem⟩
        (offsets.flatMap fun j =>
          [⟨s.regs.get src + .ofNat w j, 1⟩, ⟨s.regs.get dest + .ofNat w j, 1⟩]) := by
  induction offsets generalizing e s with
  | nil => exact ⟨e, s.regs, rfl, le_rfl, ⟨[], (List.append_nil _).symm, rfl⟩, fun _ _ => rfl⟩
  | cons offset offsets ih =>
    obtain ⟨load, hload, haccess⟩ := LawfulMem.load_mem (I := I) (Or.inl rfl) (.virtual e.vregCounter)
      src offset
    obtain ⟨store, hstore, haccess'⟩ := LawfulMem.store_mem (I := I) (Or.inl rfl) dest
      (.virtual e.vregCounter) offset
    obtain ⟨ρ₁, hcopy⟩ := memEmits_copy sym s offset hdest haccess haccess'
    have hdest₁ := hcopy.old dest hdest
    have hsrc₁ := hcopy.old src hsrc
    obtain ⟨e', ρ', hrun, hemits⟩ := ih _ (hdest.mono hcopy.counter_le) (hsrc.mono hcopy.counter_le)
    refine ⟨e', ρ', ?_, ?_⟩
    · simp only [emitByteCopies, hload, hstore, hrun, Option.bind_eq_bind, Option.bind_some]
    · have hall := hcopy.trans hemits
      rw [hdest₁, hsrc₁] at hall
      exact hall

variable [LawfulMachine R w I] {m : ModuleCore} {symbols : HashMap String SymbolId}
  {S : FunctionLoweringState}

/-- What an expanded copy does. -/
theorem tryEmitInlineMemcpy_emits {name : String} {dest src size isVolatile : ValueId}
    {args : List ValueId} {e e' : Emitter I} {ρ : Regs R I w} (hS : S.Below e.vregCounter)
    {a b : BitVec w} (ha : operandValue m symbols S sym ρ dest = some a)
    (hb : operandValue m symbols S sym ρ src = some b)
    (hrun : tryEmitInlineMemcpy m symbols S name (dest :: src :: size :: isVolatile :: args) e =
      some (true, e')) :
    ∃ n, m.constIntU64 size = some (some n) ∧ n ≤ 32 ∧ ∀ mem, ∃ ρ',
      MemEmits sym e e' ⟨ρ, mem⟩ ⟨ρ', inlineCopy n mem a b⟩ (inlineAccesses n a b) := by
  unfold tryEmitInlineMemcpy at hrun
  split at hrun
  · cases hrun
  · obtain ⟨count, hcount, hrun⟩ := Option.bind_eq_some_iff.mp hrun
    split at hrun
    · cases hrun
    · next n =>
      split at hrun
      · cases hrun
      · next hle =>
        obtain ⟨vol, -, hrun⟩ := Option.bind_eq_some_iff.mp hrun
        split at hrun
        · obtain ⟨⟨destReg, e₁⟩, hdest, hrun⟩ := Option.bind_eq_some_iff.mp hrun
          obtain ⟨⟨srcReg, e₂⟩, hsrc, hrun⟩ := Option.bind_eq_some_iff.mp hrun
          refine ⟨n, hcount, Nat.le_of_not_lt hle, fun mem => ?_⟩
          obtain ⟨ρ₁, hemits₁, holdDest, hvalue⟩ := lowerOperand_emits sym hdest hS ρ
          obtain rfl := Option.some.inj (ha.symm.trans hvalue)
          obtain ⟨ρ₂, hemits₂, holdSrc, hvalue₂⟩ :=
            lowerOperand_emits sym hsrc (hS.mono hemits₁.counter_le) ρ₁
          rw [operandValue_congr fun v r hr => hemits₁.get_old (hS v r hr) List.not_mem_nil, hb]
            at hvalue₂
          obtain rfl := Option.some.inj hvalue₂
          have hkept : ρ₂.get destReg = ρ₁.get destReg := hemits₂.get_oldReg holdDest
          have holdDest₂ : OldReg e₂.vregCounter destReg := holdDest.mono hemits₂.counter_le
          have hoperands := (hemits₁.trans hemits₂).memEmits mem
          unfold inlineCopy inlineAccesses
          dsimp only at hrun
          split at hrun
          · next hfour =>
            rw [if_pos hfour, if_pos hfour]
            obtain ⟨load, hload, haccess⟩ := LawfulMem.load_mem (I := I) (Or.inr rfl)
              (.virtual e₂.vregCounter) srcReg 0
            obtain ⟨store, hstore, haccess'⟩ := LawfulMem.store_mem (I := I) (Or.inr rfl) destReg
              (.virtual e₂.vregCounter) 0
            simp only [hload, hstore, Option.bind_eq_bind, Option.bind_some, Option.some.injEq,
              Prod.mk.injEq, true_and] at hrun
            subst hrun
            obtain ⟨ρ', hcopy⟩ := memEmits_copy sym ⟨ρ₂, mem⟩ 0 holdDest₂
              haccess haccess'
            refine ⟨ρ', ?_⟩
            have hwidth := LawfulMachine.width_le (R := R) (w := w) I
            have hzero : ∀ x : BitVec w, x + .ofNat w 0 = x := fun x => add_zero x
            have hall := hoperands.trans hcopy
            rw [hzero, hzero, ByteMemory.write_eq_copy (by omega) rfl] at hall
            rw [← hkept]
            exact hall
          · next hfour =>
            rw [if_neg hfour, if_neg hfour]
            obtain ⟨e₃, hbytes, heq⟩ := Option.map_eq_some_iff.mp hrun
            cases heq
            obtain ⟨e₄, ρ', hbytes', hemits⟩ := emitByteCopies_emits sym ⟨ρ₂, mem⟩
              (List.range n) holdDest₂ holdSrc
            obtain rfl := Option.some.inj (hbytes.symm.trans hbytes')
            have hall := hoperands.trans hemits
            rw [← hkept]
            exact ⟨ρ', hall⟩
        · cases hrun

/-! ## Where the copies are right -/

omit [DecidableEq R] [MachineSemantics R w I] [MemSemantics R w I] [MemTarget R I] [LawfulMem R w I]
  [LawfulMachine R w I] in
/-- Byte by byte from below is a copy where the source does not lie just under the destination. -/
theorem inlineCopy_iff (hw : 32 ≤ w) {n : Nat} (hn : n ≤ 32) {dest src : BitVec w} :
    (∀ mem : ByteMemory w, inlineCopy n mem dest src = mem.copy n dest src) ↔
      n = 4 ∨ ByteMemory.dist src dest = 0 ∨ n ≤ ByteMemory.dist src dest := by
  unfold inlineCopy
  by_cases hfour : n = 4
  · subst hfour
    exact iff_of_true (fun _ => rfl) (Or.inl rfl)
  · have hpow : 2 ^ 32 ≤ 2 ^ w := Nat.pow_le_pow_right (by decide) hw
    simp only [if_neg hfour]
    rw [ByteMemory.copyBytes_eq_copy_iff (by omega) (by omega)]
    exact (or_iff_right hfour).symm

omit [DecidableEq R] [MachineSemantics R w I] [MemSemantics R w I] [MemTarget R I] [LawfulMem R w I]
  [LawfulMachine R w I] in
/-- The word access of four bytes is the only one that needs alignment. -/
theorem inlineAccesses_aligned_iff {n align : Nat} (halign : align < 2 ^ w) :
    (∀ a b : BitVec w, align ∣ a.toNat → align ∣ b.toNat →
      ∀ x ∈ inlineAccesses n a b, x.Aligned) ↔ (n = 4 → 4 ∣ align) := by
  unfold inlineAccesses
  by_cases hfour : n = 4
  · simp only [hfour, true_implies]
    exact Ir.ModuleCore.scalarAccesses_aligned_iff halign
  · simp only [if_neg hfour]
    refine iff_of_true (fun a b _ _ x hx => ?_) fun h => absurd h hfour
    obtain ⟨j, -, hx⟩ := List.mem_flatMap.mp hx
    rcases List.mem_cons.mp hx with rfl | hx
    · exact one_dvd _
    · obtain rfl := List.mem_singleton.mp hx
      exact one_dvd _

end Run

/-! ## Both expansions -/

section

open Ir (TargetDataLayout InstRef InstData BlockRef BlockData InstId Ty FlatState)
open Ir.ModuleCore (maxScalarSize ScalarCopy scalarAccesses)

variable {R I : Type} {w : Nat} [DecidableEq R] [MachineSemantics R w I] [LawfulMachine R w I]
  [MemTarget R I] [MemSemantics R w I] [LawfulMem R w I]

omit [MachineSemantics R w I] [LawfulMachine R w I] [MemTarget R I] [MemSemantics R w I]
  [LawfulMem R w I] [DecidableEq R] in
/-- A copy that the pass replaces: the memory is that of the copy, and there are two accesses of its
size. -/
theorem scalarMemcpy_replaced {t : Option TargetDataLayout} (hw : 8 * maxScalarSize t ≤ w)
    {m m' : ModuleCore} {r : InstRef} {d : InstData} {b : BlockRef} {bd : BlockData}
    {before after : List InstId} {dest src : ValueId} {ty : Ty} (hd : m.code.inst r = some d)
    (hparent : d.parent = some b) (hb : m.code.block b = some bd)
    (hinsts : bd.insts = before ++ r.inst :: after) (hfirst : r.inst ∉ before)
    (hdest : m.Defined dest) (hmatch : m.matchScalarMemcpy t r = some (some (dest, src, ty)))
    (hrun : m.scalarMemcpyInst t r = some m') :
    ∃ load store n, ScalarCopy m.code m'.code r load store dest src ty b before after ∧
      ty = .int (8 * n) ∧
      (∀ s : FlatState w, s.Consts m.code → ∃ s₁ s₂, m.code.flatStep r s = some (s₁, []) ∧
        m'.code.flatRun [load, store] s =
          some (s₂, scalarAccesses n (s.vals dest) (s.vals src)) ∧
        s₁.vals = s.vals ∧ s₂.mem = s₁.mem ∧ ∀ v, v ≠ .inst load → s₂.vals v = s₁.vals v) ∧
      ∀ align < 2 ^ w, (∀ a a' : BitVec w, align ∣ a.toNat → align ∣ a'.toNat →
        ∀ access ∈ scalarAccesses n a a', access.Aligned) ↔ n ∣ align := by
  obtain ⟨load, store, hcopy⟩ :=
    Ir.ModuleCore.scalarMemcpyInst_code hd hparent hb hinsts hfirst hmatch hrun
  obtain ⟨-, -, -, -, -, -, n, -, -, -, -, -, -, -, hty⟩ := Ir.ModuleCore.matchScalarMemcpy_some hmatch
  refine ⟨load, store, n, hcopy, hty, fun s hs => ?_,
    fun align halign => Ir.ModuleCore.scalarAccesses_aligned_iff halign⟩
  obtain ⟨n', s₁, s₂, hty', hstep, hrest⟩ := hcopy.run hw hmatch hdest hs
  obtain rfl : n' = n := by
    rw [hty] at hty'
    have heq := Ty.int.inj hty'
    omega
  exact ⟨s₁, s₂, hstep, hrest⟩

/-- A copy that the lowering expands: two accesses of four bytes, or two of each byte. -/
theorem inlineMemcpy_replaced {l : ModuleCore} {symbols : HashMap String SymbolId}
    {S : FunctionLoweringState} {sym : SymbolId → BitVec w} {name : String}
    {target source size isVolatile : ValueId} {args : List ValueId} {e e' : Emitter I}
    {ρ : Regs R I w} {x y : BitVec w} (hS : S.Below e.vregCounter)
    (hx : operandValue l symbols S sym ρ target = some x)
    (hy : operandValue l symbols S sym ρ source = some y)
    (hlower : tryEmitInlineMemcpy l symbols S name (target :: source :: size :: isVolatile :: args)
      e = some (true, e')) :
    ∃ n, l.constIntU64 size = some (some n) ∧ n ≤ 32 ∧
      (∀ mem, ∃ ρ', MemEmits sym e e' ⟨ρ, mem⟩ ⟨ρ', inlineCopy n mem x y⟩ (inlineAccesses n x y)) ∧
      ((∀ mem : ByteMemory w, inlineCopy n mem x y = mem.copy n x y) ↔
        n = 4 ∨ ByteMemory.dist y x = 0 ∨ n ≤ ByteMemory.dist y x) ∧
      ∀ align < 2 ^ w, (∀ a a' : BitVec w, align ∣ a.toNat → align ∣ a'.toNat →
        ∀ access ∈ inlineAccesses n a a', access.Aligned) ↔ (n = 4 → 4 ∣ align) := by
  obtain ⟨n, hn, hle, hemits⟩ := tryEmitInlineMemcpy_emits sym hS hx hy hlower
  exact ⟨n, hn, hle, hemits, inlineCopy_iff (LawfulMachine.width_le I) hle,
    fun align halign => inlineAccesses_aligned_iff halign⟩

/-- What the pass and the lowering put in place of a copy of constant size. -/
theorem memcpy_replaced :
    (∀ {t : Option TargetDataLayout} (_ : 8 * maxScalarSize t ≤ w) {m m' : ModuleCore} {r : InstRef}
      {d : InstData} {b : BlockRef} {bd : BlockData} {before after : List InstId}
      {dest src : ValueId} {ty : Ty} (_ : m.code.inst r = some d) (_ : d.parent = some b)
      (_ : m.code.block b = some bd) (_ : bd.insts = before ++ r.inst :: after)
      (_ : r.inst ∉ before) (_ : m.Defined dest)
      (_ : m.matchScalarMemcpy t r = some (some (dest, src, ty)))
      (_ : m.scalarMemcpyInst t r = some m'),
      ∃ load store n, ScalarCopy m.code m'.code r load store dest src ty b before after ∧
        ty = .int (8 * n) ∧
        (∀ s : FlatState w, s.Consts m.code → ∃ s₁ s₂, m.code.flatStep r s = some (s₁, []) ∧
          m'.code.flatRun [load, store] s =
            some (s₂, scalarAccesses n (s.vals dest) (s.vals src)) ∧
          s₁.vals = s.vals ∧ s₂.mem = s₁.mem ∧ ∀ v, v ≠ .inst load → s₂.vals v = s₁.vals v) ∧
        ∀ align < 2 ^ w, (∀ a a' : BitVec w, align ∣ a.toNat → align ∣ a'.toNat →
          ∀ access ∈ scalarAccesses n a a', access.Aligned) ↔ n ∣ align) ∧
    ∀ {l : ModuleCore} {symbols : HashMap String SymbolId} {S : FunctionLoweringState}
      {sym : SymbolId → BitVec w} {name : String} {target source size isVolatile : ValueId}
      {args : List ValueId} {e e' : Emitter I} {ρ : Regs R I w} {x y : BitVec w}
      (_ : S.Below e.vregCounter) (_ : operandValue l symbols S sym ρ target = some x)
      (_ : operandValue l symbols S sym ρ source = some y)
      (_ : tryEmitInlineMemcpy l symbols S name
        (target :: source :: size :: isVolatile :: args) e = some (true, e')),
      ∃ n, l.constIntU64 size = some (some n) ∧ n ≤ 32 ∧
        (∀ mem, ∃ ρ',
          MemEmits sym e e' ⟨ρ, mem⟩ ⟨ρ', inlineCopy n mem x y⟩ (inlineAccesses n x y)) ∧
        ((∀ mem : ByteMemory w, inlineCopy n mem x y = mem.copy n x y) ↔
          n = 4 ∨ ByteMemory.dist y x = 0 ∨ n ≤ ByteMemory.dist y x) ∧
        ∀ align < 2 ^ w, (∀ a a' : BitVec w, align ∣ a.toNat → align ∣ a'.toNat →
          ∀ access ∈ inlineAccesses n a a', access.Aligned) ↔ (n = 4 → 4 ∣ align) :=
  ⟨fun hw => scalarMemcpy_replaced hw, inlineMemcpy_replaced⟩

end

section Examples

open Ir (TargetDataLayout InstRef)
open Ir.ModuleCore (copyModule ScalarCopy scalarAccesses)

/-- The two arguments in registers. -/
def copyState : FunctionLoweringState :=
  (FunctionLoweringState.new.recordVreg (.arg ⟨1, 1⟩) 0).recordVreg (.arg ⟨1, 2⟩) 1

/-- The registers of the example. -/
theorem copyState_below : copyState.Below 2 := by
  intro v r hr
  simp only [FunctionLoweringState.vregForValue, copyState, FunctionLoweringState.recordVreg,
    HashMap.lookup_insert_ite] at hr
  split at hr
  · cases hr
    exact Nat.one_lt_two
  · split at hr
    · cases hr
      exact Nat.zero_lt_two
    · cases hr

/-- They are zero at the start. -/
theorem cleared_zero : (fun _ => 0 : Register RV64Reg → BitVec 64) (.physical (zeroReg RV64Inst)) = 0 :=
  rfl

/-- Registers that hold two addresses. -/
def copyRegs (dest src : BitVec 64) : Regs RV64Reg RV64Inst 64 :=
  ((⟨fun _ => 0, cleared_zero⟩ : Regs RV64Reg RV64Inst 64).set (.virtual 0) dest).set (.virtual 1) src

/-- What is emitted for a copy of `n` bytes. -/
def copyEmitted (n : Nat) : Option (Bool × Emitter RV64Inst) :=
  tryEmitInlineMemcpy (copyModule n) ∅ copyState "llvm.memcpy.p0.p0.i32"
    [.arg ⟨1, 1⟩, .arg ⟨1, 2⟩, .const 1, .const 2] ⟨[], 2⟩

/-- The module behind the pass. -/
def copiedModule : ModuleCore :=
  ((copyModule 4).scalarMemcpyInst (some .rv64) ⟨1, 1⟩).getD .new

/-- A copy of four bytes through a scalar, and one of two bytes in the lowering. -/
theorem memcpy_replaced_copy :
    (∃ load store, ScalarCopy (copyModule 4).code copiedModule.code ⟨1, 1⟩ load store (.arg ⟨1, 1⟩)
      (.arg ⟨1, 2⟩) (.int 32) ⟨1, 1⟩ [] []) ∧
    ∃ e', copyEmitted 2 = some (true, e') ∧ ∀ mem, ∃ ρ',
      MemEmits (fun _ => 0) ⟨[], 2⟩ e' ⟨copyRegs 1 0, mem⟩ ⟨ρ', inlineCopy 2 mem 1 0⟩
        (inlineAccesses 2 1 0) := by
  have hfirst : (⟨1, 1⟩ : InstRef).inst ∉ ([] : List Ir.InstId) := List.not_mem_nil
  have hinsts : [1] = [] ++ (⟨1, 1⟩ : InstRef).inst :: [] := rfl
  have hdest : (copyModule 4).Defined (.arg ⟨1, 1⟩) := rfl
  have hmatch : (copyModule 4).matchScalarMemcpy (some .rv64) ⟨1, 1⟩ =
      some (some (.arg ⟨1, 1⟩, .arg ⟨1, 2⟩, .int 32)) := rfl
  have hrun : (copyModule 4).scalarMemcpyInst (some .rv64) ⟨1, 1⟩ = some copiedModule := rfl
  have htarget : operandValue (copyModule 2) ∅ copyState (fun _ => 0) (copyRegs 1 0)
      (.arg ⟨1, 1⟩) = some 1 := rfl
  have hsource : operandValue (copyModule 2) ∅ copyState (fun _ => 0) (copyRegs 1 0)
      (.arg ⟨1, 2⟩) = some 0 := rfl
  obtain ⟨hscalar, hinline⟩ := memcpy_replaced (R := RV64Reg) (I := RV64Inst) (w := 64)
  obtain ⟨load, store, -, hcopy, -⟩ :=
    hscalar (by decide) rfl rfl rfl hinsts hfirst hdest hmatch hrun
  obtain ⟨n, hn, -, hemits, -⟩ :=
    hinline copyState_below htarget hsource (show copyEmitted 2 = some (true, _) from rfl)
  obtain rfl : n = 2 := by
    cases hn
    rfl
  exact ⟨⟨load, store, hcopy⟩, _, rfl, hemits⟩

/-- A word is accessed at an address that is aligned for bytes only, in the pass and in the lowering;
and a copy of two bytes to the byte behind the first one copies that byte twice. -/
theorem copies_wrong :
    ((copyModule 4).matchScalarMemcpy (some .rv64) ⟨1, 1⟩ =
        some (some (.arg ⟨1, 1⟩, .arg ⟨1, 2⟩, .int 32)) ∧
      ∃ x ∈ scalarAccesses 4 (1 : BitVec 64) 5, ¬x.Aligned) ∧
    (∃ e', copyEmitted 4 = some (true, e') ∧ ∀ mem, ∃ s' accesses,
      memRun (fun _ => 0) e'.out ⟨copyRegs 1 5, mem⟩ = some (s', accesses) ∧
        ∃ x ∈ accesses, ¬x.Aligned) ∧
    ∃ e', copyEmitted 2 = some (true, e') ∧ ∃ (mem : ByteMemory 64), ∃ s' accesses,
      memRun (fun _ => 0) e'.out ⟨copyRegs 1 0, mem⟩ = some (s', accesses) ∧
        s'.mem ≠ mem.copy 2 1 0 := by
  have hword : ¬(⟨1, 4⟩ : Ir.Access 64).Aligned := by
    show ¬(4 ∣ (1 : BitVec 64).toNat)
    decide
  refine ⟨⟨rfl, _, List.mem_cons_of_mem _ (List.mem_singleton_self _), hword⟩, ?_, ?_⟩
  · refine ⟨_, rfl, fun mem => ⟨_, _, rfl, ?_⟩⟩
    exact ⟨_, List.mem_cons_of_mem _ (List.mem_singleton_self _), hword⟩
  · refine ⟨_, rfl, fun a => if a = 0 then 1 else 0, _, _, rfl, fun h => ?_⟩
    have hbyte := congrFun h 2
    revert hbyte
    decide

end Examples

end Mir
