import C0mpiler.Mir.Exec
import C0mpiler.Mir.ParallelCopy
import C0mpiler.Ir.Core
import Mathlib

/-!
# Lowering operands

What the lowering of every instruction is built from (`lower.rs`): the registers that hold the
operands of an IR instruction, constants loaded where they are used, integers brought to the form
a comparison needs, and the copies of a parallel copy. The functions emit code and allocate virtual
registers, and `Emits` says what running that code does. What a function does not return for
(an operand without a register, a constant that is no scalar, a dead key) is `none`.
-/

namespace List

/-- What stands beside an element. -/
theorem Forall₂.exists_right {α β : Type} {r : α → β → Prop} {l : List α} {l' : List β}
    (h : Forall₂ r l l') {a : α} (ha : a ∈ l) : ∃ b ∈ l', r a b := by
  induction h with
  | nil => cases ha
  | cons hab _ ih =>
    rcases List.mem_cons.mp ha with rfl | ha
    · exact ⟨_, List.mem_cons_self, hab⟩
    · obtain ⟨b, hb, hr⟩ := ih ha
      exact ⟨b, List.mem_cons_of_mem _ hb, hr⟩

/-- And the other way round. -/
theorem Forall₂.exists_left {α β : Type} {r : α → β → Prop} {l : List α} {l' : List β}
    (h : Forall₂ r l l') {b : β} (hb : b ∈ l') : ∃ a ∈ l, r a b :=
  h.flip.exists_right hb

end List

namespace Mir

open Ir (ModuleCore ValueId BlockRef InstRef ConstKind InstKind BinaryOpcode ICmpCode CoreInt)

/-- `value as i32`. -/
def asI32 (x : Int) : Int :=
  x.bmod (2 ^ 32)

/-- A cast to `i32` keeps the low 32 bits. -/
theorem asI32_modEq (x : Int) : asI32 x ≡ x [ZMOD 2 ^ 32] := by
  unfold asI32 Int.ModEq
  exact Int.bmod_emod

/-- It is a signed 32-bit number. -/
theorem asI32_bounds (x : Int) : -2 ^ 31 ≤ asI32 x ∧ asI32 x < 2 ^ 31 := by
  have hle := Int.le_bmod (x := x) (m := 2 ^ 32) (by decide)
  have hlt := Int.bmod_lt (x := x) (m := 2 ^ 32) (by decide)
  unfold asI32
  constructor <;> omega

/-- A number that fits is kept. -/
theorem asI32_of_bounds {x : Int} (h : -2 ^ 31 ≤ x ∧ x < 2 ^ 31) : asI32 x = x := by
  unfold asI32
  rw [Int.bmod_eq_of_le] <;> omega

/-- A value with the block that it comes from. -/
structure PhiIncoming where
  pred : BlockId
  value : ValueId

/-- A phi: the register that holds it, and what it takes from each block. -/
structure PhiInfo where
  dst : VRegId
  incomings : List PhiIncoming

/-- `FunctionLoweringState`, less the stack slots of the allocas. -/
structure FunctionLoweringState where
  blockMap : HashMap BlockRef BlockId
  blockOrder : List BlockRef
  valueVregs : HashMap ValueId VRegId
  phiInfos : HashMap BlockId (List PhiInfo)

namespace FunctionLoweringState

/-- Nothing is recorded yet. -/
def new : FunctionLoweringState := ⟨∅, [], ∅, ∅⟩

/-- `record_block`. -/
def recordBlock (S : FunctionLoweringState) (block : BlockRef) (id : BlockId) :
    FunctionLoweringState :=
  { S with
    blockMap := S.blockMap.insert block id
    blockOrder := S.blockOrder ++ [block] }

/-- `block_id`. -/
def blockId (S : FunctionLoweringState) (block : BlockRef) : Option BlockId :=
  S.blockMap.lookup block

/-- `record_vreg`. -/
def recordVreg (S : FunctionLoweringState) (value : ValueId) (vreg : VRegId) :
    FunctionLoweringState :=
  { S with valueVregs := S.valueVregs.insert value vreg }

/-- `vreg_for_value`. -/
def vregForValue (S : FunctionLoweringState) (value : ValueId) : Option VRegId :=
  S.valueVregs.lookup value

end FunctionLoweringState

/-- The code emitted so far and the counter of virtual registers. -/
structure Emitter (I : Type) where
  out : List I
  vregCounter : Nat

namespace Emitter

variable {I : Type}

/-- Emit one instruction. -/
def push (e : Emitter I) (i : I) : Emitter I :=
  { e with out := e.out ++ [i] }

/-- Emit several. -/
def extend (e : Emitter I) (is : List I) : Emitter I :=
  { e with out := e.out ++ is }

/-- The emitter behind `new_vreg`; the register is `virtual e.vregCounter`. -/
def newVreg (e : Emitter I) : Emitter I :=
  { e with vregCounter := e.vregCounter + 1 }

@[simp] theorem vregCounter_push (e : Emitter I) (i : I) :
    (e.push i).vregCounter = e.vregCounter := rfl

@[simp] theorem vregCounter_newVreg (e : Emitter I) :
    e.newVreg.vregCounter = e.vregCounter + 1 := rfl

end Emitter

section Model

variable {R I : Type} [DecidableEq R] [EmitTarget R I] (m : ModuleCore)
  (symbols : HashMap String SymbolId) (S : FunctionLoweringState)

/-- The number of bits of a register. -/
def regBits (I : Type) [EmitTarget R I] : Nat :=
  8 * LoweringTarget.wordSize I

/-- `lower_operand`: constants and addresses are loaded into a register of their own. -/
def lowerOperand (operand : ValueId) (e : Emitter I) : Option (Register R × Emitter I) :=
  match operand with
  | .global g => do
    let d ← m.global g
    let symbol ← symbols.lookup d.name
    let rd := .virtual e.vregCounter
    some (rd, e.newVreg.push (emitLoadSymbolAddr rd symbol))
  | .const c => do
    let d ← m.constData c
    match d.kind with
    | .int number =>
      if number.asU64 = 0 then some (zeroOperand I, e)
      else
        let rd := .virtual e.vregCounter
        some (rd, e.newVreg.push (loadImm rd (asI32 number.asI64)))
    | .null | .undef => some (zeroOperand I, e)
    | _ => none
  | operand => do
    let vreg ← S.vregForValue operand
    some (.virtual vreg, e)

/-- The registers of the incoming values, one after the other. -/
def lowerMoves : List (VRegId × ValueId) → Emitter I → Option (List (CopyMove R) × Emitter I)
  | [], e => some ([], e)
  | (dst, value) :: phis, e => do
    let (src, e) ← lowerOperand m symbols S value e
    let (moves, e) ← lowerMoves phis e
    some (⟨.virtual dst, src⟩ :: moves, e)

/-- `parallel_copy`: the values are lowered first, and the moves then resolved. -/
def parallelCopy (order : KeyOrder (Register R) (List (Register R)))
    (phis : List (VRegId × ValueId)) (e : Emitter I) : Option (Emitter I) := do
  let (moves, e) ← lowerMoves m symbols S phis e
  let (copies, vregCounter) ← ParallelCopy.resolveParallelCopy order moves e.vregCounter
  some { e.extend (copies.map fun c => mv c.dst c.src) with vregCounter }

/-- `emit_masked_value`: the low bits, by `andi` where the mask fits and by two shifts elsewhere. -/
def emitMaskedValue (src : Register R) (bits : Nat) (e : Emitter I) : Register R × Emitter I :=
  if regBits I ≤ bits then (src, e)
  else
    let rd := .virtual e.vregCounter
    let e := e.newVreg
    let mask := 2 ^ bits - 1
    if mask ≤ 0x7ff then (rd, e.push (emitAndi rd src (mask : Nat)))
    else if mask ≤ 2 ^ 31 - 1 then
      let maskReg := .virtual e.vregCounter
      let e := e.newVreg
      (rd, (e.push (loadImm maskReg (mask : Nat))).push (emitAnd rd src maskReg))
    else
      let shift := regBits I - bits
      (rd, (e.push (emitSlli rd src shift)).push (emitSrli rd rd shift))

/-- `emit_sign_extended_value`. -/
def emitSignExtendedValue (src : Register R) (bits : Nat) (e : Emitter I) :
    Register R × Emitter I :=
  if regBits I ≤ bits then (src, e)
  else
    let rd := .virtual e.vregCounter
    let shift := regBits I - bits
    (rd, (e.newVreg.push (emitSlli rd src shift)).push (emitSrai rd rd shift))

/-- `int_bits_for_value`; the outer `none` is a dead value. -/
def intBitsForValue (value : ValueId) : Option (Option Nat) := do
  match ← m.valueTy value with
  | .int bits => some (some bits)
  | _ => some none

/-- `emit_normalized_int_value`. -/
def emitNormalizedIntValue (src : Register R) (bits : Nat) (signed : Bool) (e : Emitter I) :
    Register R × Emitter I :=
  if signed then emitSignExtendedValue src bits e else emitMaskedValue src bits e

/-- The tests before the instruction is looked at; `k` answers where none of them decides. -/
def knownSignExtendedOr (wordSize : Nat) (value : ValueId) (bits : Nat) (k : Option Bool) :
    Option Bool :=
  if 8 * wordSize ≤ bits then some true
  else if wordSize ≠ 8 ∨ bits ≠ 32 then some false
  else do
    let valueBits ← intBitsForValue m value
    if valueBits ≠ some bits then some false else k

/-- `is_known_sign_extended_int_value_depth`: how far the walk goes is bounded. -/
def isKnownSignExtendedIntValueDepth (wordSize : Nat) (bits : Nat) :
    Nat → ValueId → Option Bool
  | 0, value => knownSignExtendedOr m wordSize value bits (some false)
  | depth + 1, value => knownSignExtendedOr m wordSize value bits <|
    match value with
    | .const _ | .arg _ => some true
    | .global _ => some false
    | .inst inst => do
      let d ← m.inst inst
      match d.kind with
      | .load _ | .sext _ | .call _ _ => some true
      | .binary op _ _ =>
        match op with
        | .add | .sub | .mul | .sdiv | .srem | .udiv | .urem | .shl | .ashr | .lshr => some true
        | _ => some false
      | .phi incomings _ =>
        incomings.entries.allM fun inc =>
          isKnownSignExtendedIntValueDepth wordSize bits depth inc.2.value
      | _ => some false

/-- `is_known_sign_extended_int_value`. -/
def isKnownSignExtendedIntValue (wordSize : Nat) (value : ValueId) (bits : Nat) : Option Bool :=
  isKnownSignExtendedIntValueDepth m wordSize bits 4 value

/-- `emit_normalized_int_operand`: nothing is emitted where the register holds the number already.
-/
def emitNormalizedIntOperand (value : ValueId) (src : Register R) (bits : Nat) (signed : Bool)
    (e : Emitter I) : Option (Register R × Emitter I) :=
  if signed then do
    let known ← isKnownSignExtendedIntValue m (LoweringTarget.wordSize I) value bits
    if known then some (src, e) else some (emitNormalizedIntValue src bits signed e)
  else some (emitNormalizedIntValue src bits signed e)

end Model

/-! ## What running the code does -/

section Run

variable {R I : Type} {w : Nat} [DecidableEq R] [MachineSemantics R w I]
  {sym : SymbolId → BitVec w} {ws : List (Register R)} {e e' e'' : Emitter I}
  {ρ ρ' ρ'' : Regs R I w}

/-- The code emitted between `e` and `e'` takes the registers from `ρ` to `ρ'`; it writes the
registers it allocates and those of `ws`. -/
structure Emits (sym : SymbolId → BitVec w) (ws : List (Register R)) (e e' : Emitter I)
    (ρ ρ' : Regs R I w) : Prop where
  counter_le : e.vregCounter ≤ e'.vregCounter
  run : ∃ code, e'.out = e.out ++ code ∧ runInsts sym code ρ = some (ρ', none)
  frame : ∀ x, x ∉ ws → ¬ Allocated e.vregCounter e'.vregCounter x → ρ'.get x = ρ.get x

/-- A run of emitted code has one result. -/
theorem Emits.unique {ws ws' : List (Register R)} {ρ₁ ρ₂ : Regs R I w}
    (h : Emits sym ws e e' ρ ρ₁) (h' : Emits sym ws' e e' ρ ρ₂) : ρ₁ = ρ₂ := by
  obtain ⟨code, hout, hrun⟩ := h.run
  obtain ⟨code', hout', hrun'⟩ := h'.run
  obtain rfl : code = code' := List.append_cancel_left (hout.symm.trans hout')
  rw [hrun] at hrun'
  cases hrun'
  rfl

omit [DecidableEq R] in
theorem Allocated.mono {a b c d : Nat} (hac : c ≤ a) (hbd : b ≤ d) {x : Register R}
    (h : Allocated a b x) : Allocated c d x := by
  obtain ⟨v, hv, hv', rfl⟩ := h
  exact ⟨v, hac.trans hv, hv'.trans_le hbd, rfl⟩

namespace Emits

theorem refl (e : Emitter I) (ρ : Regs R I w) : Emits sym ws e e ρ ρ where
  counter_le := le_rfl
  run := ⟨[], (List.append_nil _).symm, rfl⟩
  frame := fun _ _ _ => rfl

theorem trans (h : Emits sym ws e e' ρ ρ') (h' : Emits sym ws e' e'' ρ' ρ'') :
    Emits sym ws e e'' ρ ρ'' where
  counter_le := h.counter_le.trans h'.counter_le
  run := by
    obtain ⟨code, hout, hrun⟩ := h.run
    obtain ⟨code', hout', hrun'⟩ := h'.run
    refine ⟨code ++ code', ?_, ?_⟩
    · rw [hout', hout, List.append_assoc]
    · rw [runInsts_append hrun, hrun']
  frame := by
    intro x hx hnot
    have hlate := h'.frame x hx fun ha => hnot (ha.mono h.counter_le le_rfl)
    have hearly := h.frame x hx fun ha => hnot (ha.mono le_rfl h'.counter_le)
    exact hlate.trans hearly

/-- A register that no code writes yet. -/
theorem newVreg (h : Emits sym ws e e' ρ ρ') : Emits sym ws e e'.newVreg ρ ρ' where
  counter_le := h.counter_le.trans (Nat.le_succ _)
  run := h.run
  frame := fun x hx hnot => h.frame x hx fun ha => hnot (ha.mono le_rfl (Nat.le_succ _))

/-- One more instruction, whose result goes to a new register or to one of `ws`. -/
theorem push (h : Emits sym ws e e' ρ ρ') {i : I} {rd : Register R} {x : BitVec w}
    (hrd : rd ∈ ws ∨ Allocated e.vregCounter e'.vregCounter rd)
    (halu : MachineSemantics.alu i ρ'.get sym = some (rd, x)) :
    Emits sym ws e (e'.push i) ρ (ρ'.set rd x) where
  counter_le := h.counter_le
  run := by
    obtain ⟨code, hout, hrun⟩ := h.run
    refine ⟨code ++ [i], ?_, ?_⟩
    · rw [Emitter.push, hout, List.append_assoc]
    · rw [runInsts_append hrun, runInsts_alu halu]
  frame := by
    intro y hy hnot
    have hne : y ≠ rd := by
      rintro rfl
      exact hrd.elim hy hnot
    rw [RegFile.get_set_ne _ hne, h.frame y hy hnot]

/-- Registers older than the emitter keep their contents. -/
theorem get_old (h : Emits sym ws e e' ρ ρ') {v : Nat} (hv : v < e.vregCounter)
    (hw : .virtual v ∉ ws) : ρ'.get (.virtual v) = ρ.get (.virtual v) := by
  refine h.frame _ hw ?_
  rintro ⟨v', hle, -, heq⟩
  cases heq
  omega

end Emits

omit [DecidableEq R] in
/-- The register `new_vreg` hands out. -/
theorem allocated_newVreg {I : Type} {e e' : Emitter I} (h : e.vregCounter ≤ e'.vregCounter) :
    Allocated e.vregCounter e'.newVreg.vregCounter (.virtual e'.vregCounter : Register R) :=
  ⟨e'.vregCounter, h, Nat.lt_succ_self _, rfl⟩

end Run

/-! ## Operands -/

section Operands

variable {R I : Type} {w : Nat} [DecidableEq R] [MachineSemantics R w I]
  (m : ModuleCore) (symbols : HashMap String SymbolId) (S : FunctionLoweringState)
  (sym : SymbolId → BitVec w)

/-- What the register of a lowered operand holds. -/
def operandValue (ρ : Regs R I w) : ValueId → Option (BitVec w)
  | .global g => do
    let d ← m.global g
    let symbol ← symbols.lookup d.name
    some (sym symbol)
  | .const c => do
    let d ← m.constData c
    match d.kind with
    | .int number => some (if number.asU64 = 0 then 0 else .ofInt w (asI32 number.asI64))
    | .null | .undef => some 0
    | _ => none
  | operand => do
    let vreg ← S.vregForValue operand
    some (ρ.get (.virtual vreg))

/-- Every register of a value is older than the counter. -/
def FunctionLoweringState.Below (c : Nat) : Prop :=
  ∀ (v : ValueId) (r : Nat), S.vregForValue v = some r → r < c

/-- The register is no virtual register from the counter on. -/
def OldReg (c : Nat) (r : Register R) : Prop :=
  ∀ v : Nat, c ≤ v → r ≠ .virtual v

variable {m symbols S sym} {e e' : Emitter I} {ρ ρ' : Regs R I w} [LawfulMachine R w I]

omit [DecidableEq R] [MachineSemantics R w I] [LawfulMachine R w I] in
theorem FunctionLoweringState.Below.mono {c c' : Nat} (h : S.Below c) (hle : c ≤ c') :
    S.Below c' :=
  fun v r hr => (h v r hr).trans_le hle

omit [DecidableEq R] [LawfulMachine R w I] in
/-- An operand is read in the registers of the values only. -/
theorem operandValue_congr
    (h : ∀ v r, S.vregForValue v = some r → ρ'.get (.virtual r) = ρ.get (.virtual r))
    (v : ValueId) : operandValue m symbols S sym ρ' v = operandValue m symbols S sym ρ v := by
  cases v with
  | global g => rfl
  | const c => rfl
  | inst r | arg r =>
    simp only [operandValue]
    cases hv : S.vregForValue _ with
    | none => rfl
    | some r => simp [h _ r hv]

variable (sym) in
/-- Lowering an operand leaves its value in the register it returns. -/
theorem lowerOperand_emits {v : ValueId} {r : Register R}
    (h : lowerOperand m symbols S v e = some (r, e')) (hS : S.Below e.vregCounter)
    (ρ : Regs R I w) :
    ∃ ρ', Emits sym [] e e' ρ ρ' ∧ OldReg e'.vregCounter r ∧
      operandValue m symbols S sym ρ v = some (ρ'.get r) := by
  have hnew : ∀ {i : I} {x : BitVec w},
      MachineSemantics.alu i ρ.get sym = some (.virtual e.vregCounter, x) →
      Emits sym [] e (e.newVreg.push i) ρ (ρ.set (.virtual e.vregCounter) x) := fun halu =>
    (Emits.refl e ρ).newVreg.push (Or.inr (allocated_newVreg le_rfl)) halu
  have holdNew : OldReg (e.vregCounter + 1) (.virtual e.vregCounter : Register R) := by
    intro v hv heq
    cases heq
    omega
  cases v with
  | global g =>
    obtain ⟨d, hd, h⟩ := Option.bind_eq_some_iff.mp h
    obtain ⟨symbol, hsymbol, h⟩ := Option.bind_eq_some_iff.mp h
    cases h
    refine ⟨_, hnew (LawfulMachine.alu_loadSymbolAddr ..), holdNew, ?_⟩
    simp [operandValue, hd, hsymbol]
  -- a constant: zero has a register of its own, or is loaded like any other number
  | const c =>
    obtain ⟨d, hd, h⟩ := Option.bind_eq_some_iff.mp h
    cases hk : d.kind with
    | int number =>
      rw [hk] at h
      by_cases hzero : number.asU64 = 0
      · simp only [hzero, if_true] at h
        cases h
        refine ⟨ρ, Emits.refl _ ρ, fun v _ => by simp, ?_⟩
        simp [operandValue, hd, hk, hzero, ρ.get_zero]
      · simp only [hzero, if_false] at h
        cases h
        refine ⟨_, hnew (LawfulMachine.alu_loadImm ..), holdNew, ?_⟩
        simp [operandValue, hd, hk, hzero]
    | null | undef =>
      rw [hk] at h
      cases h
      refine ⟨ρ, Emits.refl _ ρ, fun v _ => by simp, ?_⟩
      simp [operandValue, hd, hk, ρ.get_zero]
    | array | struct | string => rw [hk] at h; cases h
  -- an instruction or an argument is in its register
  | inst i | arg i =>
    obtain ⟨vreg, hvreg, h⟩ := Option.bind_eq_some_iff.mp h
    cases h
    refine ⟨ρ, Emits.refl _ ρ, ?_, ?_⟩
    · intro v hv heq
      cases heq
      have := hS _ _ hvreg
      omega
    · simp [operandValue, hvreg]

omit [DecidableEq R] [LawfulMachine R w I] in
/-- An operand with a value is lowered. -/
theorem lowerOperand_isSome {v : ValueId} {x : BitVec w}
    (h : operandValue m symbols S sym ρ v = some x) :
    (lowerOperand (I := I) m symbols S v e).isSome := by
  cases v with
  | global g =>
    obtain ⟨d, hd, h⟩ := Option.bind_eq_some_iff.mp h
    obtain ⟨symbol, hsymbol, -⟩ := Option.bind_eq_some_iff.mp h
    simp [lowerOperand, hd, hsymbol]
  | const c =>
    obtain ⟨d, hd, h⟩ := Option.bind_eq_some_iff.mp h
    simp only [lowerOperand, hd, Option.bind_eq_bind, Option.bind_some]
    cases hk : d.kind with
    | int number => dsimp only; split <;> rfl
    | null | undef => rfl
    | array | struct | string => rw [hk] at h; cases h
  | inst i | arg i =>
    obtain ⟨vreg, hvreg, -⟩ := Option.bind_eq_some_iff.mp h
    simp [lowerOperand, hvreg]

/-- An operand with a value is lowered, and its register then holds the value. -/
theorem lowerOperand_value {v : ValueId} {x : BitVec w}
    (h : operandValue m symbols S sym ρ v = some x) (hS : S.Below e.vregCounter) :
    ∃ r e' ρ', lowerOperand m symbols S v e = some (r, e') ∧ Emits sym [] e e' ρ ρ' ∧
      OldReg e'.vregCounter r ∧ ρ'.get r = x := by
  obtain ⟨⟨r, e'⟩, hlower⟩ := Option.isSome_iff_exists.mp (lowerOperand_isSome (e := e) h)
  obtain ⟨ρ', hemits, hold, hvalue⟩ := lowerOperand_emits sym hlower hS ρ
  rw [h] at hvalue
  exact ⟨r, e', ρ', hlower, hemits, hold, (Option.some.inj hvalue).symm⟩

/-- A copy of the copies to come: its destination, and a register that holds the incoming value. -/
def CopyOf (m : ModuleCore) (symbols : HashMap String SymbolId) (S : FunctionLoweringState)
    (sym : SymbolId → BitVec w) (ρ ρ' : Regs R I w) (phi : VRegId × ValueId) (c : CopyMove R) :
    Prop :=
  c.dst = .virtual phi.1 ∧ operandValue m symbols S sym ρ phi.2 = some (ρ'.get c.src)

variable (sym) in
/-- Lowering the incoming values one after the other leaves each of them in its register. -/
theorem lowerMoves_emits {phis : List (VRegId × ValueId)} {moves : List (CopyMove R)}
    (h : lowerMoves m symbols S phis e = some (moves, e')) (hS : S.Below e.vregCounter)
    (ρ : Regs R I w) :
    ∃ ρ', Emits sym [] e e' ρ ρ' ∧ (∀ c ∈ moves, OldReg e'.vregCounter c.src) ∧
      List.Forall₂ (CopyOf m symbols S sym ρ ρ') phis moves := by
  induction phis generalizing e moves ρ with
  | nil =>
    cases h
    exact ⟨ρ, Emits.refl _ ρ, by simp, .nil⟩
  | cons phi phis ih =>
    obtain ⟨⟨src, e₁⟩, hop, h⟩ := Option.bind_eq_some_iff.mp h
    obtain ⟨⟨moves', e₂⟩, hmoves, h⟩ := Option.bind_eq_some_iff.mp h
    cases h
    obtain ⟨ρ₁, hemits₁, hold, hvalue⟩ := lowerOperand_emits sym hop hS ρ
    obtain ⟨ρ', hemits, hsrc, hcopies⟩ := ih hmoves (hS.mono hemits₁.counter_le) ρ₁
    have hkeep : ρ'.get src = ρ₁.get src := by
      refine hemits.frame src List.not_mem_nil ?_
      rintro ⟨v, hv, -, heq⟩
      exact hold v hv heq
    have hcongr : ∀ v r, S.vregForValue v = some r → ρ₁.get (.virtual r) = ρ.get (.virtual r) :=
      fun v r hr => hemits₁.get_old (hS v r hr) List.not_mem_nil
    refine ⟨ρ', hemits₁.trans hemits, ?_, .cons ⟨rfl, ?_⟩ (hcopies.imp ?_)⟩
    · intro c hc
      rcases List.mem_cons.mp hc with rfl | hc
      · exact fun v hv => hold v (hemits.counter_le.trans hv)
      · exact hsrc c hc
    · rw [hvalue, hkeep]
    · rintro p c ⟨hdst, hval⟩
      exact ⟨hdst, by rw [← hval, operandValue_congr hcongr]⟩

variable (sym) in
/-- Move instructions in sequence; those into the zero register do nothing. -/
theorem runInsts_mv (l : List (CopyMove R)) (ρ : Regs R I w) :
    ∃ ρ', runInsts sym (l.map fun c => (mv c.dst c.src : I)) ρ = some (ρ', none) ∧
      ρ'.get = Move.run (l.filter fun c => c.dst ≠ zeroOperand I) ρ.get := by
  induction l generalizing ρ with
  | nil => exact ⟨ρ, rfl, rfl⟩
  | cons c l ih =>
    have hmv : MachineSemantics.alu (mv c.dst c.src : I) ρ.get sym = some (c.dst, ρ.get c.src) :=
      LawfulMachine.alu_mv ..
    obtain ⟨ρ', hrun, hget⟩ := ih (ρ.set c.dst (ρ.get c.src))
    refine ⟨ρ', ?_, ?_⟩
    · rw [List.map_cons, ← List.singleton_append, runInsts_append (runInsts_alu hmv), hrun]
    · by_cases hc : c.dst = zeroOperand I
      · rw [hget, List.filter_cons_of_neg (by simp [hc]), hc, RegFile.get_set_zero]
      · rw [hget, List.filter_cons_of_pos (by simp [hc]), Move.run_cons, RegFile.get_set _ hc]

variable (sym) in
/-- Moves run as a list of moves. -/
theorem runInsts_moves {l : List (CopyMove R)} (hl : ∀ c ∈ l, c.dst ≠ zeroOperand I)
    (ρ : Regs R I w) :
    ∃ ρ', runInsts sym (l.map fun c => (mv c.dst c.src : I)) ρ = some (ρ', none) ∧
      ρ'.get = Move.run l ρ.get := by
  obtain ⟨ρ', hrun, hget⟩ := runInsts_mv sym l ρ
  refine ⟨ρ', hrun, ?_⟩
  rw [hget, List.filter_eq_self.mpr fun c hc => decide_eq_true (hl c hc)]

omit [DecidableEq R] [LawfulMachine R w I] in
/-- The destinations are the registers of the phis. -/
theorem map_dst_of_copies {phis : List (VRegId × ValueId)} {moves : List (CopyMove R)}
    (h : List.Forall₂ (CopyOf m symbols S sym ρ ρ') phis moves) :
    moves.map Move.dst = phis.map fun p => .virtual p.1 := by
  induction h with
  | nil => rfl
  | cons hc _ ih => rw [List.map_cons, List.map_cons, ih, hc.1]

/-- The registers that the copies write. -/
abbrev copyDsts (phis : List (VRegId × ValueId)) : List (Register R) :=
  phis.map fun p => .virtual p.1

variable (sym) in
/-- A parallel copy leaves in every destination the value its operand had before. -/
theorem parallelCopy_emits {order : KeyOrder (Register R) (List (Register R))}
    {phis : List (VRegId × ValueId)} (h : parallelCopy m symbols S order phis e = some e')
    (hS : S.Below e.vregCounter) (hnodup : (phis.map Prod.fst).Nodup)
    (hdst : ∀ p ∈ phis, p.1 < e.vregCounter) (ρ : Regs R I w) :
    ∃ ρ', Emits sym (copyDsts phis) e e' ρ ρ' ∧
      ∀ p ∈ phis, operandValue m symbols S sym ρ p.2 = some (ρ'.get (.virtual p.1)) := by
  obtain ⟨⟨moves, e₁⟩, hmoves, h⟩ := Option.bind_eq_some_iff.mp h
  obtain ⟨⟨copies, c'⟩, hcopies, h⟩ := Option.bind_eq_some_iff.mp h
  cases h
  obtain ⟨ρ₁, hemits, hsrc, hall⟩ := lowerMoves_emits sym hmoves hS ρ
  have hdsts : moves.map Move.dst = copyDsts phis := map_dst_of_copies hall
  have hdstsNodup : (moves.map Move.dst).Nodup := by
    have hvirtual : ((phis.map Prod.fst).map (Register.virtual (R := R))).Nodup :=
      hnodup.map fun v v' heq => by cases heq; rfl
    rw [List.map_map] at hvirtual
    exact hdsts ▸ hvirtual
  -- no move reads or writes a register that the copies make
  have hbelow : ParallelCopy.Below e₁.vregCounter moves := by
    intro c hc v hv
    refine ⟨?_, hsrc c hc v hv⟩
    have hmem : c.dst ∈ copyDsts phis := hdsts ▸ List.mem_map_of_mem hc
    obtain ⟨p, hp, heq⟩ := List.mem_map.mp hmem
    intro hv'
    rw [hv'] at heq
    cases heq
    exact absurd ((hdst p hp).trans_le hemits.counter_le) (Nat.not_lt.mpr hv)
  obtain ⟨out, c'', hres, hresolves⟩ :=
    ParallelCopy.resolveParallelCopy_resolves order hdstsNodup hbelow
  rw [hcopies] at hres
  cases hres
  -- no copy writes the zero register
  have hnonzero : ∀ c ∈ copies, c.dst ≠ zeroOperand I := by
    intro c hc hzero
    rcases hresolves.dst c hc with hmem | ⟨v, -, -, hv⟩
    · rw [hdsts, hzero] at hmem
      obtain ⟨p, -, hp⟩ := List.mem_map.mp hmem
      cases hp
    · rw [hzero] at hv
      cases hv
  obtain ⟨ρ', hrun, hget⟩ := runInsts_moves sym hnonzero ρ₁
  refine ⟨ρ', ⟨hemits.counter_le.trans hresolves.counter_le, ?_, ?_⟩, ?_⟩
  · obtain ⟨code, hout, hcode⟩ := hemits.run
    refine ⟨code ++ copies.map fun c => mv c.dst c.src, ?_, ?_⟩
    · simp [Emitter.extend, hout]
    · rw [runInsts_append hcode, hrun]
  · intro x hx hnot
    rw [hget, hresolves.run_other ρ₁.get x (hdsts ▸ hx)
      fun ha => hnot (ha.mono hemits.counter_le le_rfl)]
    exact hemits.frame x List.not_mem_nil fun ha => hnot (ha.mono le_rfl hresolves.counter_le)
  -- each phi has the value that its operand had before the copies
  · intro p hp
    obtain ⟨c, hc, hdstc, hvalue⟩ := hall.exists_right hp
    rw [hvalue, hget, ← hdstc, hresolves.run_dst ρ₁.get c hc]

/-! ## Normalised integers -/

omit [DecidableEq R] in
/-- The registers have the width of the target. -/
theorem regBits_eq : regBits I = w :=
  LawfulMachine.width.symm

variable (sym) in
/-- Masking writes its own register only. -/
theorem emitMaskedValue_emits {src r : Register R} {bits : Nat} (hbits : 1 ≤ bits)
    (h : emitMaskedValue src bits e = (r, e')) (ρ : Regs R I w) :
    ∃ ρ', Emits sym [] e e' ρ ρ' := by
  have hw : regBits I = w := regBits_eq
  have hnew : Allocated e.vregCounter (e.vregCounter + 1) (.virtual e.vregCounter : Register R) :=
    allocated_newVreg le_rfl
  have hrd : Emits sym [] e e.newVreg ρ ρ := (Emits.refl e ρ).newVreg
  simp only [emitMaskedValue, hw] at h
  split at h
  · cases h
    exact ⟨ρ, Emits.refl _ ρ⟩
  · next hlt =>
    split at h
    · next hmask =>
      cases h
      have hfits : FitsImm12 ((2 ^ bits - 1 : Nat) : Int) := ⟨by omega, by omega⟩
      exact ⟨_, hrd.push (Or.inr hnew) (LawfulMachine.alu_andi _ _ hfits _ _)⟩
    · split at h
      · cases h
        have hmask := hrd.newVreg.push (Or.inr (allocated_newVreg (Nat.le_succ _)))
          (LawfulMachine.alu_loadImm _ ((2 ^ bits - 1 : Nat) : Int) _ _)
        exact ⟨_, hmask.push (Or.inr (hnew.mono le_rfl (Nat.le_succ _)))
          (LawfulMachine.alu_and ..)⟩
      · cases h
        have hshift : w - bits < w := by omega
        have hleft := hrd.push (Or.inr hnew) (LawfulMachine.alu_slli _ src hshift _ _)
        exact ⟨_, hleft.push (Or.inr hnew) (LawfulMachine.alu_srli _ _ hshift _ _)⟩

variable (sym) in
/-- So does sign extension. -/
theorem emitSignExtendedValue_emits {src r : Register R} {bits : Nat} (hbits : 1 ≤ bits)
    (h : emitSignExtendedValue src bits e = (r, e')) (ρ : Regs R I w) :
    ∃ ρ', Emits sym [] e e' ρ ρ' := by
  have hw : regBits I = w := regBits_eq
  have hnew : Allocated e.vregCounter (e.vregCounter + 1) (.virtual e.vregCounter : Register R) :=
    allocated_newVreg le_rfl
  have hrd : Emits sym [] e e.newVreg ρ ρ := (Emits.refl e ρ).newVreg
  simp only [emitSignExtendedValue, hw] at h
  split at h
  · cases h
    exact ⟨ρ, Emits.refl _ ρ⟩
  · next hlt =>
    cases h
    have hshift : w - bits < w := by omega
    have hleft := hrd.push (Or.inr hnew) (LawfulMachine.alu_slli _ src hshift _ _)
    exact ⟨_, hleft.push (Or.inr hnew) (LawfulMachine.alu_srai _ _ hshift _ _)⟩

variable (sym) in
/-- And whichever of them the operand needs. -/
theorem emitNormalizedIntOperand_emits {value : ValueId} {src r : Register R} {bits : Nat}
    {signed : Bool} (hbits : 1 ≤ bits)
    (h : emitNormalizedIntOperand m value src bits signed e = some (r, e')) (ρ : Regs R I w) :
    ∃ ρ', Emits sym [] e e' ρ ρ' := by
  have hvalue : ∀ {signed}, emitNormalizedIntValue src bits signed e = (r, e') →
      ∃ ρ', Emits sym [] e e' ρ ρ' := by
    intro signed h
    unfold emitNormalizedIntValue at h
    split at h
    · exact emitSignExtendedValue_emits sym hbits h ρ
    · exact emitMaskedValue_emits sym hbits h ρ
  unfold emitNormalizedIntOperand at h
  split at h
  · obtain ⟨known, -, h⟩ := Option.bind_eq_some_iff.mp h
    split at h
    · cases h
      exact ⟨ρ, Emits.refl _ ρ⟩
    · exact hvalue (Option.some.inj h)
  · exact hvalue (Option.some.inj h)

end Operands

end Mir
