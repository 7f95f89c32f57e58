import C0mpiler.Mir.Machine
import Mathlib

/-!
# The RV64I target

The registers and machine instructions of the target with the register sets that register
allocation reads. Immediates of type `i32` are integers.
-/

namespace Mir

/-- The registers of RV64. -/
inductive RV64Reg where
  | zero | ra | sp | gp | tp | t0 | t1 | t2 | s0 | s1 | a0 | a1 | a2 | a3 | a4 | a5 | a6 | a7
  | s2 | s3 | s4 | s5 | s6 | s7 | s8 | s9 | s10 | s11 | t3 | t4 | t5 | t6
  deriving DecidableEq

namespace RV64Reg

/-- The derived order: that of the declaration. -/
instance : Ord RV64Reg := ⟨fun a b => compare a.ctorIdx b.ctorIdx⟩

/-- `get_allocatable_regs`: `t6` is kept for the frame. -/
def getAllocatableRegs : List RV64Reg :=
  [t0, t1, t2, t3, t4, t5, s0, s1, s2, s3, s4, s5, s6, s7, s8, s9, s10, s11, a0, a1, a2, a3, a4,
   a5, a6, a7]

/-- `is_callee_saved`. -/
def isCalleeSaved : RV64Reg → Bool
  | .s0 | .s1 | .s2 | .s3 | .s4 | .s5 | .s6 | .s7 | .s8 | .s9 | .s10 | .s11 => true
  | _ => false

end RV64Reg

namespace RV64Inst

/-- A register, virtual or physical. -/
abbrev Reg := Register RV64Reg

end RV64Inst

open RV64Inst in
/-- The instructions, with the pseudo instructions that the frame expands. -/
inductive RV64Inst where
  | add (rd rs1 rs2 : Reg)
  | sub (rd rs1 rs2 : Reg)
  | addw (rd rs1 rs2 : Reg)
  | subw (rd rs1 rs2 : Reg)
  | xor (rd rs1 rs2 : Reg)
  | or (rd rs1 rs2 : Reg)
  | and (rd rs1 rs2 : Reg)
  | sll (rd rs1 rs2 : Reg)
  | srl (rd rs1 rs2 : Reg)
  | sra (rd rs1 rs2 : Reg)
  | sllw (rd rs1 rs2 : Reg)
  | srlw (rd rs1 rs2 : Reg)
  | sraw (rd rs1 rs2 : Reg)
  | slt (rd rs1 rs2 : Reg)
  | sltu (rd rs1 rs2 : Reg)
  | addi (rd rs1 : Reg) (imm : Int)
  | addiw (rd rs1 : Reg) (imm : Int)
  | xori (rd rs1 : Reg) (imm : Int)
  | ori (rd rs1 : Reg) (imm : Int)
  | andi (rd rs1 : Reg) (imm : Int)
  | slli (rd rs1 : Reg) (imm : Int)
  | srli (rd rs1 : Reg) (imm : Int)
  | srai (rd rs1 : Reg) (imm : Int)
  | slliw (rd rs1 : Reg) (imm : Int)
  | srliw (rd rs1 : Reg) (imm : Int)
  | sraiw (rd rs1 : Reg) (imm : Int)
  | slti (rd rs1 : Reg) (imm : Int)
  | sltiu (rd rs1 : Reg) (imm : Int)
  | lb (rd rs1 : Reg) (imm : Int)
  | lh (rd rs1 : Reg) (imm : Int)
  | lw (rd rs1 : Reg) (imm : Int)
  | ld (rd rs1 : Reg) (imm : Int)
  | lbu (rd rs1 : Reg) (imm : Int)
  | lhu (rd rs1 : Reg) (imm : Int)
  | lwu (rd rs1 : Reg) (imm : Int)
  | sb (rs1 rs2 : Reg) (imm : Int)
  | sh (rs1 rs2 : Reg) (imm : Int)
  | sw (rs1 rs2 : Reg) (imm : Int)
  | sd (rs1 rs2 : Reg) (imm : Int)
  | beq (rs1 rs2 : Reg) (label : BlockId)
  | bne (rs1 rs2 : Reg) (label : BlockId)
  | blt (rs1 rs2 : Reg) (label : BlockId)
  | bge (rs1 rs2 : Reg) (label : BlockId)
  | bltu (rs1 rs2 : Reg) (label : BlockId)
  | bgeu (rs1 rs2 : Reg) (label : BlockId)
  | jal (rd : Reg) (label : BlockId)
  | jalr (rd rs1 : Reg) (imm : Int)
  | lui (rd : Reg) (imm : Int)
  | auipc (rd : Reg) (imm : Int)
  | mul (rd rs1 rs2 : Reg)
  | mulh (rd rs1 rs2 : Reg)
  | mulsu (rd rs1 rs2 : Reg)
  | mulu (rd rs1 rs2 : Reg)
  | mulw (rd rs1 rs2 : Reg)
  | div (rd rs1 rs2 : Reg)
  | divu (rd rs1 rs2 : Reg)
  | rem (rd rs1 rs2 : Reg)
  | remu (rd rs1 rs2 : Reg)
  | divw (rd rs1 rs2 : Reg)
  | divuw (rd rs1 rs2 : Reg)
  | remw (rd rs1 rs2 : Reg)
  | remuw (rd rs1 rs2 : Reg)
  | mv (rd rs : Reg)
  | li (rd : Reg) (imm : Int)
  | ret
  | la (rd : Reg) (label : SymbolId)
  | nop
  | lbs (rd : Reg) (symbol : SymbolId)
  | lhs (rd : Reg) (symbol : SymbolId)
  | lws (rd : Reg) (symbol : SymbolId)
  | lds (rd : Reg) (symbol : SymbolId)
  | sbs (rs : Reg) (symbol : SymbolId) (rt : Reg)
  | shs (rs : Reg) (symbol : SymbolId) (rt : Reg)
  | sws (rs : Reg) (symbol : SymbolId) (rt : Reg)
  | sds (rs : Reg) (symbol : SymbolId) (rt : Reg)
  | call (func : SymbolId) (numArgs : Nat)
  | tail (func : SymbolId) (numArgs : Nat)
  | loadStack (rd : Reg) (slot : StackSlotId)
  | saveStack (rs : Reg) (slot : StackSlotId) (rt : Reg)
  | storeOutgoingArg (rs : Reg) (offset : Int) (rt : Reg)
  | loadIncomingArg (rd : Reg) (offset : Int)
  | getStackAddr (rd : Reg) (slot : StackSlotId)

namespace RV64Inst

/-- The registers a call clobbers. -/
def callDefs : List RV64Reg :=
  [.ra, .a0, .a1, .a2, .a3, .a4, .a5, .a6, .a7, .t0, .t1, .t2, .t3, .t4, .t5, .t6]

/-- The registers of the first arguments. -/
def argRegs : List RV64Reg :=
  [.a0, .a1, .a2, .a3, .a4, .a5, .a6, .a7]

/-- `def_regs`. -/
def defRegs : RV64Inst → List Reg
  | .add rd _ _ | .sub rd _ _ | .addw rd _ _ | .subw rd _ _ | .xor rd _ _ | .or rd _ _
  | .and rd _ _ | .sll rd _ _ | .srl rd _ _ | .sra rd _ _ | .sllw rd _ _ | .srlw rd _ _
  | .sraw rd _ _ | .slt rd _ _ | .sltu rd _ _ | .addi rd _ _ | .addiw rd _ _ | .xori rd _ _
  | .ori rd _ _ | .andi rd _ _ | .slli rd _ _ | .srli rd _ _ | .srai rd _ _ | .slliw rd _ _
  | .srliw rd _ _ | .sraiw rd _ _ | .slti rd _ _ | .sltiu rd _ _ | .lb rd _ _ | .lh rd _ _
  | .lw rd _ _ | .ld rd _ _ | .lbu rd _ _ | .lhu rd _ _ | .lwu rd _ _ | .jal rd _ | .jalr rd _ _
  | .lui rd _ | .auipc rd _ | .mul rd _ _ | .mulh rd _ _ | .mulsu rd _ _ | .mulu rd _ _
  | .mulw rd _ _ | .div rd _ _ | .divu rd _ _ | .rem rd _ _ | .remu rd _ _ | .divw rd _ _
  | .divuw rd _ _ | .remw rd _ _ | .remuw rd _ _ | .mv rd _ | .li rd _ | .la rd _ | .lbs rd _
  | .lhs rd _ | .lws rd _ | .lds rd _ | .loadStack rd _ | .loadIncomingArg rd _
  | .getStackAddr rd _ => [rd]
  | .sbs _ _ rt | .shs _ _ rt | .sws _ _ rt | .sds _ _ rt | .saveStack _ _ rt
  | .storeOutgoingArg _ _ rt => [rt]
  | .call _ _ => callDefs.map .physical
  | .tail _ _ => []
  | _ => []

/-- `use_regs`. -/
def useRegs : RV64Inst → List Reg
  | .add _ rs1 rs2 | .sub _ rs1 rs2 | .addw _ rs1 rs2 | .subw _ rs1 rs2 | .xor _ rs1 rs2
  | .or _ rs1 rs2 | .and _ rs1 rs2 | .sll _ rs1 rs2 | .srl _ rs1 rs2 | .sra _ rs1 rs2
  | .sllw _ rs1 rs2 | .srlw _ rs1 rs2 | .sraw _ rs1 rs2 | .slt _ rs1 rs2 | .sltu _ rs1 rs2
  | .sb rs1 rs2 _ | .sh rs1 rs2 _ | .sw rs1 rs2 _ | .sd rs1 rs2 _ | .beq rs1 rs2 _
  | .bne rs1 rs2 _ | .blt rs1 rs2 _ | .bge rs1 rs2 _ | .bltu rs1 rs2 _ | .bgeu rs1 rs2 _
  | .mul _ rs1 rs2 | .mulh _ rs1 rs2 | .mulsu _ rs1 rs2 | .mulu _ rs1 rs2 | .mulw _ rs1 rs2
  | .div _ rs1 rs2 | .divu _ rs1 rs2 | .rem _ rs1 rs2 | .remu _ rs1 rs2 | .divw _ rs1 rs2
  | .divuw _ rs1 rs2 | .remw _ rs1 rs2 | .remuw _ rs1 rs2 => [rs1, rs2]
  | .addi _ rs1 _ | .addiw _ rs1 _ | .xori _ rs1 _ | .ori _ rs1 _ | .andi _ rs1 _ | .slli _ rs1 _
  | .srli _ rs1 _ | .srai _ rs1 _ | .slliw _ rs1 _ | .srliw _ rs1 _ | .sraiw _ rs1 _
  | .slti _ rs1 _ | .sltiu _ rs1 _ | .lb _ rs1 _ | .lh _ rs1 _ | .lw _ rs1 _ | .ld _ rs1 _
  | .lbu _ rs1 _ | .lhu _ rs1 _ | .lwu _ rs1 _ | .jalr _ rs1 _ => [rs1]
  | .mv _ rs => [rs]
  | .ret => [.physical .ra, .physical .a0, .physical .a1]
  | .sbs rs _ _ | .shs rs _ _ | .sws rs _ _ | .sds rs _ _ => [rs]
  | .saveStack rs _ _ | .storeOutgoingArg rs _ _ => [.physical .sp, rs]
  | .loadStack _ _ | .loadIncomingArg _ _ | .getStackAddr _ _ => [.physical .sp]
  | .call _ numArgs | .tail _ numArgs => (argRegs.take (min numArgs 8)).map .physical
  | _ => []

/-- `def_conflict_regs`: the scratch register of a store must not be the stored one. -/
def defConflictRegs : RV64Inst → HashMap Reg (List Reg)
  | .saveStack rs _ rt | .storeOutgoingArg rs _ rt => HashMap.collect [(rt, [rs])]
  | _ => ∅

/-- `is_terminator`. -/
def isTerminator : RV64Inst → Bool
  | .beq _ _ _ | .bne _ _ _ | .blt _ _ _ | .bge _ _ _ | .bltu _ _ _ | .bgeu _ _ _ | .jal _ _
  | .jalr _ _ _ | .ret | .tail _ _ => true
  | _ => false

/-- `is_ret`. -/
def isRet : RV64Inst → Bool
  | .ret => true
  | _ => false

/-- `Jalr` is `impossible!()` here. -/
def getSuccessors : RV64Inst → Option (List BlockId)
  | .beq _ _ label | .bne _ _ label | .blt _ _ label | .bge _ _ label | .bltu _ _ label
  | .bgeu _ _ label | .jal _ label => some [label]
  | .jalr _ _ _ => none
  | _ => some []

/-- `is_call`. -/
def isCall : RV64Inst → Bool
  | .call _ _ => true
  | _ => false

/-- `as_move`. -/
def asMove : RV64Inst → Option (Reg × Reg)
  | .mv rd rs => some (rd, rs)
  | .addi rd rs1 imm | .xori rd rs1 imm | .ori rd rs1 imm =>
    if imm = 0 then some (rd, rs1) else none
  | .andi rd rs1 imm => if imm = -1 then some (rd, rs1) else none
  | _ => none

/-- `generate_reg_rewrite!`: the fields `rd` and `rt` are rewritten as definitions, every other
register field as a use. -/
def rewriteVreg (useRewrites defRewrites : HashMap VRegId Reg) : RV64Inst → RV64Inst
  | .add rd rs1 rs2 =>
    .add (rd.rewrite defRewrites) (rs1.rewrite useRewrites) (rs2.rewrite useRewrites)
  | .sub rd rs1 rs2 =>
    .sub (rd.rewrite defRewrites) (rs1.rewrite useRewrites) (rs2.rewrite useRewrites)
  | .addw rd rs1 rs2 =>
    .addw (rd.rewrite defRewrites) (rs1.rewrite useRewrites) (rs2.rewrite useRewrites)
  | .subw rd rs1 rs2 =>
    .subw (rd.rewrite defRewrites) (rs1.rewrite useRewrites) (rs2.rewrite useRewrites)
  | .xor rd rs1 rs2 =>
    .xor (rd.rewrite defRewrites) (rs1.rewrite useRewrites) (rs2.rewrite useRewrites)
  | .or rd rs1 rs2 =>
    .or (rd.rewrite defRewrites) (rs1.rewrite useRewrites) (rs2.rewrite useRewrites)
  | .and rd rs1 rs2 =>
    .and (rd.rewrite defRewrites) (rs1.rewrite useRewrites) (rs2.rewrite useRewrites)
  | .sll rd rs1 rs2 =>
    .sll (rd.rewrite defRewrites) (rs1.rewrite useRewrites) (rs2.rewrite useRewrites)
  | .srl rd rs1 rs2 =>
    .srl (rd.rewrite defRewrites) (rs1.rewrite useRewrites) (rs2.rewrite useRewrites)
  | .sra rd rs1 rs2 =>
    .sra (rd.rewrite defRewrites) (rs1.rewrite useRewrites) (rs2.rewrite useRewrites)
  | .sllw rd rs1 rs2 =>
    .sllw (rd.rewrite defRewrites) (rs1.rewrite useRewrites) (rs2.rewrite useRewrites)
  | .srlw rd rs1 rs2 =>
    .srlw (rd.rewrite defRewrites) (rs1.rewrite useRewrites) (rs2.rewrite useRewrites)
  | .sraw rd rs1 rs2 =>
    .sraw (rd.rewrite defRewrites) (rs1.rewrite useRewrites) (rs2.rewrite useRewrites)
  | .slt rd rs1 rs2 =>
    .slt (rd.rewrite defRewrites) (rs1.rewrite useRewrites) (rs2.rewrite useRewrites)
  | .sltu rd rs1 rs2 =>
    .sltu (rd.rewrite defRewrites) (rs1.rewrite useRewrites) (rs2.rewrite useRewrites)
  | .addi rd rs1 imm => .addi (rd.rewrite defRewrites) (rs1.rewrite useRewrites) imm
  | .addiw rd rs1 imm => .addiw (rd.rewrite defRewrites) (rs1.rewrite useRewrites) imm
  | .xori rd rs1 imm => .xori (rd.rewrite defRewrites) (rs1.rewrite useRewrites) imm
  | .ori rd rs1 imm => .ori (rd.rewrite defRewrites) (rs1.rewrite useRewrites) imm
  | .andi rd rs1 imm => .andi (rd.rewrite defRewrites) (rs1.rewrite useRewrites) imm
  | .slli rd rs1 imm => .slli (rd.rewrite defRewrites) (rs1.rewrite useRewrites) imm
  | .srli rd rs1 imm => .srli (rd.rewrite defRewrites) (rs1.rewrite useRewrites) imm
  | .srai rd rs1 imm => .srai (rd.rewrite defRewrites) (rs1.rewrite useRewrites) imm
  | .slliw rd rs1 imm => .slliw (rd.rewrite defRewrites) (rs1.rewrite useRewrites) imm
  | .srliw rd rs1 imm => .srliw (rd.rewrite defRewrites) (rs1.rewrite useRewrites) imm
  | .sraiw rd rs1 imm => .sraiw (rd.rewrite defRewrites) (rs1.rewrite useRewrites) imm
  | .slti rd rs1 imm => .slti (rd.rewrite defRewrites) (rs1.rewrite useRewrites) imm
  | .sltiu rd rs1 imm => .sltiu (rd.rewrite defRewrites) (rs1.rewrite useRewrites) imm
  | .lb rd rs1 imm => .lb (rd.rewrite defRewrites) (rs1.rewrite useRewrites) imm
  | .lh rd rs1 imm => .lh (rd.rewrite defRewrites) (rs1.rewrite useRewrites) imm
  | .lw rd rs1 imm => .lw (rd.rewrite defRewrites) (rs1.rewrite useRewrites) imm
  | .ld rd rs1 imm => .ld (rd.rewrite defRewrites) (rs1.rewrite useRewrites) imm
  | .lbu rd rs1 imm => .lbu (rd.rewrite defRewrites) (rs1.rewrite useRewrites) imm
  | .lhu rd rs1 imm => .lhu (rd.rewrite defRewrites) (rs1.rewrite useRewrites) imm
  | .lwu rd rs1 imm => .lwu (rd.rewrite defRewrites) (rs1.rewrite useRewrites) imm
  | .sb rs1 rs2 imm => .sb (rs1.rewrite useRewrites) (rs2.rewrite useRewrites) imm
  | .sh rs1 rs2 imm => .sh (rs1.rewrite useRewrites) (rs2.rewrite useRewrites) imm
  | .sw rs1 rs2 imm => .sw (rs1.rewrite useRewrites) (rs2.rewrite useRewrites) imm
  | .sd rs1 rs2 imm => .sd (rs1.rewrite useRewrites) (rs2.rewrite useRewrites) imm
  | .beq rs1 rs2 label => .beq (rs1.rewrite useRewrites) (rs2.rewrite useRewrites) label
  | .bne rs1 rs2 label => .bne (rs1.rewrite useRewrites) (rs2.rewrite useRewrites) label
  | .blt rs1 rs2 label => .blt (rs1.rewrite useRewrites) (rs2.rewrite useRewrites) label
  | .bge rs1 rs2 label => .bge (rs1.rewrite useRewrites) (rs2.rewrite useRewrites) label
  | .bltu rs1 rs2 label => .bltu (rs1.rewrite useRewrites) (rs2.rewrite useRewrites) label
  | .bgeu rs1 rs2 label => .bgeu (rs1.rewrite useRewrites) (rs2.rewrite useRewrites) label
  | .jal rd label => .jal (rd.rewrite defRewrites) label
  | .jalr rd rs1 imm => .jalr (rd.rewrite defRewrites) (rs1.rewrite useRewrites) imm
  | .lui rd imm => .lui (rd.rewrite defRewrites) imm
  | .auipc rd imm => .auipc (rd.rewrite defRewrites) imm
  | .mul rd rs1 rs2 =>
    .mul (rd.rewrite defRewrites) (rs1.rewrite useRewrites) (rs2.rewrite useRewrites)
  | .mulh rd rs1 rs2 =>
    .mulh (rd.rewrite defRewrites) (rs1.rewrite useRewrites) (rs2.rewrite useRewrites)
  | .mulsu rd rs1 rs2 =>
    .mulsu (rd.rewrite defRewrites) (rs1.rewrite useRewrites) (rs2.rewrite useRewrites)
  | .mulu rd rs1 rs2 =>
    .mulu (rd.rewrite defRewrites) (rs1.rewrite useRewrites) (rs2.rewrite useRewrites)
  | .mulw rd rs1 rs2 =>
    .mulw (rd.rewrite defRewrites) (rs1.rewrite useRewrites) (rs2.rewrite useRewrites)
  | .div rd rs1 rs2 =>
    .div (rd.rewrite defRewrites) (rs1.rewrite useRewrites) (rs2.rewrite useRewrites)
  | .divu rd rs1 rs2 =>
    .divu (rd.rewrite defRewrites) (rs1.rewrite useRewrites) (rs2.rewrite useRewrites)
  | .rem rd rs1 rs2 =>
    .rem (rd.rewrite defRewrites) (rs1.rewrite useRewrites) (rs2.rewrite useRewrites)
  | .remu rd rs1 rs2 =>
    .remu (rd.rewrite defRewrites) (rs1.rewrite useRewrites) (rs2.rewrite useRewrites)
  | .divw rd rs1 rs2 =>
    .divw (rd.rewrite defRewrites) (rs1.rewrite useRewrites) (rs2.rewrite useRewrites)
  | .divuw rd rs1 rs2 =>
    .divuw (rd.rewrite defRewrites) (rs1.rewrite useRewrites) (rs2.rewrite useRewrites)
  | .remw rd rs1 rs2 =>
    .remw (rd.rewrite defRewrites) (rs1.rewrite useRewrites) (rs2.rewrite useRewrites)
  | .remuw rd rs1 rs2 =>
    .remuw (rd.rewrite defRewrites) (rs1.rewrite useRewrites) (rs2.rewrite useRewrites)
  | .mv rd rs => .mv (rd.rewrite defRewrites) (rs.rewrite useRewrites)
  | .li rd imm => .li (rd.rewrite defRewrites) imm
  | .ret => .ret
  | .la rd label => .la (rd.rewrite defRewrites) label
  | .nop => .nop
  | .lbs rd symbol => .lbs (rd.rewrite defRewrites) symbol
  | .lhs rd symbol => .lhs (rd.rewrite defRewrites) symbol
  | .lws rd symbol => .lws (rd.rewrite defRewrites) symbol
  | .lds rd symbol => .lds (rd.rewrite defRewrites) symbol
  | .sbs rs symbol rt => .sbs (rs.rewrite useRewrites) symbol (rt.rewrite defRewrites)
  | .shs rs symbol rt => .shs (rs.rewrite useRewrites) symbol (rt.rewrite defRewrites)
  | .sws rs symbol rt => .sws (rs.rewrite useRewrites) symbol (rt.rewrite defRewrites)
  | .sds rs symbol rt => .sds (rs.rewrite useRewrites) symbol (rt.rewrite defRewrites)
  | .call func numArgs => .call func numArgs
  | .tail func numArgs => .tail func numArgs
  | .loadStack rd slot => .loadStack (rd.rewrite defRewrites) slot
  | .saveStack rs slot rt => .saveStack (rs.rewrite useRewrites) slot (rt.rewrite defRewrites)
  | .storeOutgoingArg rs offset rt =>
    .storeOutgoingArg (rs.rewrite useRewrites) offset (rt.rewrite defRewrites)
  | .loadIncomingArg rd offset => .loadIncomingArg (rd.rewrite defRewrites) offset
  | .getStackAddr rd slot => .getStackAddr (rd.rewrite defRewrites) slot

instance : LoweringTarget RV64Reg RV64Inst where
  defRegs := defRegs
  useRegs := useRegs
  defConflictRegs := defConflictRegs
  isTerminator := isTerminator
  isRet := isRet
  getSuccessors := getSuccessors
  rewriteVreg := rewriteVreg
  isCall := isCall
  asMove := asMove
  allocatableRegs := RV64Reg.getAllocatableRegs
  isCalleeSaved := RV64Reg.isCalleeSaved
  wordSize := 8
  emitLoadStackSlot rd slot := .loadStack rd slot
  emitStoreStackSlot rs slot rt := .saveStack rs slot rt

theorem subset_useRegs_of_conflict {rs rt d : Reg} {l us : List Reg}
    (h : (HashMap.collect [(rt, [rs])]).lookup d = some l) (hrs : rs ∈ us) : l ⊆ us := by
  obtain ⟨-, rfl⟩ : d = rt ∧ l = [rs] := by simpa using (HashMap.lookup_collect (by simp)).mp h
  simpa using hrs

instance : LawfulTarget RV64Reg RV64Inst where
  defRegs_rewrite u d i := by cases i <;> rfl
  useRegs_rewrite u d i := by
    cases i with
    | call func numArgs | tail func numArgs =>
      exact (Register.map_rewrite_physical u _).symm
    | _ => rfl
  mem_defConflictRegs {i d l} h := by
    cases i with
    | saveStack rs slot rt =>
      exact subset_useRegs_of_conflict h (List.mem_cons_of_mem _ List.mem_cons_self)
    | storeOutgoingArg rs offset rt =>
      exact subset_useRegs_of_conflict h (List.mem_cons_of_mem _ List.mem_cons_self)
    | _ => cases h
  defConflictRegs_rewrite u d i h := by
    cases i with
    | saveStack rs slot rt => exact absurd h (HashMap.collect_singleton_ne _ _)
    | storeOutgoingArg rs offset rt => exact absurd h (HashMap.collect_singleton_ne _ _)
    | _ => rfl
  isTerminator_rewrite u d i := by cases i <;> rfl
  getSuccessors_rewrite u d i := by cases i <;> rfl
  defRegs_load _ _ := rfl
  useRegs_load _ _ := ⟨.sp, rfl⟩
  defRegs_store _ _ _ := rfl
  useRegs_store _ _ _ := ⟨.sp, rfl⟩
  isTerminator_load _ _ := rfl
  isTerminator_store _ _ _ := rfl
  getSuccessors_load _ _ := rfl
  getSuccessors_store _ _ _ := rfl
  allocatableRegs_nodup := by decide

instance : ReservedStack RV64Reg RV64Inst where
  useRegs_load _ _ _ h := by
    cases List.mem_singleton.mp h
    decide
  useRegs_store _ _ _ _ h := by
    rcases List.mem_cons.mp h with h | h
    · cases h
      decide
    · cases List.mem_singleton.mp h

end RV64Inst

end Mir
