import C0mpiler.Mir.BranchRelax
import C0mpiler.Mir.LowerGep
import Mathlib

/-!
# Constants and addresses agree

The image of a constant is built by concatenation and padding (`lower_constant`), the address of an
element by a walk over strides and field offsets (`getelementptr`). The two agree on every path:
the code of a `getelementptr` adds the offset of its path, and the bytes at that offset of the
image are those of the element. Offsets are `i32` immediates, so the code is refused, or wrong,
beyond two gigabytes.
-/

namespace Mir

open Ir (ModuleCore ValueId InstRef ConstId ConstKind CoreInt Ty TargetDataLayout TypeLayout
  layoutOf)
open ByteImage

variable {R I : Type} {w : Nat} [DecidableEq R] [MachineSemantics R w I]
  (t : TargetDataLayout) (m : ModuleCore) (symbols : HashMap String SymbolId)
  (S : FunctionLoweringState) (sym : SymbolId → BitVec w) (ρ : Regs R I w)

/-- The operands behind the first one stand for the indices of a path; the index of a field is a
constant. -/
def IndicesHold : Ty → List Nat → List ValueId → Prop
  | _, [], [] => True
  | .array elemTy _, i :: path, v :: indices =>
    IndexHolds m symbols S sym ρ v i ∧ IndicesHold elemTy path indices
  | .struct fieldTys _, i :: path, v :: indices =>
    (∃ number, constInt m v = some (some number) ∧ number.asU64 = i) ∧
      ∀ fieldTy, fieldTys[i]? = some fieldTy → IndicesHold fieldTy path indices
  | _, _, _ => False

/-- The immediates along a path fit into an `i32`. -/
def ImmediatesFit : Ty → List Nat → List ValueId → Prop
  | .array elemTy _, i :: path, v :: indices =>
    (∀ elem, layoutOf t elemTy = some elem →
      indexImmediate m elem.layout.stride v i < 2 ^ 31) ∧ ImmediatesFit elemTy path indices
  | .struct fieldTys packed, i :: path, _ :: indices =>
    (∀ l s field, layoutOf t (.struct fieldTys packed) = some l → l.shape.asStruct = some s →
      s.fields[i]? = some field → field.offset < 2 ^ 31) ∧
      ∀ fieldTy, fieldTys[i]? = some fieldTy → ImmediatesFit fieldTy path indices
  | _, _, _ => True

variable {t m symbols S sym ρ} {ρ' : Regs R I w} {e e' : Emitter I} {base : Register R}

omit [DecidableEq R] in
/-- An index is read in the registers of the values. -/
theorem IndexHolds.congr {v : ValueId} {i : Nat}
    (hregs : ∀ v r, S.vregForValue v = some r → ρ'.get (.virtual r) = ρ.get (.virtual r))
    (h : IndexHolds m symbols S sym ρ v i) : IndexHolds m symbols S sym ρ' v i := by
  cases h with
  | const hconst hi => exact .const hconst hi
  | register hconst hvalue hzext hwidened =>
    refine .register hconst ?_ hzext fun value hvalue' => ?_
    · rw [operandValue_congr hregs, hvalue]
    · rw [operandValue_congr hregs]
      exact hwidened value hvalue'

omit [DecidableEq R] in
/-- So are all of them. -/
theorem IndicesHold.congr {ty : Ty} {path : List Nat} {indices : List ValueId}
    (hregs : ∀ v r, S.vregForValue v = some r → ρ'.get (.virtual r) = ρ.get (.virtual r))
    (h : IndicesHold m symbols S sym ρ ty path indices) :
    IndicesHold m symbols S sym ρ' ty path indices := by
  induction path generalizing ty indices with
  | nil =>
    cases indices with
    | nil => trivial
    | cons v indices => exact absurd h (by simp [IndicesHold])
  | cons i path ih =>
    cases indices with
    | nil => cases ty <;> exact absurd h (by simp [IndicesHold])
    | cons v indices =>
      cases ty with
      | array elemTy len => exact ⟨h.1.congr hregs, ih h.2⟩
      | struct fieldTys packed => exact ⟨h.1, fun fieldTy hty => ih (h.2 fieldTy hty)⟩
      | _ => exact h.elim

variable [LawfulMachine R w I]

/-- The loop over the indices adds the offset of the path. -/
theorem lowerIndices_adds {ty : Ty} {path : List Nat} {indices : List ValueId} {off : Nat}
    (hindices : IndicesHold m symbols S sym ρ ty path indices)
    (hfit : ImmediatesFit t m ty path indices) (hoff : pathOffset t ty path = some off)
    (hbase : OldReg e.vregCounter base) (hS : S.Below e.vregCounter) :
    ∃ r e', lowerIndices t m symbols S ty indices base e = some (r, e') ∧
      Adds sym e ρ base off r e' := by
  induction path generalizing ty indices off base e ρ with
  | nil =>
    cases hoff
    cases indices with
    | nil => exact ⟨base, e, by cases ty <;> rfl, .zero hbase⟩
    | cons v indices => exact absurd hindices (by simp [IndicesHold])
  | cons i path ih =>
    cases indices with
    | nil => cases ty <;> exact absurd hindices (by simp [IndicesHold])
    | cons v indices =>
      -- an array adds the index times the stride of its elements
      cases ty with
      | array elemTy len =>
        obtain ⟨elem, helem, hoff⟩ := Option.bind_eq_some_iff.mp hoff
        obtain ⟨off', hoff', hoff⟩ := Option.bind_eq_some_iff.mp hoff
        cases hoff
        obtain ⟨r₁, e₁, hstep, ρ₁, hemits₁, hold₁, hget₁⟩ :=
          emitAddOffset_adds hindices.1 (hfit.1 elem helem) hbase hS
        have hregs : ∀ v r, S.vregForValue v = some r →
            ρ₁.get (.virtual r) = ρ.get (.virtual r) :=
          fun v r hr => hemits₁.get_old (hS v r hr) List.not_mem_nil
        obtain ⟨r, e', hrest, ρ', hemits, hold, hget⟩ := ih (hindices.2.congr hregs) hfit.2 hoff'
          hold₁ (hS.mono hemits₁.counter_le)
        refine ⟨r, e', ?_, ρ', hemits₁.trans hemits, hold, ?_⟩
        · simp only [lowerIndices, layoutOf, helem, Ir.LayoutShape.asArray, Option.bind_eq_bind,
            Option.bind_some, hstep]
          exact hrest
        · rw [hget, hget₁, BitVec.add_assoc, BitVec.ofNat_add]
      -- a struct adds the offset of the field
      | struct fieldTys packed =>
        obtain ⟨l, hl, hoff⟩ := Option.bind_eq_some_iff.mp hoff
        obtain ⟨s, hs, hoff⟩ := Option.bind_eq_some_iff.mp hoff
        obtain ⟨field, hfield, hoff⟩ := Option.bind_eq_some_iff.mp hoff
        obtain ⟨fieldTy, hty, hoff⟩ := Option.bind_eq_some_iff.mp hoff
        obtain ⟨off', hoff', hoff⟩ := Option.bind_eq_some_iff.mp hoff
        cases hoff
        obtain ⟨⟨number, hnumber, hi⟩, hrest⟩ := hindices
        obtain ⟨ρ₁, hemits₁, hold₁, hget₁⟩ : Adds sym e ρ base field.offset _ _ :=
          emitAddField_adds (hfit.1 l s field hl hs hfield) hbase
        have hregs : ∀ v r, S.vregForValue v = some r →
            ρ₁.get (.virtual r) = ρ.get (.virtual r) :=
          fun v r hr => hemits₁.get_old (hS v r hr) List.not_mem_nil
        obtain ⟨r, e', hlower, ρ', hemits, hold, hget⟩ := ih ((hrest fieldTy hty).congr hregs)
          (hfit.2 fieldTy hty) hoff' hold₁ (hS.mono hemits₁.counter_le)
        refine ⟨r, e', ?_, ρ', hemits₁.trans hemits, hold, ?_⟩
        · simp only [lowerIndices, hl, hs, hnumber, hi, hfield, hty, Option.bind_eq_bind,
            Option.bind_some]
          exact hlower
        · rw [hget, hget₁, BitVec.add_assoc, BitVec.ofNat_add]
      | _ => exact hindices.elim

/-- The code of a `getelementptr` whose first index is zero leaves the address of the part its path
leads to in the register of the instruction. -/
theorem lowerGetElementPtr_offset {ty : Ty} {l : TypeLayout} {baseValue first : ValueId}
    {inst : InstRef} {x : BitVec w} {path : List Nat} {indices : List ValueId} {off : Nat}
    (hl : layoutOf t ty = some l) (hS : S.Below e.vregCounter)
    (hbase : operandValue m symbols S sym ρ baseValue = some x)
    (hfirst : IndexHolds m symbols S sym ρ first 0)
    (hfirstFit : indexImmediate m l.layout.stride first 0 < 2 ^ 31)
    (hindices : IndicesHold m symbols S sym ρ ty path indices)
    (hfit : ImmediatesFit t m ty path indices) (hoff : pathOffset t ty path = some off) :
    ∃ rd S' e' ρ', lowerGetElementPtr t m symbols S ty baseValue (first :: indices) inst e =
        some (rd, S', e') ∧ Emits sym [.virtual rd] e e' ρ ρ' ∧
      ρ'.get (.virtual rd) = x + .ofNat w off := by
  obtain ⟨r₀, e₀, ρ₀, hlower, hemits₀, hold₀, hget₀⟩ := lowerOperand_value hbase hS
  have hregs₀ : ∀ v r, S.vregForValue v = some r → ρ₀.get (.virtual r) = ρ.get (.virtual r) :=
    fun v r hr => hemits₀.get_old (hS v r hr) List.not_mem_nil
  have hS₀ := hS.mono hemits₀.counter_le
  obtain ⟨r₁, e₁, hstep, ρ₁, hemits₁, hold₁, hget₁⟩ :=
    emitAddOffset_adds (hfirst.congr hregs₀) hfirstFit hold₀ hS₀
  have hregs₁ : ∀ v r, S.vregForValue v = some r → ρ₁.get (.virtual r) = ρ₀.get (.virtual r) :=
    fun v r hr => hemits₁.get_old (hS₀ v r hr) List.not_mem_nil
  obtain ⟨r, e₂, hrest, ρ₂, hemits₂, hold₂, hget₂⟩ :=
    lowerIndices_adds ((hindices.congr hregs₀).congr hregs₁) hfit hoff hold₁
      (hS₀.mono hemits₁.counter_le)
  have hemits := (hemits₀.trans hemits₁).trans hemits₂
  have hget : ρ₂.get r = x + .ofNat w off := by
    rw [hget₂, hget₁, hget₀, Nat.zero_mul]
    simp
  -- the result has a register of its own, which the address is moved to unless it is there already
  obtain ⟨rd, S', e₃, hensure, hemits₃⟩ : ∃ rd S' e₃, ensureInstVreg S inst e₂ = (rd, S', e₃) ∧
      Emits sym [.virtual rd] e e₃ ρ ρ₂ := by
    unfold ensureInstVreg
    split
    · exact ⟨_, _, _, rfl, hemits.widen _⟩
    · exact ⟨_, _, _, rfl, (hemits.widen _).newVreg⟩
  have hresult : lowerGetElementPtr t m symbols S ty baseValue (first :: indices) inst e =
      some (rd, S', if r = .virtual rd then e₃ else e₃.push (mv (.virtual rd) r)) := by
    simp only [lowerGetElementPtr, hlower, hl, hstep, hrest, hensure, Option.bind_eq_bind,
      Option.bind_some]
  by_cases heq : r = .virtual rd
  · rw [if_pos heq] at hresult
    exact ⟨rd, S', e₃, ρ₂, hresult, hemits₃, heq ▸ hget⟩
  · rw [if_neg heq] at hresult
    refine ⟨rd, S', _, _, hresult, hemits₃.push (Or.inl (List.mem_singleton.mpr rfl))
      (LawfulMachine.alu_mv (I := I) (.virtual rd) r _ sym), ?_⟩
    rw [RegFile.get_set_virtual, hget]

/-- The element of a path is an integer constant. -/
def Element.IsInt (m : ModuleCore) (el : Element) (number : CoreInt) : Prop :=
  ∃ c d, el = .const c ∧ m.constData c = some d ∧ d.ty = .int number.bitWidth ∧
    d.kind = .int number ∧ number.Wf

variable (symbols S sym) in
/-- A constant of a type with a layout is lowered to as many bytes as the type has, and for every
path into it, the bytes at the offset that the code of the `getelementptr` of the path adds to its
base are those of the element reached. -/
theorem getElementPtr_reaches_constant {c : ConstId} {ty : Ty} {l : TypeLayout}
    (htyped : ConstTyped m c ty) (hl : layoutOf t ty = some l) :
    ∃ image, (∃ n, ∀ fuel ≥ n, lowerConstant t m fuel ty (some c) = some image) ∧
      image.length = l.layout.size ∧
      ∀ path el, elementAt m c path = some el →
        ∃ off bytes, el.Bytes t m bytes ∧ off + bytes.length ≤ image.length ∧
          (image.drop off).take bytes.length = bytes ∧
          (∀ number, el.IsInt m number →
            Nat.ofDigits 256 (bytes.map UInt8.toNat) % 2 ^ number.bitWidth = number.value) ∧
          ∀ (e : Emitter I) (ρ : Regs R I w) (x : BitVec w) (baseValue first : ValueId)
            (indices : List ValueId) (inst : InstRef), S.Below e.vregCounter →
            operandValue m symbols S sym ρ baseValue = some x →
            IndexHolds m symbols S sym ρ first 0 →
            indexImmediate m l.layout.stride first 0 < 2 ^ 31 →
            IndicesHold m symbols S sym ρ ty path indices →
            ImmediatesFit t m ty path indices →
            ∃ rd S' e' ρ',
              lowerGetElementPtr t m symbols S ty baseValue (first :: indices) inst e =
                some (rd, S', e') ∧
              Emits sym [.virtual rd] e e' ρ ρ' ∧ ρ'.get (.virtual rd) = x + .ofNat w off := by
  obtain ⟨image, himage⟩ := htyped.hasImage hl
  refine ⟨image, himage.lowerConstant hl, himage.length, fun path el hel => ?_⟩
  obtain ⟨off, bytes, hoff, hbytes, hstands⟩ := himage.element path el hel
  refine ⟨off, bytes, hbytes, hstands.length_le, hstands.take_drop, ?_, ?_⟩
  · rintro number ⟨c', d, rfl, hd, hty, hkind, hwf⟩
    exact ImageOf.int_value hbytes hd hty hkind hwf
  · intro e ρ x baseValue first indices inst hS hbase hfirst hfirstFit hindices hfit
    exact lowerGetElementPtr_offset hl hS hbase hfirst hfirstFit hindices hfit hoff

/-! ## A table, and one that is too large -/

omit [DecidableEq R] [MachineSemantics R w I] [LawfulMachine R w I] in
/-- A number is typed. -/
theorem constTyped_int {c : ConstId} (number : CoreInt) (hwf : number.Wf)
    (hd : m.constData c = some ⟨.int number.bitWidth, .int number, []⟩) :
    ConstTyped m c (.int number.bitWidth) :=
  .int hd rfl rfl hwf

omit [DecidableEq R] [LawfulMachine R w I] in
/-- A constant index. -/
theorem indexHolds_int {v : ValueId} {i : Nat} (number : CoreInt)
    (hv : constInt m v = some (some number)) (hi : number.asI64 = i) :
    IndexHolds m symbols S sym ρ v i :=
  .const hv hi

/-- Nothing is below the first counter. -/
theorem below_new (c : Nat) : FunctionLoweringState.new.Below c := by
  intro v r hr
  cases hr

namespace Table

/-- `{ i8, [i16; 2] }` with the elements 7, 1 and 513; then the indices 0 and 1, and null. -/
def table : ModuleCore :=
  { ModuleCore.new with
    consts := (((((((SlotMap.empty.insert ⟨.int 8, .int ⟨7, 8⟩, []⟩).insert
      ⟨.int 16, .int ⟨1, 16⟩, []⟩).insert
      ⟨.int 16, .int ⟨513, 16⟩, []⟩).insert
      ⟨.array (.int 16) 2, .array [2, 3], []⟩).insert
      ⟨.struct [.int 8, .array (.int 16) 2] false, .struct [1, 4], []⟩).insert
      ⟨.int 32, .int ⟨0, 32⟩, []⟩).insert ⟨.int 32, .int ⟨1, 32⟩, []⟩).insert ⟨.ptr, .null, []⟩ }

/-- The type of the example: a byte and two half words. -/
def tableTy : Ty := .struct [.int 8, .array (.int 16) 2] false

/-- The example is typed. -/
theorem table_typed : ConstTyped table 5 tableTy := by
  have hseven : ConstTyped table 1 (.int 8) :=
    constTyped_int ⟨7, 8⟩ ⟨by decide, by decide, by decide⟩ rfl
  have hone : ConstTyped table 2 (.int 16) :=
    constTyped_int ⟨1, 16⟩ ⟨by decide, by decide, by decide⟩ rfl
  have hlarge : ConstTyped table 3 (.int 16) :=
    constTyped_int ⟨513, 16⟩ ⟨by decide, by decide, by decide⟩ rfl
  have harray : ConstTyped table 4 (.array (.int 16) 2) :=
    .array (d := ⟨_, .array [2, 3], []⟩) rfl rfl rfl rfl (by simp [hone, hlarge])
  refine .struct (d := ⟨_, .struct [1, 4], []⟩) rfl rfl rfl rfl fun i f ty hf hty => ?_
  match i with
  | 0 =>
    cases hf
    cases hty
    exact hseven
  | 1 =>
    cases hf
    cases hty
    exact harray
  | i + 2 => cases hf

/-- The code for field 1, element 1, on the 64-bit target. -/
def code : Option (VRegId × FunctionLoweringState × Emitter RV64Inst) :=
  lowerGetElementPtr .rv64 table ∅ .new tableTy (.const 8) [.const 6, .const 7, .const 7] ⟨1, 1⟩
    ⟨[], 0⟩

theorem getElementPtr_reaches_513 : ∃ image n rd S' e' bytes,
    ∃ ρ' : Regs RV64Reg RV64Inst 64,
      lowerConstant .rv64 table n tableTy (some 5) = some image ∧ image.length = 6 ∧
      code = some (rd, S', e') ∧
      (image.drop (ρ'.get (.virtual rd)).toNat).take bytes.length = bytes ∧
      Nat.ofDigits 256 (bytes.map UInt8.toNat) % 2 ^ 16 = 513 := by
  obtain ⟨image, ⟨n, hn⟩, hlen, hall⟩ := getElementPtr_reaches_constant (I := RV64Inst)
    (t := .rv64) ∅ .new (fun _ => 0) table_typed rfl
  obtain ⟨off, bytes, -, hle, hread, hvalue, hcode⟩ := hall [1, 1] (.const 3) rfl
  have hlen6 : image.length = 6 := hlen
  obtain ⟨rd, S', e', ρ', hlower, -, hget⟩ := hcode ⟨[], 0⟩ ⟨fun _ => 0, rfl⟩ 0 (.const 8)
    (.const 6) [.const 7, .const 7] ⟨1, 1⟩ (below_new 0) rfl (indexHolds_int ⟨0, 32⟩ rfl (by decide))
    (by decide)
    ⟨⟨⟨1, 32⟩, rfl, rfl⟩, fun fieldTy hty => by
      cases hty
      exact ⟨indexHolds_int ⟨1, 32⟩ rfl (by decide), trivial⟩⟩
    ⟨fun l s field hl hs hfield => by cases hl; cases hs; cases hfield; decide,
      fun fieldTy hty => by
        cases hty
        exact ⟨fun elem helem => by cases helem; decide, trivial⟩⟩
  have hoff : (ρ'.get (.virtual rd)).toNat = off := by
    rw [hget, zero_add, BitVec.toNat_ofNat]
    exact Nat.mod_eq_of_lt (by omega)
  refine ⟨image, n, rd, S', e', bytes, ρ', hn n le_rfl, hlen6, hlower, ?_, ?_⟩
  · rw [hoff, hread]
  · exact hvalue ⟨513, 16⟩ ⟨3, _, rfl, rfl, rfl, rfl, by decide, by decide, by decide⟩

end Table

namespace HugeTable

/-- A row of `hugeTable`. -/
def zeros : List ConstId :=
  List.replicate (2 ^ 30) 1

/-- `[[i8; 1 << 30]; 3]`, all zeros; then the indices 0 and 2, and null. -/
def hugeTable : ModuleCore :=
  { ModuleCore.new with
    consts := (((((SlotMap.empty.insert ⟨.int 8, .int ⟨0, 8⟩, []⟩).insert
      ⟨.array (.int 8) (2 ^ 30), .array zeros, []⟩).insert
      ⟨.array (.array (.int 8) (2 ^ 30)) 3, .array [2, 2, 2], []⟩).insert
      ⟨.int 32, .int ⟨0, 32⟩, []⟩).insert ⟨.int 32, .int ⟨2, 32⟩, []⟩).insert ⟨.ptr, .null, []⟩ }

/-- Three rows of `2 ^ 30` bytes each. -/
def hugeTableTy : Ty := .array (.array (.int 8) (2 ^ 30)) 3

/-- The example is typed. -/
theorem hugeTable_typed : ConstTyped hugeTable 3 hugeTableTy := by
  have hzero : ConstTyped hugeTable 1 (.int 8) :=
    constTyped_int ⟨0, 8⟩ ⟨by decide, by decide, by decide⟩ rfl
  have hrow : ConstTyped hugeTable 2 (.array (.int 8) (2 ^ 30)) :=
    .array (d := ⟨_, .array zeros, []⟩) rfl rfl rfl List.length_replicate fun e he => by
      rw [List.eq_of_mem_replicate he]
      exact hzero
  refine .array (d := ⟨_, .array [2, 2, 2], []⟩) rfl rfl rfl rfl fun e he => ?_
  obtain rfl : e = 2 := by simpa using he
  exact hrow

/-- The third row of a table of three gigabytes, a well-typed constant whose size is a `u32`, is an
element of it at an offset that is no `i32`: its `getelementptr` is not lowered. -/
theorem getElementPtr_refused : ∃ (l : TypeLayout) (ρ : Regs RV64Reg RV64Inst 64),
    ConstTyped hugeTable 3 hugeTableTy ∧ layoutOf .rv64 hugeTableTy = some l ∧
      l.layout.size < 2 ^ 32 ∧
      (∃ el, elementAt hugeTable 3 [2] = some el) ∧ FunctionLoweringState.new.Below 0 ∧
      operandValue hugeTable ∅ .new (fun _ => 0) ρ (.const 6) = some 0 ∧
      IndexHolds hugeTable ∅ .new (fun _ => 0) ρ (.const 4) 0 ∧
      IndicesHold hugeTable ∅ .new (fun _ => 0) ρ hugeTableTy [2] [.const 5] ∧
      lowerGetElementPtr (I := RV64Inst) .rv64 hugeTable ∅ .new hugeTableTy (.const 6)
        [.const 4, .const 5] ⟨1, 1⟩ ⟨[], 0⟩ = none :=
  ⟨_, ⟨fun _ => 0, rfl⟩, hugeTable_typed, rfl, by decide, ⟨_, rfl⟩, below_new 0, rfl,
    indexHolds_int ⟨0, 32⟩ rfl (by decide), ⟨indexHolds_int ⟨2, 32⟩ rfl (by decide), trivial⟩, rfl⟩

end HugeTable

end Mir
