import C0mpiler.Irgen.Unary
import C0mpiler.Ir.UseListRun
import Mathlib

/-!
# Unary operators and casts compute the language's results

The scalar values of the language are integers in the range of their type; `ScalarOp.result` is what
`!`, `-` and `as` give by the rules of the language. The generator holds the value `x` of a type of
`b` bits as `x` modulo `2 ^ b`; a `char` has 8 bits. `visitScalarOp_iff` says on which operands the
emitted code gives the right result.
-/

open Ir Semantics

namespace Irgen

/-! ## The language -/

/-- The values of a type. -/
def IsValue (t : TargetDataLayout) (ty : BuiltInTyKind) (x : Int) : Prop :=
  match ty with
  | .bool => x = 0 ∨ x = 1
  | .char => 0 ≤ x ∧ x ≤ 0x10FFFF ∧ ¬(0xD800 ≤ x ∧ x ≤ 0xDFFF)
  | .i32 | .isize => -2 ^ (scalarBits t ty - 1) ≤ x ∧ x < 2 ^ (scalarBits t ty - 1)
  | .u32 | .usize => 0 ≤ x ∧ x < 2 ^ scalarBits t ty
  | .str => False

def isSignedInteger : BuiltInTyKind → Bool
  | .i32 | .isize => true
  | _ => false

def isIntegerKind : BuiltInTyKind → Bool
  | .i32 | .isize | .u32 | .usize => true
  | _ => false

/-- The value of an integer type that is `x` modulo its size. -/
def wrapTo (t : TargetDataLayout) (ty : BuiltInTyKind) (x : Int) : Int :=
  if isSignedInteger ty then x.bmod (2 ^ scalarBits t ty) else x % 2 ^ scalarBits t ty

namespace ScalarOp

/-- The operands that the analyser accepts. -/
def accepts : ScalarOp → BuiltInTyKind → Bool
  | not, ty => isIntegerKind ty || ty == .bool
  | neg, ty => isSignedInteger ty
  | cast toTy, ty => (isIntegerKind ty || ty == .bool || ty == .char) && isIntegerKind toTy

def resultTy : ScalarOp → BuiltInTyKind → BuiltInTyKind
  | cast toTy, _ => toTy
  | _, ty => ty

/-- The result that the language gives. -/
def result (t : TargetDataLayout) (op : ScalarOp) (ty : BuiltInTyKind) (x : Int) : Int :=
  match op with
  | not => if ty = .bool then 1 - x else wrapTo t ty (-x - 1)
  | neg => wrapTo t ty (-x)
  | cast toTy => wrapTo t toTy x

/-- What the emitted code computes. -/
def eval (t : TargetDataLayout) (op : ScalarOp) (ty : BuiltInTyKind) (v : Val) : Val :=
  let bits := scalarBits t ty
  match op with
  | not => .binary .xor v (.ofInt bits (ModuleCore.notMask bits))
  | neg => .binary .sub (.ofInt bits 0) v
  | cast toTy => IRGenerator.castVal bits (scalarBits t toTy) v

/-- The operands on which that is right. -/
def Right (t : TargetDataLayout) (op : ScalarOp) (ty : BuiltInTyKind) (x : Int) : Prop :=
  match op with
  | not => ¬(t.pointerSize = 8 ∧ (ty = .isize ∨ ty = .usize))
  | neg => True
  | cast toTy => ¬(ty = .char ∧ 256 ≤ x) ∧
    ¬(t.pointerSize = 8 ∧ ty = .i32 ∧ (toTy = .isize ∨ toTy = .usize) ∧ x < 0)

end ScalarOp

/-! ## Arithmetic -/

theorem ofInt_eq_iff {b : Nat} {x y : Int} :
    Val.ofInt b x = Val.ofInt b y ↔ x % 2 ^ b = y % 2 ^ b := by
  have hx : 0 ≤ x % 2 ^ b := Int.emod_nonneg _ (by positivity)
  have hy : 0 ≤ y % 2 ^ b := Int.emod_nonneg _ (by positivity)
  constructor
  · intro h
    have hnat : (x % 2 ^ b).toNat = (y % 2 ^ b).toNat := (Val.int.inj h).2
    omega
  · intro h
    show Val.int b _ = Val.int b _
    rw [h]

theorem ofInt_wrapTo (t : TargetDataLayout) (ty : BuiltInTyKind) (x : Int) :
    Val.ofInt (scalarBits t ty) (wrapTo t ty x) = .ofInt (scalarBits t ty) x := by
  rw [ofInt_eq_iff]
  unfold wrapTo
  split
  · have hbmod := Int.bmod_emod (x := x) (m := 2 ^ scalarBits t ty)
    exact_mod_cast hbmod
  · exact Int.emod_emod_of_dvd x (dvd_refl _)

theorem castVal_narrow {b b' : Nat} (h : b' ≤ b) (x : Int) :
    IRGenerator.castVal b b' (.ofInt b x) = .ofInt b' x := by
  unfold IRGenerator.castVal
  rw [if_neg (by omega)]
  split
  · next heq => rw [heq]
  · have hnonneg : 0 ≤ x % 2 ^ b := Int.emod_nonneg _ (by positivity)
    have hdvd : (2 : Int) ^ b' ∣ 2 ^ b := pow_dvd_pow 2 h
    have hmod : x % 2 ^ b % 2 ^ b' = x % 2 ^ b' := Int.emod_emod_of_dvd x hdvd
    show Val.int b' ((x % 2 ^ b).toNat % 2 ^ b') = Val.int b' (x % 2 ^ b').toNat
    refine congrArg (Val.int b') ?_
    rw [← hmod, Int.toNat_emod hnonneg (by positivity)]
    rfl

theorem castVal_wide_iff {b b' : Nat} (h : b < b') (x : Int) :
    IRGenerator.castVal b b' (.ofInt b x) = .ofInt b' x ↔ x % 2 ^ b = x % 2 ^ b' := by
  have hnonneg : 0 ≤ x % 2 ^ b := Int.emod_nonneg _ (by positivity)
  have hlt : x % 2 ^ b < 2 ^ b' :=
    lt_trans (Int.emod_lt_of_pos _ (by positivity)) (by gcongr; decide)
  have hzext : IRGenerator.castVal b b' (.ofInt b x) = .ofInt b' (x % 2 ^ b) := by
    unfold IRGenerator.castVal
    rw [if_pos h]
    show Val.int b' ((x % 2 ^ b).toNat % 2 ^ b') = Val.int b' (x % 2 ^ b % 2 ^ b').toNat
    refine congrArg (Val.int b') ?_
    rw [Int.toNat_emod hnonneg (by positivity)]
    rfl
  rw [hzext, ofInt_eq_iff, Int.emod_eq_of_lt hnonneg hlt]

theorem sub_zero_ofInt (b : Nat) (x : Int) :
    Val.binary .sub (.ofInt b 0) (.ofInt b x) = .ofInt b (-x) := by
  have hnonneg : 0 ≤ x % 2 ^ b := Int.emod_nonneg _ (by positivity)
  have hsub : Val.binary .sub (.ofInt b 0) (.ofInt b x) = .ofInt b (0 - x % 2 ^ b) := by
    show (if b = b then _ else Val.undef) = _
    rw [if_pos rfl]
    show Val.ofInt b (((0 % 2 ^ b : Int).toNat : Int) - ((x % 2 ^ b).toNat : Int)) = _
    rw [Int.toNat_of_nonneg hnonneg, Int.zero_emod]
    rfl
  rw [hsub, ofInt_eq_iff, zero_sub]
  exact (Int.mod_modEq x (2 ^ b)).neg

theorem xor_ofInt (b : Nat) (x y : Int) :
    Val.binary .xor (.ofInt b x) (.ofInt b y) =
      .int b (BitVec.ofInt b x ^^^ BitVec.ofInt b y).toNat := by
  have hval : ∀ z, Val.ofInt b z = .int b (BitVec.ofInt b z).toNat := fun z => by
    rw [BitVec.toNat_ofInt]
    rfl
  rw [hval, hval, BitVec.toNat_xor]
  show (if b = b then (some (Val.ofNat b (_ ^^^ _))).getD .undef else Val.undef) = _
  rw [if_pos rfl]
  show Val.int b (_ % 2 ^ b) = _
  rw [← BitVec.toNat_xor, Nat.mod_eq_of_lt (BitVec.isLt _)]

/-- Only the mask of all ones flips every bit. -/
theorem xor_ofInt_iff {b : Nat} (x mask : Int) :
    Val.binary .xor (.ofInt b x) (.ofInt b mask) = .ofInt b (-x - 1) ↔
      BitVec.ofInt b mask = BitVec.allOnes b := by
  have hnot : BitVec.ofInt b (-x - 1) = BitVec.ofInt b x ^^^ BitVec.allOnes b := by
    rw [BitVec.xor_allOnes, BitVec.not_eq_neg_add, Int.sub_eq_add_neg, BitVec.ofInt_add,
      BitVec.ofInt_neg, BitVec.ofInt_neg, BitVec.sub_eq_add_neg]
    rfl
  rw [xor_ofInt, show Val.ofInt b (-x - 1) = .int b (BitVec.ofInt b (-x - 1)).toNat by
    rw [BitVec.toNat_ofInt]; rfl, hnot]
  constructor
  · intro h
    exact (BitVec.xor_right_inj _).mp (BitVec.eq_of_toNat_eq (Val.int.inj h).2)
  · intro h
    rw [h]

/-! ## Where the emitted code is right -/

variable {t : TargetDataLayout} {ty : BuiltInTyKind} {x : Int}

theorem eval_not_iff (ht : t = .rv32 ∨ t = .rv64) (hop : ScalarOp.not.accepts ty = true) :
    ScalarOp.not.eval t ty (.ofInt (scalarBits t ty) x) =
      .ofInt (scalarBits t ty) (ScalarOp.not.result t ty x) ↔ ScalarOp.not.Right t ty x := by
  have hresult : Val.ofInt (scalarBits t ty) (ScalarOp.not.result t ty x) =
      .ofInt (scalarBits t ty) (-x - 1) := by
    show Val.ofInt _ (if ty = .bool then 1 - x else wrapTo t ty (-x - 1)) = _
    split
    · next hbool =>
      subst hbool
      rw [ofInt_eq_iff]
      show (1 - x) % 2 = (-x - 1) % 2
      omega
    · exact ofInt_wrapTo t ty _
  rw [hresult]
  refine (xor_ofInt_iff x _).trans ?_
  show _ ↔ ¬(t.pointerSize = 8 ∧ (ty = .isize ∨ ty = .usize))
  rcases ht with rfl | rfl <;> cases ty <;> first | exact absurd hop (by decide) | decide

theorem eval_neg (ty : BuiltInTyKind) (x : Int) :
    ScalarOp.neg.eval t ty (.ofInt (scalarBits t ty) x) =
      .ofInt (scalarBits t ty) (ScalarOp.neg.result t ty x) :=
  (sub_zero_ofInt _ x).trans (ofInt_wrapTo t ty (-x)).symm

theorem eval_cast_iff {toTy : BuiltInTyKind} (ht : t = .rv32 ∨ t = .rv64)
    (hop : (ScalarOp.cast toTy).accepts ty = true) (hx : IsValue t ty x) :
    (ScalarOp.cast toTy).eval t ty (.ofInt (scalarBits t ty) x) =
      .ofInt (scalarBits t toTy) ((ScalarOp.cast toTy).result t ty x) ↔
        (ScalarOp.cast toTy).Right t ty x := by
  have hresult : Val.ofInt (scalarBits t toTy) ((ScalarOp.cast toTy).result t ty x) =
      .ofInt (scalarBits t toTy) x := ofInt_wrapTo t toTy x
  rw [hresult]
  show IRGenerator.castVal _ _ _ = _ ↔ ¬(ty = .char ∧ 256 ≤ x) ∧
    ¬(t.pointerSize = 8 ∧ ty = .i32 ∧ (toTy = .isize ∨ toTy = .usize) ∧ x < 0)
  by_cases hwide : scalarBits t ty < scalarBits t toTy
  · refine (castVal_wide_iff hwide x).trans ?_
    rcases ht with rfl | rfl <;> cases ty <;> cases toTy <;>
      first
      | exact absurd hop (by decide)
      | exact absurd hwide (by decide)
      | simp [scalarBits, TargetDataLayout.rv32, TargetDataLayout.rv64, IsValue] at hx ⊢; omega
  · refine iff_of_true (castVal_narrow (Nat.not_lt.mp hwide) x) ⟨fun h => hwide ?_, fun h => hwide ?_⟩
    · obtain ⟨rfl, -⟩ := h
      rcases ht with rfl | rfl <;> cases toTy <;> first | exact absurd hop (by decide) | decide
    · obtain ⟨hsize, rfl, hto, -⟩ := h
      rcases hto with rfl | rfl <;> exact show 32 < t.pointerSize * 8 by omega

/-- On an accepted operand the emitted code computes the language's result exactly where it is
`Right`. -/
theorem eval_iff (ht : t = .rv32 ∨ t = .rv64) {op : ScalarOp} (hop : op.accepts ty = true)
    (hx : IsValue t ty x) :
    op.eval t ty (.ofInt (scalarBits t ty) x) =
      .ofInt (scalarBits t (op.resultTy ty)) (op.result t ty x) ↔ op.Right t ty x := by
  cases op with
  | not => exact eval_not_iff ht hop
  | neg => exact iff_of_true (eval_neg ty x) trivial
  | cast toTy => exact eval_cast_iff ht hop hx

namespace IRGenerator

variable {g : IRGenerator} {c : CoreValueContainer}

theorem scalarBits_bounds (ht : t = .rv32 ∨ t = .rv64) {op : ScalarOp}
    (hop : op.accepts ty = true) : 1 ≤ scalarBits t ty ∧ scalarBits t ty ≤ 64 := by
  have hstr : ty ≠ .str := by
    rintro rfl
    cases op <;> cases hop
  rcases ht with rfl | rfl <;> cases ty <;> first | exact absurd rfl hstr | decide

/-- The code that is emitted for an operator computes `eval` of the operand. -/
theorem visitScalarOp_computes (hg : g.Ready) (ht : g.target = .rv32 ∨ g.target = .rv64)
    {op : ScalarOp} (hop : op.accepts ty = true) (hc : g.HasBits c (scalarBits g.target ty)) :
    ∃ w g' rs, g.visitScalarOp c op = some (⟨w, .raw none⟩, g') ∧ g.Emits g' [] rs ∧
      g.Computes g'.code rs c w (op.eval g.target ty) := by
  have hbits := scalarBits_bounds ht hop
  cases op with
  | not => exact visitNotExpr_computes hg hc hbits
  | neg => exact visitNegExpr_computes hg hc hbits
  | cast toTy => exact visitCastExpr_computes hg hc _

/-- For every accepted operator and every operand, the code that is emitted runs, leaves the memory
alone and gives a value; that value is the language's result exactly where the operand is `Right`. -/
theorem visitScalarOp_iff (hg : g.Ready) (ht : g.target = .rv32 ∨ g.target = .rv64)
    {op : ScalarOp} (hop : op.accepts ty = true) (hc : g.HasBits c (scalarBits g.target ty)) :
    ∃ w g' rs, g.visitScalarOp c op = some (⟨w, .raw none⟩, g') ∧ g.Emits g' [] rs ∧
      ∀ E s x, IsValue g.target ty x → g.Holds E s c (.ofInt (scalarBits g.target ty) x) →
        ∃ s' v, g'.code.Run E s rs [] s' ∧ s'.mem = s.mem ∧
          g'.code.evalOperand E s'.regs w = some v ∧
          (v = .ofInt (scalarBits g.target (op.resultTy ty)) (op.result g.target ty x) ↔
            op.Right g.target ty x) := by
  obtain ⟨w, g', rs, hrun, hemits, hcomputes⟩ := visitScalarOp_computes hg ht hop hc
  refine ⟨w, g', rs, hrun, hemits, fun E s x hx hholds => ?_⟩
  obtain ⟨s', hsteps, hmem, hv⟩ := hcomputes E s _ hholds
  exact ⟨s', _, hsteps, hmem, hv, eval_iff ht hop hx⟩

/-! ## A 32-bit argument made wider -/

theorem entryBlock_func : (1 : FunctionId) = (⟨1, 1⟩ : BlockRef).func := rfl

/-- A function for RV64 whose argument is a 32-bit integer. -/
def argGenerator : IRGenerator where
  target := .rv64
  module := (runEdits [.createFunction "f" ⟨.void, []⟩, .appendArg 1 (.int 32) none]).getD .new
  builder := ⟨1, ⟨1, 1⟩, .atEnd, entryBlock_func⟩
  allocaBuilder := ⟨1, ⟨1, 1⟩, .front, entryBlock_func⟩

theorem argGenerator_ready : argGenerator.Ready := ⟨rfl, rfl, rfl, rfl⟩

def argOperand : CoreValueContainer := ⟨.arg ⟨1, 1⟩, .raw none⟩

/-- A call with the argument `n`. -/
def argEnv (n : Nat) : Env := ⟨.rv64, fun _ => 0, fun _ => some (.int 32 n)⟩

def argState : State := ⟨fun _ => none, fun _ _ => none⟩

theorem visitScalarOp_iff_u32 : ∃ w g' rs,
    argGenerator.visitScalarOp argOperand (.cast .usize) = some (⟨w, .raw none⟩, g') ∧
      ∃ s', g'.code.Run (argEnv 4000000000) argState rs [] s' ∧
        g'.code.evalOperand (argEnv 4000000000) s'.regs w = some (.int 64 4000000000) := by
  have hu32 : (ScalarOp.cast .usize).accepts .u32 = true := rfl
  obtain ⟨w, g', rs, hrun, -, hall⟩ :=
    visitScalarOp_iff (c := argOperand) argGenerator_ready (Or.inr rfl) hu32 rfl
  obtain ⟨s', v, hsteps, -, hv, hiff⟩ :=
    hall (argEnv 4000000000) argState 4000000000 ⟨by decide, by decide⟩ rfl
  have hright : v = .int 64 4000000000 :=
    hiff.mpr ⟨fun h => absurd h.1 (by decide), fun h => absurd h.2.1 (by decide)⟩
  exact ⟨w, g', rs, hrun, s', hsteps, hright ▸ hv⟩

/-- `-1i32 as isize` is 4294967295. -/
theorem visitScalarOp_cast_wrong : ∃ w g' rs,
    argGenerator.visitScalarOp argOperand (.cast .isize) = some (⟨w, .raw none⟩, g') ∧
      ∃ s', g'.code.Run (argEnv 4294967295) argState rs [] s' ∧
        g'.code.evalOperand (argEnv 4294967295) s'.regs w = some (.int 64 4294967295) ∧
        Val.ofInt 32 (-1) = .int 32 4294967295 ∧
        Val.ofInt 64 ((ScalarOp.cast .isize).result .rv64 .i32 (-1)) ≠ .int 64 4294967295 := by
  have hi32 : (ScalarOp.cast .isize).accepts .i32 = true := rfl
  obtain ⟨w, g', rs, hrun, -, hcomputes⟩ :=
    visitScalarOp_computes (c := argOperand) argGenerator_ready (Or.inr rfl) hi32 rfl
  obtain ⟨s', hsteps, -, hv⟩ := hcomputes (argEnv 4294967295) argState (.int 32 4294967295) rfl
  exact ⟨w, g', rs, hrun, s', hsteps, hv, by decide, by decide⟩

end IRGenerator

end Irgen
