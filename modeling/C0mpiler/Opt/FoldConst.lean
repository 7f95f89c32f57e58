import C0mpiler.Data.LowBits
import C0mpiler.Ir.IntArith
import C0mpiler.Opt.Algebraic
import Mathlib

/-!
# Constants as bit vectors

A constant of `n` bits is a bit vector of `n` bits, and the operations of `CoreInt` on constants are
those of bit vectors: the instructions' own (`intBinary`, `intICmp`). Only a signed division whose
quotient does not fit is told apart, and that at 64 bits alone: below, the quotient is computed in an
`i64`, where it fits.
-/

namespace Ir

namespace CoreInt

/-- The constant with the bits of a bit vector. -/
def ofBitVec {n : Nat} (x : BitVec n) : CoreInt := ⟨x.toNat, n⟩

variable {n : Nat}

theorem wf_ofBitVec (hn : 1 ≤ n ∧ n ≤ 64) (x : BitVec n) : (ofBitVec x).Wf :=
  ⟨hn.1, hn.2, x.isLt⟩

/-! ## Constructors and conversions -/

theorem new_eq_ofBitVec (hn : 1 ≤ n ∧ n ≤ 64) (value : Nat) :
    new value n = some (ofBitVec (.ofNat n value)) := by
  rw [new_eq_some hn, ofBitVec, BitVec.toNat_ofNat, Nat.mod_mod_of_dvd _ (pow_dvd_pow 2 hn.2)]

theorem new_toNat {m : Nat} (hn : 1 ≤ n ∧ n ≤ 64) (x : BitVec m) :
    new x.toNat n = some (ofBitVec (x.setWidth n)) := by
  rw [new_eq_ofBitVec hn, BitVec.ofNat_toNat]

theorem ofNat_u64OfInt (hn : n ≤ 64) (value : Int) :
    BitVec.ofNat n (u64OfInt value) = .ofInt n value := by
  have hdvd : ((2 ^ n : Nat) : Int) ∣ 2 ^ 64 := by
    rw [Nat.cast_pow]
    exact pow_dvd_pow 2 hn
  have hnonneg : 0 ≤ value % 2 ^ 64 := Int.emod_nonneg _ (by decide)
  refine BitVec.eq_of_toNat_eq ?_
  rw [BitVec.toNat_ofNat, BitVec.toNat_ofInt, u64OfInt]
  zify
  rw [Int.toNat_of_nonneg hnonneg, Int.toNat_of_nonneg (Int.emod_nonneg _ (by positivity))]
  push_cast at hdvd ⊢
  exact Int.emod_emod_of_dvd _ hdvd

theorem fromSigned_eq_ofBitVec (hn : 1 ≤ n ∧ n ≤ 64) (value : Int) :
    fromSigned value n = some (ofBitVec (.ofInt n value)) := by
  rw [fromSigned, new_eq_ofBitVec hn, ofNat_u64OfInt hn.2]

/-- `as_i64` is the number in two's complement. -/
theorem asI64_ofBitVec (hn : 2 ≤ n) (hle : n ≤ 64) (x : BitVec n) : (ofBitVec x).asI64 = x.toInt := by
  have hwf := wf_ofBitVec ⟨by omega, hle⟩ x
  have htwo : 2 ^ n = 2 * 2 ^ (n - 1) := hwf.two_pow
  rw [hwf.asI64_eq (show n ≠ 1 by omega), BitVec.toInt_eq_toNat_cond]
  show (if 2 ^ (n - 1) ≤ x.toNat then (x.toNat : Int) - 2 ^ n else x.toNat) = _
  by_cases hlow : x.toNat < 2 ^ (n - 1)
  · rw [if_neg (Nat.not_le.mpr hlow), if_pos (by omega)]
  · rw [if_pos (Nat.le_of_not_lt hlow), if_neg (by omega)]
    push_cast
    rfl

/-- The sign bit is copied into the upper bits. -/
theorem signExtend_ofBitVec {m : Nat} (hm : 1 ≤ m) (hmn : m ≤ n) (hn : n ≤ 64) (x : BitVec m) :
    signExtend (ofBitVec x) n = some (ofBitVec (x.signExtend n)) := by
  have hwidth : 1 ≤ n ∧ n ≤ 64 := ⟨by omega, hn⟩
  rw [signExtend, if_neg (show ¬n < (ofBitVec x).bitWidth from Nat.not_lt.mpr hmn)]
  by_cases heq : n = m
  · subst heq
    rw [if_pos (show n = (ofBitVec x).bitWidth from rfl), BitVec.signExtend_eq]
  rw [if_neg (show n ≠ (ofBitVec x).bitWidth from heq)]
  -- the code tests the top bit by a mask
  have hbit : (ofBitVec x).value.testBit ((ofBitVec x).bitWidth - 1) = x.msb := by
    rw [BitVec.msb_eq_getLsbD_last, ← BitVec.testBit_toNat]
    rfl
  rw [hbit]
  cases hmsb : x.msb with
  | false =>
    rw [if_neg Bool.false_ne_true, BitVec.signExtend_eq_setWidth_of_msb_false hmsb]
    exact new_toNat hwidth x
  -- the high bits that are set are those above the old width
  | true =>
    have hpow : 2 ^ m ≤ 2 ^ n := Nat.pow_le_pow_right Nat.two_pos hmn
    have hsplit : 2 ^ 64 = 2 ^ n * (2 ^ (64 - n) - 1) + 2 ^ n := by
      rw [← Nat.mul_succ, Nat.succ_eq_add_one, Nat.sub_add_cancel Nat.one_le_two_pow, ← pow_add,
        Nat.add_sub_cancel' hn]
    have hvalue : x.toNat + (2 ^ 64 - 2 ^ m) =
        x.toNat + (2 ^ n - 2 ^ m) + 2 ^ n * (2 ^ (64 - n) - 1) := by
      have hle : 2 ^ n ≤ 2 ^ 64 := Nat.pow_le_pow_right Nat.two_pos hn
      omega
    have hlt := x.isLt
    rw [if_pos rfl, new_eq_ofBitVec hwidth]
    refine congrArg (fun y : BitVec n => some (ofBitVec y)) (BitVec.eq_of_toNat_eq ?_)
    show (BitVec.ofNat n (x.toNat + (2 ^ 64 - 2 ^ m))).toNat = _
    rw [hvalue, BitVec.toNat_ofNat, Nat.add_mul_mod_self_left, BitVec.toNat_signExtend,
      BitVec.toNat_setWidth, Nat.mod_eq_of_lt (show x.toNat < 2 ^ n by omega), hmsb, if_pos rfl,
      Nat.mod_eq_of_lt (by omega)]

/-! ## Operations -/

section Operations

variable (x y : BitVec n)

/-- The widths agree, so an operation runs what comes behind the assertion. -/
theorem assert_ofBitVec {α : Type} (k : Unit → Option α) :
    ((ofBitVec x).assertSameBitWidth (ofBitVec y) >>= k) = k () := by
  have hassert : (ofBitVec x).assertSameBitWidth (ofBitVec y) = some () := if_pos rfl
  rw [hassert]
  rfl

variable (hn : 1 ≤ n ∧ n ≤ 64)

include hn

/-- An operation that always has a result. -/
theorem assert_new {value : Nat} {z : BitVec n} (h : BitVec.ofNat n value = z) :
    ((ofBitVec x).assertSameBitWidth (ofBitVec y) >>= fun _ => new value n).map some =
      some (some (ofBitVec z)) := by
  rw [assert_ofBitVec, new_eq_ofBitVec hn, h]
  rfl

/-- An operation that has no result on some operands. -/
theorem assert_checked {value : Nat} {p : Prop} [Decidable p] {z : BitVec n}
    (h : ¬p → BitVec.ofNat n value = z) :
    ((ofBitVec x).assertSameBitWidth (ofBitVec y) >>= fun _ =>
        if p then pure none else do pure (some (← new value n))) =
      some ((if p then none else some z).map ofBitVec) := by
  rw [assert_ofBitVec]
  split
  · rfl
  · next hp =>
    rw [new_eq_ofBitVec hn, h hp]
    rfl

theorem checkedSdiv_ofBitVec (htwo : 2 ≤ n) : (ofBitVec x).checkedSdiv (ofBitVec y) =
    some ((if DivOverflows x.toInt y.toInt then none else some (x.sdiv y)).map ofBitVec) := by
  rw [checkedSdiv, asI64_ofBitVec htwo hn.2, asI64_ofBitVec htwo hn.2, LowBits.sdiv_eq_ofInt]
  exact assert_checked x y hn fun _ => ofNat_u64OfInt hn.2 _

theorem checkedSrem_ofBitVec (htwo : 2 ≤ n) : (ofBitVec x).checkedSrem (ofBitVec y) =
    some ((if DivOverflows x.toInt y.toInt then none else some (x.srem y)).map ofBitVec) := by
  have hrem : x.srem y = .ofInt n (x.toInt.tmod y.toInt) := by
    rw [← BitVec.toInt_srem, BitVec.ofInt_toInt]
  rw [checkedSrem, asI64_ofBitVec htwo hn.2, asI64_ofBitVec htwo hn.2, hrem]
  exact assert_checked x y hn fun _ => ofNat_u64OfInt hn.2 _

theorem checkedAshr_ofBitVec : (ofBitVec x).checkedAshr (ofBitVec y) =
    some ((if n ≤ y.toNat then none else some (x.sshiftRight y.toNat)).map ofBitVec) := by
  refine assert_checked x y hn fun hlt => ?_
  rw [ofNat_u64OfInt hn.2]
  by_cases htwo : 2 ≤ n
  · rw [asI64_ofBitVec htwo hn.2]
    rfl
  · -- a single bit is shifted by zero
    have hone : n = 1 := by omega
    have hzero : y.toNat = 0 := by
      have hlt' : ¬n ≤ y.toNat := hlt
      omega
    show BitVec.ofInt n ((ofBitVec x).asI64 >>> y.toNat) = _
    rw [hzero, BitVec.sshiftRight_zero, Int.shiftRight_zero, asI64,
      if_pos (show (ofBitVec x).bitWidth = 1 from hone)]
    exact (BitVec.ofInt_natCast ..).trans ((BitVec.ofNat_toNat ..).trans (BitVec.setWidth_eq x))

end Operations

end CoreInt

namespace ModuleCore

open CoreInt

variable {n : Nat}

theorem intBinary_shift {op : BinaryOpcode} (hop : op.isShift = true) (x y : BitVec n) :
    intBinary op x y = intShift op x y.toNat :=
  if_pos hop

theorem intBinary_arith {op : BinaryOpcode} (hop : op.isShift = false) (x y : BitVec n) :
    intBinary op x y = intArith op x y := by
  rw [intBinary, if_neg (ne_true_of_eq_false hop), if_pos rfl, BitVec.setWidth_eq]

/-- Every operation but a signed division is the instruction's. -/
theorem foldBinaryConst_ofBitVec (hn : 1 ≤ n ∧ n ≤ 64) {op : BinaryOpcode} (hsdiv : op ≠ .sdiv)
    (hsrem : op ≠ .srem) (x y : BitVec n) :
    foldBinaryConst op (ofBitVec x) (ofBitVec y) = some ((intBinary op x y).map ofBitVec) := by
  have hself : ∀ z : BitVec n, BitVec.ofNat n z.toNat = z := fun z => by
    rw [BitVec.ofNat_toNat, BitVec.setWidth_eq]
  -- `new` masks the result; the cases differ in the number that is masked
  cases op with
  | add =>
    rw [intBinary_arith rfl]
    refine assert_new x y hn ?_
    show BitVec.ofNat n (x.toNat + y.toNat) = x + y
    rw [BitVec.ofNat_add, hself, hself]
  | sub =>
    rw [intBinary_arith rfl]
    refine assert_new x y hn ?_
    show BitVec.ofNat n (u64OfInt (x.toNat - y.toNat)) = x - y
    rw [ofNat_u64OfInt hn.2, Int.sub_eq_add_neg, BitVec.ofInt_add, BitVec.ofInt_neg,
      BitVec.ofInt_natCast, BitVec.ofInt_natCast, hself, hself, BitVec.sub_eq_add_neg]
  | mul =>
    rw [intBinary_arith rfl]
    refine assert_new x y hn ?_
    show BitVec.ofNat n (x.toNat * y.toNat) = x * y
    rw [BitVec.ofNat_mul, hself, hself]
  | and => rw [intBinary_arith rfl]; exact assert_new x y hn (hself (x &&& y))
  | or => rw [intBinary_arith rfl]; exact assert_new x y hn (hself (x ||| y))
  | xor => rw [intBinary_arith rfl]; exact assert_new x y hn (hself (x ^^^ y))
  -- a zero divisor is refused by `checked_udiv`
  | udiv =>
    have hzero : y = 0 ↔ y.toNat = 0 := BitVec.toNat_inj.symm
    rw [intBinary_arith rfl, intArith, if_congr hzero rfl rfl]
    refine assert_checked x y hn fun _ => ?_
    exact hself (x / y)
  | urem =>
    have hzero : y = 0 ↔ y.toNat = 0 := BitVec.toNat_inj.symm
    rw [intBinary_arith rfl, intArith, if_congr hzero rfl rfl]
    refine assert_checked x y hn fun _ => ?_
    exact hself (x % y)
  -- a shift by the width or more is refused
  | shl =>
    rw [intBinary_shift rfl, intShift, ← ite_not, if_congr Nat.not_lt rfl rfl]
    refine assert_checked x y hn fun _ => ?_
    refine BitVec.eq_of_toNat_eq ?_
    rw [BitVec.toNat_ofNat, BitVec.toNat_shiftLeft]
    rfl
  | lshr =>
    rw [intBinary_shift rfl, intShift, ← ite_not, if_congr Nat.not_lt rfl rfl]
    refine assert_checked x y hn fun _ => ?_
    exact hself (x >>> y.toNat)
  | ashr =>
    rw [intBinary_shift rfl, intShift, ← ite_not, if_congr Nat.not_lt rfl rfl]
    exact checkedAshr_ofBitVec x y hn
  | sdiv => exact absurd rfl hsdiv
  | srem => exact absurd rfl hsrem

/-- The quotient of a signed division fits. -/
def QuotientFits (x y : BitVec n) : Prop :=
  -2 ^ (n - 1) ≤ x.toInt.tdiv y.toInt ∧ x.toInt.tdiv y.toInt < 2 ^ (n - 1)

instance (x y : BitVec n) : Decidable (QuotientFits x y) :=
  inferInstanceAs (Decidable (_ ∧ _))

/-- A signed division or remainder that has no result where the quotient does not fit. -/
def checkedDivision (op : BinaryOpcode) (x y : BitVec n) : Option (BitVec n) :=
  if QuotientFits x y then intBinary op x y else none

theorem toInt_neg_one (hn : 1 ≤ n) : (-1#n).toInt = -1 := by
  rw [BitVec.neg_one_eq_allOnes, BitVec.toInt_allOnes, if_pos (show 0 < n from hn)]

/-- The quotient fits, except that of the least number by `-1`. -/
theorem quotientFits_iff (hn : 1 ≤ n) (x y : BitVec n) :
    QuotientFits x y ↔ ¬(x = .intMin n ∧ y = -1#n) := by
  constructor
  · rintro ⟨-, hlt⟩ ⟨rfl, rfl⟩
    rw [BitVec.toInt_intMin_of_pos hn, toInt_neg_one hn, Int.tdiv_neg, Int.tdiv_one, neg_neg] at hlt
    exact lt_irrefl _ hlt
  · intro hne
    have hquotient := BitVec.toInt_sdiv_of_ne_or_ne x y (not_and_or.mp hne)
    rw [QuotientFits, ← hquotient]
    exact ⟨BitVec.le_toInt _, BitVec.toInt_lt⟩

theorem toInt_eq_neg_one_iff (hn : 1 ≤ n) (y : BitVec n) : y.toInt = -1 ↔ y = -1#n := by
  rw [← toInt_neg_one hn, BitVec.toInt_inj]

/-- `i64::checked_div` has no result for a divisor of zero, and at 64 bits for a quotient that does
not fit. -/
theorem divOverflows_iff (hn : 1 ≤ n ∧ n ≤ 64) (x y : BitVec n) :
    DivOverflows x.toInt y.toInt ↔ y = 0 ∨ n = 64 ∧ x = .intMin n ∧ y = -1#n := by
  have hzero : y.toInt = 0 ↔ y = 0 := by
    rw [show (0 : Int) = (0 : BitVec n).toInt from BitVec.toInt_zero.symm, BitVec.toInt_inj]
  rw [DivOverflows, hzero, toInt_eq_neg_one_iff hn.1]
  refine or_congr Iff.rfl ?_
  rw [← and_assoc]
  refine and_congr_left fun _ => ⟨fun hx => ?_, fun ⟨h64, hx⟩ => ?_⟩
  · have hle := BitVec.le_toInt x
    have hpow : (2 : Int) ^ 63 ≤ 2 ^ (n - 1) := by omega
    have hexp : 63 ≤ n - 1 := (pow_le_pow_iff_right₀ one_lt_two).mp hpow
    have h64 : n = 64 := by omega
    refine ⟨h64, ?_⟩
    rw [← BitVec.toInt_inj, BitVec.toInt_intMin_of_pos hn.1, hx, h64]
  · rw [hx, BitVec.toInt_intMin_of_pos hn.1, h64]

/-- A signed division has no result exactly where the divisor is zero or the quotient does not fit,
except that below 64 bits the least number can be divided by `-1`. -/
theorem foldDivision_iff (hn : 2 ≤ n) (hle : n ≤ 64) {op : BinaryOpcode}
    (hop : op = .sdiv ∨ op = .srem) (x y : BitVec n) :
    foldBinaryConst op (ofBitVec x) (ofBitVec y) = some ((checkedDivision op x y).map ofBitVec) ↔
      n = 64 ∨ ¬(x = .intMin n ∧ y = -1#n) := by
  have hwidth : 1 ≤ n ∧ n ≤ 64 := ⟨by omega, hle⟩
  have hrun : ∃ z, foldBinaryConst op (ofBitVec x) (ofBitVec y) =
      some ((if DivOverflows x.toInt y.toInt then none else some z).map ofBitVec) ∧
      intBinary op x y = if y = 0 then none else some z := by
    rcases hop with rfl | rfl
    · exact ⟨_, checkedSdiv_ofBitVec x y hwidth hn, intBinary_arith rfl x y⟩
    · exact ⟨_, checkedSrem_ofBitVec x y hwidth hn, intBinary_arith rfl x y⟩
  obtain ⟨z, hfold, hinst⟩ := hrun
  rw [hfold, checkedDivision, hinst, if_congr (quotientFits_iff hwidth.1 x y) rfl rfl,
    if_congr (divOverflows_iff hwidth x y) rfl rfl]
  -- the one overflow: the least value by minus one
  by_cases hmin : x = .intMin n ∧ y = -1#n
  · have hy : y ≠ 0 := by
      rw [hmin.2]
      intro hzero
      have hint := congrArg BitVec.toInt hzero
      rw [(toInt_eq_neg_one_iff hwidth.1 _).mpr rfl] at hint
      simp at hint
    rw [if_neg (not_not.mpr hmin)]
    constructor
    · intro heq
      by_contra hnot
      rw [if_neg (fun h => h.elim hy fun h64 => hnot (Or.inl h64.1))] at heq
      cases heq
    -- in 64 bits `checked_div` refuses it, as the instruction does
    · rintro (h64 | hnot)
      · rw [if_pos (Or.inr ⟨h64, hmin⟩)]
      · exact absurd hmin hnot
  · rw [if_pos hmin, if_congr (or_iff_left fun h => hmin h.2) rfl rfl]
    exact ⟨fun _ => Or.inr hmin, fun _ => rfl⟩

/-- A one-bit integer is divided as an unsigned one. -/
theorem foldDivision_bit {op : BinaryOpcode} (hop : op = .sdiv ∨ op = .srem) (x y : BitVec 1) :
    foldBinaryConst op (ofBitVec x) (ofBitVec y) = some none ↔ y = 0 := by
  rcases hop with rfl | rfl <;> revert x y <;> decide

/-! ## Comparisons -/

def signedCode : ICmpCode → Bool
  | .sgt | .sge | .slt | .sle => true
  | _ => false

/-- A comparison is the instruction's. -/
theorem foldICmpConst_ofBitVec (hle : n ≤ 64) {op : ICmpCode} (hop : signedCode op = true → 2 ≤ n)
    (x y : BitVec n) :
    foldICmpConst op (ofBitVec x) (ofBitVec y) = some (intICmp op x y) := by
  cases op with
  | eq =>
    refine (assert_ofBitVec x y _).trans (congrArg some ?_)
    exact decide_eq_decide.mpr BitVec.toNat_inj
  | ne =>
    have heq : cmpEq (ofBitVec x) (ofBitVec y) = some (decide (x.toNat = y.toNat)) :=
      assert_ofBitVec x y _
    show cmpNe (ofBitVec x) (ofBitVec y) = _
    rw [cmpNe, heq]
    refine congrArg some ?_
    rw [← decide_not]
    exact decide_eq_decide.mpr (not_congr BitVec.toNat_inj)
  | ugt | ult => exact assert_ofBitVec x y _
  | uge | ule =>
    refine (assert_ofBitVec x y _).trans (congrArg some ?_)
    rw [intICmp, BitVec.ult, ← decide_not]
    exact decide_eq_decide.mpr Nat.not_lt.symm
  | sgt | slt =>
    refine (assert_ofBitVec x y _).trans (congrArg some ?_)
    rw [asI64_ofBitVec (hop rfl) hle, asI64_ofBitVec (hop rfl) hle]
    rfl
  | sge | sle =>
    refine (assert_ofBitVec x y _).trans (congrArg some ?_)
    rw [asI64_ofBitVec (hop rfl) hle, asI64_ofBitVec (hop rfl) hle, intICmp, BitVec.slt, ← decide_not]
    exact decide_eq_decide.mpr Int.not_lt.symm

/-! ## All of them -/

/-- Integers of `n` bits are bit vectors. -/
structure FixedWidth (n : Nat) : Prop where
  new : ∀ value, CoreInt.new value n = some (ofBitVec (.ofNat n value))
  fromSigned : ∀ value, CoreInt.fromSigned value n = some (ofBitVec (.ofInt n value))
  asU64 : ∀ x : BitVec n, (ofBitVec x).asU64 = x.toNat
  asI64 : 2 ≤ n → ∀ x : BitVec n, (ofBitVec x).asI64 = x.toInt
  truncTo : ∀ {m} (x : BitVec m), n ≤ m → (ofBitVec x).truncTo n = some (ofBitVec (x.setWidth n))
  zeroExtend : ∀ {m} (x : BitVec m), m ≤ n →
    (ofBitVec x).zeroExtend n = some (ofBitVec (x.setWidth n))
  signExtend : ∀ {m} (x : BitVec m), 1 ≤ m → m ≤ n →
    (ofBitVec x).signExtend n = some (ofBitVec (x.signExtend n))
  binary : ∀ op, op ≠ .sdiv → op ≠ .srem → ∀ x y : BitVec n,
    foldBinaryConst op (ofBitVec x) (ofBitVec y) = some ((intBinary op x y).map ofBitVec)
  division : ∀ op, op = .sdiv ∨ op = .srem → 2 ≤ n → ∀ x y : BitVec n,
    foldBinaryConst op (ofBitVec x) (ofBitVec y) = some ((checkedDivision op x y).map ofBitVec) ↔
      n = 64 ∨ ¬(x = .intMin n ∧ y = -1#n)
  bitDivision : ∀ op, op = .sdiv ∨ op = .srem → n = 1 → ∀ x y : BitVec n,
    foldBinaryConst op (ofBitVec x) (ofBitVec y) = some none ↔ y = 0
  compare : ∀ op, (signedCode op = true → 2 ≤ n) → ∀ x y : BitVec n,
    foldICmpConst op (ofBitVec x) (ofBitVec y) = some (intICmp op x y)

theorem fixedWidth {n : Nat} (hn : 1 ≤ n) (hle : n ≤ 64) : FixedWidth n where
  new := new_eq_ofBitVec ⟨hn, hle⟩
  fromSigned := fromSigned_eq_ofBitVec ⟨hn, hle⟩
  asU64 _ := rfl
  asI64 htwo := asI64_ofBitVec htwo hle
  truncTo x hm := (if_pos hm).trans (new_toNat ⟨hn, hle⟩ x)
  zeroExtend x hm := (if_pos hm).trans (new_toNat ⟨hn, hle⟩ x)
  signExtend x hm hmn := signExtend_ofBitVec hm hmn hle x
  binary _ hsdiv hsrem := foldBinaryConst_ofBitVec ⟨hn, hle⟩ hsdiv hsrem
  division _ hop htwo := foldDivision_iff htwo hle hop
  bitDivision _ hop hone x y := by
    subst hone
    exact foldDivision_bit hop x y
  compare _ hop := foldICmpConst_ofBitVec hle hop

/-- At 32 bits. -/
theorem fixedWidth_i32 : foldBinaryConst .sdiv (ofBitVec (-7#32)) (ofBitVec 2#32) =
    some (some (ofBitVec (-3#32))) :=
  ((fixedWidth (by decide : 1 ≤ 32) (by decide)).division .sdiv (Or.inl rfl) (by decide) _ _).mpr
    (Or.inr (by decide))

/-- At 8 bits the least number divided by `-1` is itself, at 64 bits it has no result. -/
theorem foldDivision_min :
    ¬QuotientFits (.intMin 8) (-1#8) ∧
      foldBinaryConst .sdiv (ofBitVec (.intMin 8)) (ofBitVec (-1#8)) =
        some (some (ofBitVec (.intMin 8))) ∧
      foldBinaryConst .sdiv (ofBitVec (.intMin 64)) (ofBitVec (-1#64)) = some none := by
  decide

end ModuleCore

end Ir
