import Mathlib

/-!
# The low bits of an operation on words

What an operation on words of `w` bits does to their low `b` bits: addition, multiplication, the
bitwise operations and the shift to the left read no more than the low bits of their operands, the
others need an operand that is extended from `b` bits, by zeros or by the sign.
-/

namespace LowBits

variable {b w : Nat}

/-- `x` extended to a word. -/
def extend (w : Nat) (signed : Bool) (x : BitVec b) : BitVec w :=
  if signed then x.signExtend w else x.setWidth w

/-- The low bits of a word stand for the same number modulo `2 ^ b`. -/
theorem setWidth_eq_ofInt (z : BitVec w) (h : b ≤ w) : z.setWidth b = .ofInt b z.toInt := by
  apply BitVec.eq_of_toInt_eq
  have hdvd : ((2 ^ b : Nat) : Int) ∣ ((2 ^ w : Nat) : Int) := by
    exact_mod_cast pow_dvd_pow 2 h
  rw [BitVec.toInt_setWidth, BitVec.toInt_ofInt, BitVec.toInt_eq_toNat_bmod]
  exact (Int.bmod_bmod_of_dvd (by exact_mod_cast hdvd)).symm

theorem ofInt_congr {i j : Int} (h : i ≡ j [ZMOD 2 ^ b]) : BitVec.ofInt b i = BitVec.ofInt b j := by
  apply BitVec.eq_of_toInt_eq
  have hmod : i % ((2 ^ b : Nat) : Int) = j % ((2 ^ b : Nat) : Int) := by exact_mod_cast h
  rw [BitVec.toInt_ofInt, BitVec.toInt_ofInt, ← Int.emod_bmod i, hmod, Int.emod_bmod]

theorem ofInt_bmod (i : Int) (h : b ≤ w) :
    BitVec.ofInt b (i.bmod (2 ^ w)) = BitVec.ofInt b i := by
  apply BitVec.eq_of_toInt_eq
  rw [BitVec.toInt_ofInt, BitVec.toInt_ofInt]
  exact Int.bmod_bmod_of_dvd (by exact_mod_cast pow_dvd_pow 2 h)

theorem setWidth_ofInt (i : Int) (h : b ≤ w) : (BitVec.ofInt w i).setWidth b = BitVec.ofInt b i := by
  rw [setWidth_eq_ofInt _ h, BitVec.toInt_ofInt, ofInt_bmod i h]

theorem setWidth_signExtend (x : BitVec b) (h : b ≤ w) : (x.signExtend w).setWidth b = x := by
  rw [setWidth_eq_ofInt _ h, BitVec.toInt_signExtend_of_le h, BitVec.ofInt_toInt]

theorem setWidth_extend (signed : Bool) (x : BitVec b) (h : b ≤ w) :
    (extend w signed x).setWidth b = x := by
  cases signed with
  | true => exact setWidth_signExtend x h
  | false => exact (BitVec.setWidth_setWidth_of_le x h).trans (BitVec.setWidth_eq x)

/-! ## Operations that read low bits only -/

theorem setWidth_sub (x y : BitVec w) (h : b ≤ w) :
    (x - y).setWidth b = x.setWidth b - y.setWidth b := by
  rw [BitVec.sub_eq_add_neg, BitVec.setWidth_add _ _ h, BitVec.setWidth_neg_of_le h,
    ← BitVec.sub_eq_add_neg]

/-! ## Operations on extended operands -/

theorem toNat_setWidth_le (x : BitVec b) (h : b ≤ w) : (x.setWidth w).toNat = x.toNat :=
  BitVec.toNat_setWidth_of_le h

theorem setWidth_udiv (x y : BitVec b) (h : b ≤ w) :
    (x.setWidth w / y.setWidth w).setWidth b = x / y := by
  apply BitVec.eq_of_toNat_eq
  rw [BitVec.toNat_setWidth, BitVec.toNat_udiv, BitVec.toNat_udiv, toNat_setWidth_le x h,
    toNat_setWidth_le y h]
  exact Nat.mod_eq_of_lt (lt_of_le_of_lt (Nat.div_le_self _ _) x.isLt)

theorem setWidth_umod (x y : BitVec b) (h : b ≤ w) :
    (x.setWidth w % y.setWidth w).setWidth b = x % y := by
  apply BitVec.eq_of_toNat_eq
  rw [BitVec.toNat_setWidth, BitVec.toNat_umod, BitVec.toNat_umod, toNat_setWidth_le x h,
    toNat_setWidth_le y h]
  exact Nat.mod_eq_of_lt (lt_of_le_of_lt (Nat.mod_le _ _) x.isLt)

theorem setWidth_sdiv (x y : BitVec b) (h : b ≤ w) :
    ((x.signExtend w).sdiv (y.signExtend w)).setWidth b = x.sdiv y := by
  rw [setWidth_eq_ofInt _ h, BitVec.toInt_sdiv, ofInt_bmod _ h, BitVec.toInt_signExtend_of_le h,
    BitVec.toInt_signExtend_of_le h, ← ofInt_bmod _ le_rfl, ← BitVec.toInt_sdiv,
    BitVec.ofInt_toInt]

theorem setWidth_srem (x y : BitVec b) (h : b ≤ w) :
    ((x.signExtend w).srem (y.signExtend w)).setWidth b = x.srem y := by
  rw [setWidth_eq_ofInt _ h, BitVec.toInt_srem, BitVec.toInt_signExtend_of_le h,
    BitVec.toInt_signExtend_of_le h, ← BitVec.toInt_srem, BitVec.ofInt_toInt]

theorem setWidth_ushiftRight (x : BitVec b) (n : Nat) (h : b ≤ w) :
    ((x.setWidth w) >>> n).setWidth b = x >>> n := by
  apply BitVec.eq_of_toNat_eq
  rw [BitVec.toNat_setWidth, BitVec.toNat_ushiftRight, BitVec.toNat_ushiftRight,
    toNat_setWidth_le x h]
  exact Nat.mod_eq_of_lt (lt_of_le_of_lt (Nat.shiftRight_le _ _) x.isLt)

theorem setWidth_sshiftRight (x : BitVec b) (n : Nat) (h : b ≤ w) :
    ((x.signExtend w).sshiftRight n).setWidth b = x.sshiftRight n := by
  rw [setWidth_eq_ofInt _ h, BitVec.toInt_sshiftRight, BitVec.toInt_signExtend_of_le h,
    ← BitVec.toInt_sshiftRight, BitVec.ofInt_toInt]

/-! ## Comparisons of extended operands -/

theorem extend_inj (signed : Bool) {x y : BitVec b} (h : b ≤ w) :
    extend w signed x = extend w signed y ↔ x = y := by
  refine ⟨fun heq => ?_, fun heq => heq ▸ rfl⟩
  rw [← setWidth_extend signed x h, heq, setWidth_extend signed y h]

theorem ult_setWidth (x y : BitVec b) (h : b ≤ w) : (x.setWidth w).ult (y.setWidth w) = x.ult y := by
  rw [BitVec.ult_eq_decide, BitVec.ult_eq_decide, toNat_setWidth_le x h, toNat_setWidth_le y h]

theorem slt_signExtend (x y : BitVec b) (h : b ≤ w) :
    (x.signExtend w).slt (y.signExtend w) = x.slt y := by
  rw [BitVec.slt_eq_decide, BitVec.slt_eq_decide, BitVec.toInt_signExtend_of_le h,
    BitVec.toInt_signExtend_of_le h]

/-! ## Zeros and signs in from the left -/

/-- A mask keeps the low bits. -/
theorem and_mask (z : BitVec w) (h : b ≤ w) :
    z &&& BitVec.ofNat w (2 ^ b - 1) = (z.setWidth b).setWidth w := by
  apply BitVec.eq_of_toNat_eq
  have hle : 2 ^ b ≤ 2 ^ w := Nat.pow_le_pow_right (by decide) h
  have hpos : 0 < 2 ^ b := Nat.two_pow_pos b
  rw [BitVec.toNat_and, BitVec.toNat_ofNat, Nat.mod_eq_of_lt (by omega), Nat.and_two_pow_sub_one_eq_mod,
    toNat_setWidth_le _ h, BitVec.toNat_setWidth]

theorem shiftLeft_ushiftRight (z : BitVec w) (h : b ≤ w) :
    (z <<< (w - b)) >>> (w - b) = (z.setWidth b).setWidth w := by
  apply BitVec.eq_of_toNat_eq
  have hsplit : 2 ^ w = 2 ^ b * 2 ^ (w - b) := by rw [← pow_add, Nat.add_sub_cancel' h]
  rw [BitVec.toNat_ushiftRight, BitVec.toNat_shiftLeft, toNat_setWidth_le _ h, BitVec.toNat_setWidth,
    Nat.shiftLeft_eq, Nat.shiftRight_eq_div_pow, hsplit, Nat.mul_mod_mul_right,
    Nat.mul_div_cancel _ (Nat.two_pow_pos _)]

theorem shiftLeft_sshiftRight (z : BitVec w) (hpos : 0 < b) (h : b ≤ w) :
    (z <<< (w - b)).sshiftRight (w - b) = (z.setWidth b).signExtend w := by
  apply BitVec.eq_of_getLsbD_eq
  intro i hi
  have hmsb : (z <<< (w - b)).msb = z.getLsbD (b - 1) := by
    rw [BitVec.msb_eq_getLsbD_last, BitVec.getLsbD_shiftLeft]
    have hlast : w - 1 - (w - b) = b - 1 := by omega
    simp [hlast, show w - 1 < w by omega, show ¬ w - 1 < w - b by omega]
  have hmsb' : (z.setWidth b).msb = z.getLsbD (b - 1) := by
    rw [BitVec.msb_eq_getLsbD_last, BitVec.getLsbD_setWidth]
    simp [hpos]
  rw [BitVec.getLsbD_sshiftRight, BitVec.getLsbD_signExtend, hmsb, hmsb', BitVec.getLsbD_shiftLeft,
    BitVec.getLsbD_setWidth]
  by_cases hib : i < b
  · simp [hi, hib, show w - b + i < w by omega, show w - b + i - (w - b) = i by omega]
  · simp [hi, hib, show ¬ w - b + i < w by omega]

/-! ## Division by a power of two, rounding towards zero -/

/-- The bias that makes a shift to the right round towards zero. -/
def bias (x : Int) (k : Nat) : Int :=
  if x < 0 then 2 ^ k - 1 else 0

theorem tdiv_two_pow (x : Int) (k : Nat) : x.tdiv (2 ^ k) = (x + bias x k) / 2 ^ k := by
  have hpos : (0 : Int) < 2 ^ k := by positivity
  unfold bias
  split
  · next hneg =>
    have hneg' : (-x).tdiv (2 ^ k) = -x / 2 ^ k := Int.tdiv_eq_ediv_of_nonneg (by omega)
    rw [Int.neg_tdiv] at hneg'
    have hx : x.tdiv (2 ^ k) = -(-x / 2 ^ k) := by omega
    have hlo := Int.ediv_mul_le (-x) hpos.ne'
    have hhi := Int.lt_ediv_add_one_mul_self (-x) hpos
    rw [hx]
    refine ((Int.ediv_eq_iff_of_pos hpos).mpr ⟨?_, ?_⟩).symm <;> linarith
  · next hnonneg =>
    rw [Int.add_zero]
    exact Int.tdiv_eq_ediv_of_nonneg (Int.not_lt.mp hnonneg)

/-- The bias as it is computed: copies of the sign bit, all but `k` of them shifted out. -/
theorem sign_ushiftRight {x : BitVec w} {s k : Nat} (hlo : -2 ^ s ≤ x.toInt) (hhi : x.toInt < 2 ^ s)
    (hk : k < w) : (x.sshiftRight s) >>> (w - k) = BitVec.ofInt w (bias x.toInt k) := by
  have hpos : (0 : Int) < 2 ^ s := by positivity
  -- the shift leaves the sign in every bit
  have hsign : (x.sshiftRight s).toInt = if x.toInt < 0 then -1 else 0 := by
    rw [BitVec.toInt_sshiftRight, Int.shiftRight_eq_div_pow]
    push_cast
    split
    · next hneg => exact (Int.ediv_eq_iff_of_pos hpos).mpr ⟨by linarith, by linarith⟩
    · next hnonneg => exact Int.ediv_eq_zero_of_lt (Int.not_lt.mp hnonneg) hhi
  unfold bias
  split
  -- all bits set, of which `k` stay
  · next hneg =>
    rw [if_pos hneg] at hsign
    have hones : x.sshiftRight s = BitVec.allOnes w := by
      apply BitVec.eq_of_toInt_eq
      rw [hsign, BitVec.toInt_allOnes, if_pos (by omega)]
    have hpow : 2 ^ w = 2 ^ k * 2 ^ (w - k) := by
      rw [← pow_add, Nat.add_sub_cancel' hk.le]
    have hcast : ((2 : Int) ^ k - 1) = ((2 ^ k - 1 : Nat) : Int) := by
      rw [Nat.cast_sub (Nat.two_pow_pos k)]
      push_cast
      rfl
    have hlt : 2 ^ k - 1 < 2 ^ w :=
      (Nat.sub_le _ _).trans_lt (Nat.pow_lt_pow_right (by decide) hk)
    apply BitVec.eq_of_toNat_eq
    rw [hones, hcast, BitVec.ofInt_natCast, BitVec.toNat_ushiftRight, BitVec.toNat_allOnes,
      BitVec.toNat_ofNat, Nat.mod_eq_of_lt hlt, Nat.shiftRight_eq_div_pow, hpow]
    have hdiv : 0 < 2 ^ (w - k) := Nat.two_pow_pos _
    refine Nat.div_eq_of_lt_le ?_ ?_
    · rw [Nat.sub_mul, Nat.one_mul]
      exact Nat.sub_le_sub_left hdiv _
    · rw [Nat.sub_add_cancel (Nat.two_pow_pos k)]
      exact Nat.sub_lt (Nat.mul_pos (Nat.two_pow_pos k) hdiv) Nat.one_pos
  -- no bit set
  · next hnonneg =>
    rw [if_neg hnonneg] at hsign
    have hzero : x.sshiftRight s = 0#w := BitVec.eq_of_toInt_eq (by rw [hsign, BitVec.toInt_zero])
    rw [hzero]
    simp

/-- The bias does not overflow. -/
theorem toInt_add_bias (x : BitVec w) {k : Nat} (hk : k < w) :
    (x + BitVec.ofInt w (bias x.toInt k)).toInt = x.toInt + bias x.toInt k := by
  have hlo := BitVec.le_toInt x
  have hhi := BitVec.toInt_lt (x := x)
  have hpow : (2 : Int) ^ k ≤ 2 ^ (w - 1) := pow_le_pow_right₀ (by decide) (by omega)
  have hpos : (0 : Int) < 2 ^ k := by positivity
  have hbias : -2 ^ (w - 1) ≤ x.toInt + bias x.toInt k ∧ x.toInt + bias x.toInt k < 2 ^ (w - 1) := by
    unfold bias
    split <;> constructor <;> linarith
  have hsum : x + BitVec.ofInt w (bias x.toInt k) = BitVec.ofInt w (x.toInt + bias x.toInt k) := by
    rw [BitVec.ofInt_add, BitVec.ofInt_toInt]
  rw [hsum, BitVec.toInt_ofInt_eq_self (by omega) hbias.1 hbias.2]

/-- A biased shift to the right is the division. -/
theorem toInt_biased_sshiftRight (x : BitVec w) {k : Nat} (hk : k < w) :
    ((x + BitVec.ofInt w (bias x.toInt k)).sshiftRight k).toInt = x.toInt.tdiv (2 ^ k) := by
  rw [BitVec.toInt_sshiftRight, toInt_add_bias x hk, Int.shiftRight_eq_div_pow, tdiv_two_pow]
  push_cast
  rfl

theorem signExtend_add_bias (x : BitVec b) {k : Nat} (hk : k < b) (h : b ≤ w) :
    x.signExtend w + BitVec.ofInt w (bias x.toInt k) =
      (x + BitVec.ofInt b (bias x.toInt k)).signExtend w := by
  have hx : (x.signExtend w).toInt = x.toInt := BitVec.toInt_signExtend_of_le h
  have hsum := toInt_add_bias (x.signExtend w) (hk.trans_le h)
  rw [hx] at hsum
  apply BitVec.eq_of_toInt_eq
  rw [hsum, BitVec.toInt_signExtend_of_le h, toInt_add_bias x hk]

theorem signExtend_sshiftRight (x : BitVec b) (n : Nat) (h : b ≤ w) :
    (x.sshiftRight n).signExtend w = (x.signExtend w).sshiftRight n := by
  apply BitVec.eq_of_toInt_eq
  rw [BitVec.toInt_signExtend_of_le h, BitVec.toInt_sshiftRight, BitVec.toInt_sshiftRight,
    BitVec.toInt_signExtend_of_le h]

theorem sdiv_eq_ofInt (x y : BitVec b) : x.sdiv y = BitVec.ofInt b (x.toInt.tdiv y.toInt) := by
  rw [← ofInt_bmod _ le_rfl, ← BitVec.toInt_sdiv, BitVec.ofInt_toInt]

theorem srem_eq_sub (x y : BitVec b) : x.srem y = x - x.sdiv y * y := by
  have hx : BitVec.ofInt b x.toInt = x := BitVec.ofInt_toInt
  have hy : BitVec.ofInt b y.toInt = y := BitVec.ofInt_toInt
  have hrem : x.srem y = BitVec.ofInt b (x.toInt - x.toInt.tdiv y.toInt * y.toInt) := by
    rw [← Int.mul_comm y.toInt, ← Int.tmod_def, ← BitVec.toInt_srem, BitVec.ofInt_toInt]
  rw [hrem, sdiv_eq_ofInt, Int.sub_eq_add_neg, BitVec.ofInt_add, BitVec.ofInt_neg, BitVec.ofInt_mul,
    hx, hy, BitVec.sub_eq_add_neg]

/-! ## Shift amounts -/

/-- A shift that leaves nothing but the sign gives the same word however far it goes. -/
theorem sshiftRight_of_sign (x : BitVec b) {k n : Nat} (hk : b ≤ k + 1) (hn : k ≤ n) :
    x.sshiftRight n = x.sshiftRight k := by
  apply BitVec.eq_of_getLsbD_eq
  intro i hi
  rw [BitVec.getLsbD_sshiftRight, BitVec.getLsbD_sshiftRight]
  by_cases hin : n + i < b
  · have hnk : n = k := by omega
    rw [hnk]
  · rw [if_neg hin]
    split
    · next hik =>
      have hlast : k + i = b - 1 := by omega
      rw [hlast, BitVec.msb_eq_getLsbD_last]
    · rfl

/-- The amount that a register of `w` bits holds after its sign has been extended, as a shift reads
it. -/
theorem toNat_signExtend_mod {c : Nat} (y : BitVec c) (hpow : w ∣ 2 ^ w) (hc : 2 ^ c < w)
    (hmsb : y.msb = true) : (y.signExtend w).toNat % w = w - 2 ^ c + y.toNat := by
  have hcw : c ≤ w := (Nat.lt_two_pow_self.trans hc).le
  have hy : y.toNat < 2 ^ c := y.isLt
  obtain ⟨q, hq⟩ := hpow
  have hqpos : 0 < q := by
    rcases Nat.eq_zero_or_pos q with rfl | hpos
    · have hzero : 2 ^ w = 0 := by rw [hq, Nat.mul_zero]
      exact absurd hzero (Nat.two_pow_pos w).ne'
    · exact hpos
  have hsplit : w * q = w * (q - 1) + w := by
    rw [← Nat.mul_succ, Nat.succ_eq_add_one, Nat.sub_add_cancel hqpos]
  have hsum : y.toNat + (2 ^ w - 2 ^ c) = w * (q - 1) + (w - 2 ^ c + y.toNat) := by
    rw [hq, hsplit]
    omega
  rw [BitVec.toNat_signExtend, if_pos hmsb, BitVec.toNat_setWidth_of_le hcw, hsum,
    Nat.mul_add_mod, Nat.mod_eq_of_lt (by omega)]

/-- Two amounts that shift a power of two to the right by less than its exponent give two numbers. -/
theorem two_pow_shiftRight_ne {e k n : Nat} (hk : k ≤ e) (hne : n ≠ k) :
    2 ^ e >>> n ≠ 2 ^ e >>> k := by
  rw [Nat.shiftRight_eq_div_pow, Nat.shiftRight_eq_div_pow, Nat.pow_div hk (by decide)]
  rcases Nat.lt_or_ge e n with hlt | hle
  · rw [Nat.div_eq_of_lt (Nat.pow_lt_pow_right (by decide) hlt)]
    exact (Nat.two_pow_pos _).ne
  · rw [Nat.pow_div hle (by decide)]
    intro heq
    have hexp : e - n = e - k := Nat.pow_right_injective le_rfl heq
    omega

theorem toNat_twoPow {i : Nat} (hi : i < b) : (BitVec.twoPow b i).toNat = 2 ^ i := by
  rw [BitVec.toNat_twoPow, Nat.mod_eq_of_lt (Nat.pow_lt_pow_right (by decide) hi)]

theorem exists_shiftLeft_ne {k n : Nat} (hk : k < b) (hne : n ≠ k) :
    ∃ x : BitVec b, x <<< n ≠ x <<< k := by
  refine ⟨BitVec.twoPow b 0, fun heq => hne ?_⟩
  have hbit := congrArg (fun z : BitVec b => z.getLsbD k) heq
  simp [hk] at hbit
  omega

theorem exists_ushiftRight_ne {k n : Nat} (hk : k < b) (hne : n ≠ k) :
    ∃ x : BitVec b, x >>> n ≠ x >>> k := by
  refine ⟨BitVec.twoPow b (b - 1), fun heq => ?_⟩
  have hnat := congrArg BitVec.toNat heq
  rw [BitVec.toNat_ushiftRight, BitVec.toNat_ushiftRight, toNat_twoPow (by omega)] at hnat
  exact two_pow_shiftRight_ne (by omega) hne hnat

theorem exists_sshiftRight_ne {k n : Nat} (hk : k + 1 < b) (hne : n ≠ k) :
    ∃ x : BitVec b, x.sshiftRight n ≠ x.sshiftRight k := by
  have hlt : (BitVec.twoPow b (b - 2)).toNat = 2 ^ (b - 2) := toNat_twoPow (by omega)
  have hmsb : (BitVec.twoPow b (b - 2)).msb = false := by
    rw [BitVec.msb_eq_false_iff_two_mul_lt, hlt, ← Nat.pow_succ']
    exact Nat.pow_lt_pow_right (by decide) (by omega)
  refine ⟨BitVec.twoPow b (b - 2), fun heq => ?_⟩
  have hnat := congrArg BitVec.toNat heq
  rw [BitVec.sshiftRight_eq_of_msb_false hmsb, BitVec.sshiftRight_eq_of_msb_false hmsb,
    BitVec.toNat_ushiftRight, BitVec.toNat_ushiftRight, hlt] at hnat
  exact two_pow_shiftRight_ne (by omega) hne hnat

end LowBits
