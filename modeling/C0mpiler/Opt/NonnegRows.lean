import C0mpiler.Ir.IntArith
import C0mpiler.Ir.CoreIntValue
import Mathlib

/-!
# The rows of the sign analysis

What the table of `compute_nonneg` relies on, an operation at a time. An integer is read as
`CoreInt::as_i64` reads it, a one-bit integer without a sign. `RowOk` is what the operands of an
operation have to meet for its row to be right, and for the row of the operation that strength
reduction puts in its place; the operations that are not named in it have rows that always are.
-/

namespace Ir

/-- An integer of some width. -/
structure IntVal where
  bits : Nat
  x : BitVec bits

namespace IntVal

/-- The signed reading. -/
def signed (v : IntVal) : Int := if v.bits = 1 then v.x.toNat else v.x.toInt

theorem signed_nonneg_iff {v : IntVal} : 0 ≤ v.signed ↔ v.bits = 1 ∨ v.x.msb = false := by
  rw [signed]
  split
  · next h => exact ⟨fun _ => Or.inl h, fun _ => Int.natCast_nonneg _⟩
  · next h =>
    constructor
    · intro hle
      refine Or.inr ?_
      by_contra hmsb
      rw [Bool.not_eq_false] at hmsb
      exact absurd (BitVec.toInt_neg_of_msb_true hmsb) (not_lt.mpr hle)
    · rintro (h' | hmsb)
      · exact absurd h' h
      · exact BitVec.toInt_nonneg_of_msb_false hmsb

/-- The integer of a constant. -/
def ofCore (c : CoreInt) : IntVal := ⟨c.bitWidth, BitVec.ofNat c.bitWidth c.value⟩

end IntVal

section Rows

variable {b c : Nat}

/-- The sign bit is clear, or there is none. -/
def SignClear (x : BitVec b) : Prop := b = 1 ∨ x.msb = false

instance (x : BitVec b) : Decidable (SignClear x) := inferInstanceAs (Decidable (_ ∨ _))

/-- What the first operand `x` and the unsigned value `n` of the second one have to meet. -/
def RowOk (op : BinaryOpcode) (x : BitVec b) (n : Nat) : Prop :=
  match op with
  | .lshr => n ≠ 0 ∨ SignClear x
  | .udiv => n ≠ 1 ∨ SignClear x
  | .urem => x.toNat < n → SignClear x
  | .shl => SignClear x → SignClear (x <<< n)
  -- a multiplication by a power of two becomes a shift
  | .mul => n = 2 ^ n.log2 → SignClear x → SignClear (x <<< n.log2)
  | _ => True

/-- The row of an operation, for the signs of the operands and of the result: `and` needs one
operand, `srem` the first one, the unsigned operations none and the others both. -/
def SignRow (op : BinaryOpcode) (x y z : Prop) : Prop :=
  match op with
  | .and => x ∨ y → z
  | .or | .xor | .sdiv | .shl | .ashr => x → y → z
  | .srem => x → z
  | .udiv | .urem | .lshr => z
  | .add | .sub | .mul => True

theorem signRow_shift {op : BinaryOpcode} {x z : BitVec b} {n : Nat}
    (hz : intShift op x n = some z) (hok : RowOk op x n) (y : Prop) :
    SignRow op (SignClear x) y (SignClear z) := by
  unfold intShift at hz
  by_cases hn : n < b
  · rw [if_pos hn] at hz
    cases op with
    | shl =>
      cases hz
      exact fun hx _ => hok hx
    | lshr =>
      cases hz
      refine hok.elim (fun hn => Or.inr ?_) fun hx => hx.imp_right fun hmsb => ?_
      · rw [BitVec.msb_ushiftRight, decide_eq_true (Nat.pos_of_ne_zero hn)]
        rfl
      · rw [BitVec.msb_ushiftRight, hmsb, Bool.and_false]
    | ashr =>
      cases hz
      exact fun hx _ => hx.imp_right fun hmsb => by rw [BitVec.msb_sshiftRight, hmsb]
    | _ => cases hz
  · rw [if_neg hn] at hz
    cases hz

theorem signRow_arith {op : BinaryOpcode} {x y z : BitVec b} (hz : intArith op x y = some z)
    (hok : RowOk op x y.toNat) : SignRow op (SignClear x) (SignClear y) (SignClear z) := by
  -- the rows of `compute_nonneg`, one per operator
  cases op with
  -- the sign bit of a conjunction is clear when one of the two is
  | and =>
    cases hz
    rintro (hx | hy)
    · exact hx.imp_right fun hmsb => by rw [BitVec.msb_and, hmsb, Bool.false_and]
    · exact hy.imp_right fun hmsb => by rw [BitVec.msb_and, hmsb, Bool.and_false]
  -- of a disjunction when both are
  | or =>
    cases hz
    rintro (hb | hx) (hb' | hy)
    · exact Or.inl hb
    · exact Or.inl hb
    · exact Or.inl hb'
    · exact Or.inr (by rw [BitVec.msb_or, hx, hy, Bool.or_false])
  | xor =>
    cases hz
    rintro (hb | hx) (hb' | hy)
    · exact Or.inl hb
    · exact Or.inl hb
    · exact Or.inl hb'
    · exact Or.inr (by rw [BitVec.msb_xor, hx, hy, Bool.xor_false])
  -- a quotient can only have the sign bit with the divisor one
  | udiv =>
    rw [intArith] at hz
    split at hz <;> cases hz
    refine hok.elim (fun hy => Or.inr ?_) fun hx => hx.imp_right BitVec.msb_udiv_eq_false_of
    rw [BitVec.msb_udiv, Bool.and_eq_false_iff]
    by_cases hone : y = 1#b
    · subst hone
      -- with one as the divisor the width is zero, and there is no sign bit
      right
      by_cases hb : b = 0
      · subst hb
        exact absurd (BitVec.eq_of_zero_length rfl) ‹¬ (1#0) = 0›
      · rw [BitVec.toNat_ofNat, Nat.mod_eq_of_lt (Nat.one_lt_two_pow hb)] at hy
        exact absurd rfl hy
    · exact Or.inr (beq_false_of_ne hone)
  -- a remainder is below the divisor, or is the dividend itself
  | urem =>
    rw [intArith] at hz
    split at hz <;> cases hz
    by_cases hlt : x.toNat < y.toNat
    · refine (hok hlt).imp_right fun hmsb => ?_
      rw [BitVec.msb_umod, hmsb, Bool.false_and]
    · right
      rw [BitVec.msb_umod, decide_eq_false (show ¬ x < y from hlt), beq_false_of_ne ‹_›]
      simp
  -- a signed quotient of two values without sign bits is an unsigned one
  | sdiv =>
    rw [intArith] at hz
    split at hz <;> cases hz
    rintro (hb | hx) (hb' | hy)
    · exact Or.inl hb
    · exact Or.inl hb
    · exact Or.inl hb'
    · right
      rw [BitVec.sdiv_eq, hx, hy]
      exact BitVec.msb_udiv_eq_false_of hx
  -- a signed remainder has the sign of its dividend
  | srem =>
    rw [intArith] at hz
    split at hz <;> cases hz
    refine fun hx => hx.imp_right fun hmsb => ?_
    rw [BitVec.srem_eq, hmsb]
    cases y.msb <;> simp [BitVec.msb_umod, hmsb]
  -- the rows that answer `false` promise nothing
  | add | sub | mul => trivial
  | shl | lshr | ashr => cases hz

theorem signRow_binary {op : BinaryOpcode} {x z : BitVec b} {y : BitVec c}
    (hz : intBinary op x y = some z) (hok : RowOk op x y.toNat) :
    SignRow op (SignClear x) (SignClear y) (SignClear z) := by
  unfold intBinary at hz
  by_cases hshift : op.isShift = true
  · rw [if_pos hshift] at hz
    exact signRow_shift hz hok _
  · rw [if_neg hshift] at hz
    by_cases hc : c = b
    · subst hc
      rw [if_pos rfl, BitVec.setWidth_eq] at hz
      exact signRow_arith hz hok
    · rw [if_neg hc] at hz
      cases hz

theorem signClear_zext {x : BitVec c} (h : c < b ∨ c = b ∧ SignClear x) :
    SignClear (x.setWidth b) := by
  rcases h with hlt | ⟨rfl, hx⟩
  · right
    rw [BitVec.msb_setWidth, BitVec.getLsbD_of_ge x (b - 1) (by omega), Bool.and_false]
  · rwa [BitVec.setWidth_eq]

/-! ## The second operand is a power of two -/

section PowerOfTwo

variable {x : BitVec b} {j : Nat}

theorem mul_twoPow (x : BitVec b) (j : Nat) : x * BitVec.ofNat b (2 ^ j) = x <<< j := by
  refine BitVec.eq_of_toNat_eq ?_
  rw [BitVec.toNat_mul, BitVec.toNat_ofNat, Nat.mul_mod_mod, BitVec.toNat_shiftLeft,
    Nat.shiftLeft_eq]

theorem toNat_twoPow (hj : j < b) : (BitVec.ofNat b (2 ^ j)).toNat = 2 ^ j := by
  rw [BitVec.toNat_ofNat, Nat.mod_eq_of_lt (Nat.pow_lt_pow_right one_lt_two hj)]

theorem udiv_twoPow (x : BitVec b) (hj : j < b) : x / BitVec.ofNat b (2 ^ j) = x >>> j := by
  refine BitVec.eq_of_toNat_eq ?_
  rw [BitVec.toNat_udiv, toNat_twoPow hj, BitVec.toNat_ushiftRight, Nat.shiftRight_eq_div_pow]

theorem umod_twoPow (x : BitVec b) (hj : j < b) :
    x % BitVec.ofNat b (2 ^ j) = x &&& BitVec.ofNat b (2 ^ j - 1) := by
  have hlt : 2 ^ j < 2 ^ b := Nat.pow_lt_pow_right one_lt_two hj
  refine BitVec.eq_of_toNat_eq ?_
  rw [BitVec.toNat_umod, toNat_twoPow hj, BitVec.toNat_and, BitVec.toNat_ofNat,
    Nat.mod_eq_of_lt (Nat.lt_of_le_of_lt (Nat.sub_le _ _) hlt), Nat.and_two_pow_sub_one_eq_mod]

/-- The only negative power of two is its own negation. -/
theorem neg_twoPow (hj : j < b) (hmsb : (BitVec.ofNat b (2 ^ j)).msb = true) :
    -BitVec.ofNat b (2 ^ j) = BitVec.ofNat b (2 ^ j) ∧ b = j + 1 := by
  rw [BitVec.msb_eq_decide, toNat_twoPow hj, decide_eq_true_eq] at hmsb
  have hle : b - 1 ≤ j := (Nat.pow_le_pow_iff_right one_lt_two).mp hmsb
  have hb : b = j + 1 := by omega
  refine ⟨BitVec.eq_of_toNat_eq ?_, hb⟩
  rw [BitVec.toNat_neg, toNat_twoPow hj, hb, Nat.pow_succ]
  have hpos := Nat.two_pow_pos j
  rw [Nat.mod_eq_of_lt (by omega)]
  omega

theorem sdiv_twoPow (hx : x.msb = false) (hj : j < b) :
    x.sdiv (BitVec.ofNat b (2 ^ j)) = x >>> j := by
  rw [BitVec.sdiv_eq, hx]
  cases hmsb : (BitVec.ofNat b (2 ^ j)).msb with
  | false => exact udiv_twoPow x hj
  | true =>
    obtain ⟨hneg, hb⟩ := neg_twoPow hj hmsb
    -- the dividend is smaller than the divisor, both are zero
    have hzero : x >>> j = 0 := by
      refine BitVec.eq_of_toNat_eq ?_
      have hlt := BitVec.msb_eq_false_iff_two_mul_lt.mp hx
      have hpow : 2 ^ b = 2 * 2 ^ j := by rw [hb, Nat.pow_succ']
      rw [BitVec.toNat_ushiftRight, Nat.shiftRight_eq_div_pow, Nat.div_eq_of_lt (by omega)]
      rfl
    show -(x / -BitVec.ofNat b (2 ^ j)) = _
    rw [hneg, udiv_twoPow x hj, hzero]
    exact BitVec.neg_zero b

theorem srem_twoPow (hx : x.msb = false) (hj : j < b) :
    x.srem (BitVec.ofNat b (2 ^ j)) = x &&& BitVec.ofNat b (2 ^ j - 1) := by
  rw [BitVec.srem_eq, hx, ← umod_twoPow x hj]
  cases hmsb : (BitVec.ofNat b (2 ^ j)).msb with
  | false => rfl
  | true => rw [(neg_twoPow hj hmsb).1]

end PowerOfTwo

end Rows

end Ir
