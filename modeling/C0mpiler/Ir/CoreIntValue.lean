import C0mpiler.Ir.CoreInt
import Mathlib

/-!
# The number a constant stands for

A constant of width `w` stands for a number modulo `2 ^ w`; `asI64` picks the representative
between `-2 ^ (w - 1)` and `2 ^ (w - 1)`.
-/

namespace Ir

namespace CoreInt

/-- What `CoreInt::new` establishes: a width in `1..=64` and a value of that width. -/
structure Wf (c : CoreInt) : Prop where
  width_pos : 1 ≤ c.bitWidth
  width_le : c.bitWidth ≤ 64
  value_lt : c.value < 2 ^ c.bitWidth

/-- What `new` returns has a width from 1 to 64 and fits into it. -/
theorem wf_of_new {value bitWidth : Nat} {c : CoreInt} (h : new value bitWidth = some c) :
    c.Wf := by
  unfold new at h
  split at h
  · next hw =>
    cases h
    exact ⟨hw.1, hw.2, Nat.mod_lt _ (Nat.two_pow_pos _)⟩
  · cases h

/-- The sign bit of a constant: whether the value is in the upper half. -/
theorem Wf.testBit {c : CoreInt} (h : c.Wf) :
    c.value.testBit (c.bitWidth - 1) = true ↔ 2 ^ (c.bitWidth - 1) ≤ c.value := by
  have hw := h.width_pos
  constructor
  · intro hbit
    by_contra hlt
    rw [Nat.testBit_lt_two_pow (Nat.lt_of_not_le hlt)] at hbit
    cases hbit
  · intro hle
    refine Nat.testBit_of_two_pow_le_and_two_pow_add_one_gt hle ?_
    rw [Nat.sub_add_cancel hw]
    exact h.value_lt

/-- The sign bit is half of the range. -/
theorem Wf.two_pow {c : CoreInt} (h : c.Wf) : 2 ^ c.bitWidth = 2 * 2 ^ (c.bitWidth - 1) := by
  rw [← Nat.pow_succ', Nat.succ_eq_add_one, Nat.sub_add_cancel h.width_pos]

/-- `asI64`, at any width above one: the value or the value less `2 ^ w`. -/
theorem Wf.asI64_eq {c : CoreInt} (h : c.Wf) (hw : c.bitWidth ≠ 1) :
    c.asI64 = if 2 ^ (c.bitWidth - 1) ≤ c.value then (c.value : Int) - 2 ^ c.bitWidth
      else c.value := by
  rw [asI64, if_neg hw, asI64Raw]
  split
  · next h64 =>
    rw [i64OfNat, h64]
    by_cases hlt : c.value < 2 ^ 63
    · rw [if_pos hlt, if_neg (Nat.not_le.mpr hlt)]
    · rw [if_neg hlt, if_pos (Nat.le_of_not_lt hlt)]
  · exact if_congr h.testBit rfl rfl

/-- Zero is zero as a signed value too. -/
theorem Wf.asI64_zero {c : CoreInt} (h : c.Wf) (hzero : c.value = 0) : c.asI64 = 0 := by
  by_cases hw : c.bitWidth = 1
  · rw [asI64, if_pos hw, hzero]
    rfl
  · have hpos : 0 < 2 ^ (c.bitWidth - 1) := Nat.two_pow_pos _
    rw [h.asI64_eq hw, if_neg (by omega), hzero]
    rfl

/-- The signed and the unsigned reading agree modulo the width. -/
theorem Wf.asI64_modEq {c : CoreInt} (h : c.Wf) : c.asI64 ≡ c.value [ZMOD 2 ^ c.bitWidth] := by
  by_cases hw : c.bitWidth = 1
  · rw [asI64, if_pos hw]
  · rw [h.asI64_eq hw]
    split
    · exact Int.sub_emod_right _ _
    · rfl

/-- The range of the signed reading. A single bit is read as one, not as minus one. -/
theorem Wf.asI64_bounds {c : CoreInt} (h : c.Wf) (hw : c.bitWidth ≠ 1) :
    -2 ^ (c.bitWidth - 1) ≤ c.asI64 ∧ c.asI64 < 2 ^ (c.bitWidth - 1) := by
  have hlt : (c.value : Int) < 2 * 2 ^ (c.bitWidth - 1) := by
    exact_mod_cast h.two_pow ▸ h.value_lt
  have htwo : (2 : Int) ^ c.bitWidth = 2 * 2 ^ (c.bitWidth - 1) := by exact_mod_cast h.two_pow
  rw [h.asI64_eq hw]
  split
  · next hle =>
    have hle' : (2 : Int) ^ (c.bitWidth - 1) ≤ c.value := by exact_mod_cast hle
    rw [htwo]
    constructor <;> linarith
  · next hle =>
    have hlt' : (c.value : Int) < 2 ^ (c.bitWidth - 1) := by exact_mod_cast Nat.lt_of_not_le hle
    refine ⟨?_, hlt'⟩
    have hpos : (0 : Int) ≤ 2 ^ (c.bitWidth - 1) := by positivity
    have hval : (0 : Int) ≤ c.value := Int.natCast_nonneg _
    linarith

end CoreInt

end Ir
