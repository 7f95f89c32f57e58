import Mathlib

/-!
# Words in a memory of bytes

A memory maps addresses of `w` bits to bytes. A word is read and written with its low byte first.
Addresses wrap around; a byte is at some distance behind the address of a word, and a word of `k`
bytes covers the distances below `k`.
-/

abbrev ByteMemory (w : Nat) := BitVec w → BitVec 8

namespace ByteMemory

variable {w : Nat} (m : ByteMemory w) (k : Nat) (a : BitVec w)

/-- The word of `k` bytes at an address. -/
def read : BitVec w :=
  .ofNat w (Nat.ofDigits 256 ((List.range k).map fun j => (m (a + .ofNat w j)).toNat))

/-- The distance from an address to another. -/
def dist (b : BitVec w) : Nat := (b - a).toNat

def write (x : BitVec w) : ByteMemory w := fun b =>
  if dist a b < k then .ofNat 8 (x.toNat / 256 ^ dist a b) else m b

variable {m k a}

/-- Reading depends on the bytes of the word only. -/
theorem read_congr {m' : ByteMemory w} (h : ∀ j < k, m' (a + .ofNat w j) = m (a + .ofNat w j)) :
    m'.read k a = m.read k a := by
  rw [read, read]
  congr 2
  exact List.map_congr_left fun j hj => by rw [h j (List.mem_range.mp hj)]

theorem dist_add (a : BitVec w) {j : Nat} (hj : j < 2 ^ w) : dist a (a + .ofNat w j) = j := by
  rw [dist, add_sub_cancel_left, BitVec.toNat_ofNat, Nat.mod_eq_of_lt hj]

theorem write_of_far {b : BitVec w} (x : BitVec w) (h : k ≤ dist a b) : m.write k a x b = m b :=
  if_neg (Nat.not_lt.mpr h)

/-- The bytes of a number, low byte first, put together again. -/
theorem ofDigits_bytes (n k : Nat) :
    Nat.ofDigits 256 ((List.range k).map fun j => n / 256 ^ j % 256) = n % 256 ^ k := by
  induction k with
  | zero => rw [pow_zero, Nat.mod_one]; rfl
  | succ k ih =>
    rw [List.range_succ, List.map_append, List.map_singleton, Nat.ofDigits_append, ih,
      List.length_map, List.length_range, Nat.ofDigits_singleton, pow_succ, Nat.mod_mul]

/-- A word that is written is read back. -/
theorem read_write (hw : w = 8 * k) (x : BitVec w) : (m.write k a x).read k a = x := by
  have hpow : 256 ^ k = 2 ^ w := by rw [hw, pow_mul]; rfl
  have hk : k < 2 ^ w := hpow ▸ Nat.lt_pow_self (by decide)
  have hbytes : ((List.range k).map fun j => (m.write k a x (a + .ofNat w j)).toNat) =
      (List.range k).map fun j => x.toNat / 256 ^ j % 256 := by
    refine List.map_congr_left fun j hj => ?_
    have hj' := List.mem_range.mp hj
    rw [write, dist_add a (hj'.trans hk), if_pos hj', BitVec.toNat_ofNat]
  refine BitVec.eq_of_toNat_eq ?_
  rw [read, hbytes, ofDigits_bytes, hpow, BitVec.toNat_ofNat, Nat.mod_mod,
    Nat.mod_eq_of_lt x.isLt]

/-- Where two words lie apart, at offsets from a base that are known up to multiples of `2 ^ v`. -/
theorem dist_of_modEq {v : Nat} (hv : v ≤ w) (base : BitVec w) {x y : Int} {i j n : Nat}
    (hx : x ≡ i [ZMOD 2 ^ v]) (hy : y ≡ j [ZMOD 2 ^ v]) (hi : i < 2 ^ v) (hj : j + n ≤ 2 ^ v)
    (h : i < j ∨ j + n ≤ i) : n ≤ dist (base + .ofInt w y) (base + .ofInt w x) := by
  have hsub : base + BitVec.ofInt w x - (base + BitVec.ofInt w y) = BitVec.ofInt w (x - y) := by
    rw [add_sub_add_left_eq_sub, Int.sub_eq_add_neg, BitVec.ofInt_add, BitVec.ofInt_neg,
      sub_eq_add_neg]
  have hdvd : (2 ^ v : Int) ∣ ((2 ^ w : Nat) : Int) := by
    rw [Nat.cast_pow]
    exact pow_dvd_pow 2 hv
  have hpos : (0 : Int) < 2 ^ v := by positivity
  have hmod : (x - y) % (2 ^ w : Nat) % 2 ^ v = ((i : Int) - j) % 2 ^ v := by
    rw [Int.emod_emod_of_dvd _ hdvd]
    exact hx.sub hy
  have hnonneg : 0 ≤ (x - y) % ((2 ^ w : Nat) : Int) := Int.emod_nonneg _ (by positivity)
  have hdiv := Int.mul_ediv_add_emod ((x - y) % ((2 ^ w : Nat) : Int)) (2 ^ v)
  have hquot : 0 ≤ 2 ^ v * ((x - y) % ((2 ^ w : Nat) : Int) / 2 ^ v) :=
    mul_nonneg hpos.le (Int.ediv_nonneg hnonneg hpos.le)
  have hlow : (n : Int) ≤ ((i : Int) - j) % 2 ^ v := by
    have hcast : ((2 ^ v : Nat) : Int) = 2 ^ v := by push_cast; rfl
    rcases h with h | h
    · rw [← Int.add_emod_right, Int.emod_eq_of_lt (by omega) (by omega)]
      omega
    · rw [Int.emod_eq_of_lt (by omega) (by omega)]
      omega
  rw [dist, hsub, BitVec.toNat_ofInt]
  omega

end ByteMemory
