import C0mpiler.Data.WordMemory
import Mathlib

/-!
# Copying bytes

What `memcpy` and `memmove` do to a memory of bytes: every byte of the source is read before any is
written. A copy through a register does the same; a copy byte by byte, forwards, does so unless the
destination starts inside the source.
-/

namespace ByteMemory

variable {w : Nat} {m : ByteMemory w} {k : Nat} {src dst : BitVec w}

/-- The memory with `k` bytes copied. -/
def copy (m : ByteMemory w) (k : Nat) (dst src : BitVec w) : ByteMemory w := fun b =>
  if dist dst b < k then m (src + .ofNat w (dist dst b)) else m b

/-- The same byte by byte. -/
def copyBytes (m : ByteMemory w) (k : Nat) (dst src : BitVec w) : ByteMemory w :=
  (List.range k).foldl (fun m j => m.write 1 (dst + .ofNat w j) (m.read 1 (src + .ofNat w j))) m

theorem add_dist (a b : BitVec w) : a + .ofNat w (dist a b) = b := by
  rw [dist, BitVec.ofNat_toNat, BitVec.setWidth_eq, add_sub_cancel]

/-! ## Through a register -/

/-- The bytes of a word that was read. -/
theorem toNat_read (hk : 8 * k ≤ w) : (m.read k src).toNat =
    Nat.ofDigits 256 ((List.range k).map fun j => (m (src + .ofNat w j)).toNat) := by
  rw [read, BitVec.toNat_ofNat, Nat.mod_eq_of_lt]
  refine (Nat.ofDigits_lt_base_pow_length (by decide) fun d hd => ?_).trans_le ?_
  · obtain ⟨j, -, rfl⟩ := List.mem_map.mp hd
    exact (m _).isLt
  · rw [List.length_map, List.length_range]
    calc 256 ^ k = 2 ^ (8 * k) := by rw [pow_mul]; rfl
      _ ≤ 2 ^ w := Nat.pow_le_pow_right (by decide) hk

/-- The digit at a place. -/
theorem ofDigits_digit {l : List Nat} (hl : ∀ d ∈ l, d < 256) {j d : Nat} (hj : l[j]? = some d) :
    Nat.ofDigits 256 l / 256 ^ j % 256 = d := by
  obtain ⟨hlt, rfl⟩ := List.getElem?_eq_some_iff.mp hj
  rw [Nat.ofDigits_div_pow_eq_ofDigits_drop j (by decide) l hl, List.drop_eq_getElem_cons hlt,
    Nat.ofDigits_cons, Nat.add_mul_mod_self_left]
  exact Nat.mod_eq_of_lt (hl _ (List.getElem_mem hlt))

theorem read_byte (hk : 8 * k ≤ w) {j : Nat} (hj : j < k) :
    (m.read k src).toNat / 256 ^ j % 256 = (m (src + .ofNat w j)).toNat := by
  rw [toNat_read hk]
  refine ofDigits_digit (fun d hd => ?_) ?_
  · obtain ⟨j, -, rfl⟩ := List.mem_map.mp hd
    exact (m _).isLt
  · rw [List.getElem?_map, List.getElem?_range hj]
    rfl

/-- A word that is loaded, extended in any way, and stored. -/
theorem write_eq_copy (hk : 8 * k ≤ w) {x : BitVec w}
    (hx : x.toNat % 256 ^ k = (m.read k src).toNat % 256 ^ k) : m.write k dst x = m.copy k dst src := by
  funext b
  unfold write copy
  split
  · next hdist =>
    have hsplit : ∀ n : Nat, n / 256 ^ dist dst b % 256 = n % 256 ^ k / 256 ^ dist dst b % 256 := by
      intro n
      obtain ⟨r, hr⟩ := Nat.exists_eq_add_of_lt hdist
      have hpow : 256 ^ k = 256 ^ dist dst b * 256 ^ (r + 1) := by
        rw [← pow_add]
        congr 1
      rw [hpow, Nat.mod_mul_right_div_self, Nat.mod_mod_of_dvd]
      exact dvd_pow_self 256 (Nat.succ_ne_zero r)
    refine BitVec.eq_of_toNat_eq ?_
    rw [BitVec.toNat_ofNat]
    show x.toNat / 256 ^ dist dst b % 256 = _
    rw [hsplit, hx, ← hsplit, read_byte hk hdist]
  · rfl

/-! ## Byte by byte -/

theorem copyBytes_succ (m : ByteMemory w) (k : Nat) (dst src : BitVec w) :
    m.copyBytes (k + 1) dst src = (m.copyBytes k dst src).write 1 (dst + .ofNat w k)
      ((m.copyBytes k dst src).read 1 (src + .ofNat w k)) := by
  rw [copyBytes, List.range_succ, List.foldl_append]
  rfl

theorem write_one (hw : 8 ≤ w) (a b : BitVec w) :
    m.write 1 a (m.read 1 b) = Function.update m a (m b) := by
  rw [write_eq_copy (by omega) rfl]
  funext c
  unfold copy
  by_cases hc : c = a
  · subst hc
    have hzero : dist c c = 0 := by rw [dist, sub_self]; rfl
    rw [hzero, if_pos Nat.one_pos, Function.update_self]
    exact congrArg m (add_zero b)
  · have hne : dist a c ≠ 0 := fun h => hc (by
      have hadd := add_dist a c
      rw [h] at hadd
      exact hadd.symm.trans (add_zero a))
    rw [if_neg (by omega), Function.update_of_ne hc]

/-- Where a byte of the source lies behind the start of the destination. -/
theorem dist_source {j : Nat} (hj : j < 2 ^ w) : dist dst (src + .ofNat w j) =
    if dist src dst ≤ j then j - dist src dst else 2 ^ w + j - dist src dst := by
  have hdst : dst = src + .ofNat w (dist src dst) := (add_dist src dst).symm
  have hlt : dist src dst < 2 ^ w := (dst - src).isLt
  have hsub : src + BitVec.ofNat w j - dst = BitVec.ofNat w j - BitVec.ofNat w (dist src dst) := by
    rw [hdst, dist_add src hlt, add_sub_add_left_eq_sub]
  rw [dist, hsub, BitVec.toNat_sub, BitVec.toNat_ofNat, BitVec.toNat_ofNat, Nat.mod_eq_of_lt hj,
    Nat.mod_eq_of_lt hlt]
  split
  · have hsum : 2 ^ w - dist src dst + j = 2 ^ w + (j - dist src dst) := by omega
    rw [hsum, Nat.add_mod_left, Nat.mod_eq_of_lt (by omega)]
  · rw [Nat.mod_eq_of_lt (by omega)]
    omega

/-- A destination that does not start inside the source behind its first byte. -/
theorem copyBytes_eq_copy (hw : 8 ≤ w) (hk : k ≤ 2 ^ w) (h : dist src dst = 0 ∨ k ≤ dist src dst) :
    m.copyBytes k dst src = m.copy k dst src := by
  induction k with
  | zero => rfl
  | succ k ih =>
    have hlt : dist src dst < 2 ^ w := (dst - src).isLt
    rw [copyBytes_succ, ih (by omega) (by omega), write_one hw]
    -- the byte that is read has not been written yet
    have hread : m.copy k dst src (src + .ofNat w k) = m (src + .ofNat w k) := by
      refine if_neg ?_
      rw [dist_source (by omega)]
      split <;> omega
    rw [hread]
    funext b
    by_cases hb : b = dst + .ofNat w k
    · subst hb
      rw [Function.update_self, copy, dist_add dst (by omega), if_pos (Nat.lt_succ_self k)]
    · have hne : dist dst b ≠ k := fun h => hb (h ▸ (add_dist dst b).symm)
      rw [Function.update_of_ne hb, copy, copy]
      by_cases hd : dist dst b < k
      · rw [if_pos hd, if_pos (Nat.lt_succ_of_lt hd)]
      · rw [if_neg hd, if_neg (by omega)]

theorem add_ofNat_inj (a : BitVec w) {i j : Nat} (hi : i < 2 ^ w) (hj : j < 2 ^ w)
    (h : a + .ofNat w i = a + .ofNat w j) : i = j := by
  rw [← dist_add a hi, ← dist_add a hj, h]

/-- A destination behind the first byte of the source: that byte is copied once more. -/
theorem copyBytes_again (hw : 8 ≤ w) (hk : k ≤ 2 ^ w) (hpos : 0 < dist src dst) :
    (0 < k → m.copyBytes k dst src dst = m src) ∧
      (dist src dst < k → m.copyBytes k dst src (dst + .ofNat w (dist src dst)) = m src) := by
  induction k with
  | zero => exact ⟨fun h => absurd h (Nat.lt_irrefl 0), fun h => absurd h (Nat.not_lt_zero _)⟩
  | succ k ih =>
    obtain ⟨hfirst, hagain⟩ := ih (by omega)
    have hlt : dist src dst < 2 ^ w := (dst - src).isLt
    have hzero : dst + .ofNat w 0 = dst := add_zero dst
    rw [copyBytes_succ, write_one hw]
    constructor
    · intro _
      rcases Nat.eq_zero_or_pos k with rfl | hk0
      · rw [hzero, Function.update_self]
        exact congrArg m (add_zero src)
      · have hne : dst ≠ dst + .ofNat w k := fun h => by
          have heq := add_ofNat_inj dst (Nat.two_pow_pos w) (by omega) (hzero.trans h)
          omega
        rw [Function.update_of_ne hne, hfirst hk0]
    · intro hd
      rcases Nat.lt_succ_iff_lt_or_eq.mp hd with hd | heq
      · have hne : dst + .ofNat w (dist src dst) ≠ dst + .ofNat w k := fun h => by
          have heq := add_ofNat_inj dst hlt (by omega) h
          omega
        rw [Function.update_of_ne hne, hagain hd]
      · subst heq
        rw [Function.update_self, add_dist, hfirst hpos]

/-- Byte by byte the bytes arrive exactly where the destination does not start inside the source
behind its first byte. -/
theorem copyBytes_eq_copy_iff (hw : 8 ≤ w) (hk : k ≤ 2 ^ w) :
    (∀ m : ByteMemory w, m.copyBytes k dst src = m.copy k dst src) ↔
      dist src dst = 0 ∨ k ≤ dist src dst := by
  refine ⟨fun h => ?_, fun h m => copyBytes_eq_copy hw hk h⟩
  by_contra hnot
  obtain ⟨hne, hlt⟩ := not_or.mp hnot
  have hpos : 0 < dist src dst := Nat.pos_of_ne_zero hne
  have hd : dist src dst < 2 ^ w := (dst - src).isLt
  have hsame := congrFun (h (Function.update (fun _ => 0) src 1)) (dst + .ofNat w (dist src dst))
  rw [(copyBytes_again hw hk hpos).2 (by omega), copy, dist_add dst hd,
    if_pos (by omega), add_dist, Function.update_self] at hsame
  have hdst : dst ≠ src := fun heq => hne (by rw [heq, dist, sub_self]; rfl)
  rw [Function.update_of_ne hdst] at hsame
  cases hsame

end ByteMemory
