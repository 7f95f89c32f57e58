import Mathlib

/-!
# Images of data in bytes

Sequences that are cut or padded to a length, blocks that stand inside a longer sequence, and the
little-endian bytes of a number.
-/

namespace ByteImage

variable {α : Type}

/-- `Vec::resize`: cut, or padded with `a`. -/
def resize (l : List α) (n : Nat) (a : α) : List α :=
  l.takeD n a

@[simp] theorem length_resize (l : List α) (n : Nat) (a : α) : (resize l n a).length = n :=
  List.takeD_length ..

theorem resize_of_le {l : List α} {n : Nat} (h : l.length ≤ n) (a : α) :
    resize l n a = l ++ List.replicate (n - l.length) a := by
  induction l generalizing n with
  | nil =>
    rw [resize, List.takeD_nil]
    rfl
  | cons x l ih =>
    cases n with
    | zero => exact absurd h (Nat.not_succ_le_zero _)
    | succ n =>
      have htail := ih (Nat.le_of_succ_le_succ h)
      rw [resize] at htail
      rw [resize, List.takeD_succ, List.head?_cons, Option.getD_some, List.tail_cons, htail,
        List.length_cons, Nat.succ_sub_succ, List.cons_append]

/-- The block `part` stands in `whole` from the offset `off` on. -/
def StandsAt (whole : List α) (off : Nat) (part : List α) : Prop :=
  off ≤ whole.length ∧ part <+: whole.drop off

namespace StandsAt

variable {whole part inner l : List α} {off off' : Nat}

theorem refl (l : List α) : StandsAt l 0 l :=
  ⟨Nat.zero_le _, List.prefix_rfl⟩

theorem iff_append : StandsAt whole off part ↔
    ∃ pre post, whole = pre ++ (part ++ post) ∧ pre.length = off := by
  constructor
  · rintro ⟨hle, post, hpost⟩
    refine ⟨whole.take off, post, ?_, List.length_take_of_le hle⟩
    rw [hpost, List.take_append_drop]
  · rintro ⟨pre, post, rfl, rfl⟩
    refine ⟨by simp, post, ?_⟩
    rw [List.drop_left]

theorem trans (h : StandsAt whole off part) (h' : StandsAt part off' inner) :
    StandsAt whole (off + off') inner := by
  obtain ⟨pre, post, rfl, rfl⟩ := iff_append.mp h
  obtain ⟨pre', post', rfl, rfl⟩ := iff_append.mp h'
  refine iff_append.mpr ⟨pre ++ pre', post' ++ post, ?_, List.length_append⟩
  simp only [List.append_assoc]

theorem append (h : StandsAt whole off part) (l : List α) : StandsAt (whole ++ l) off part := by
  obtain ⟨pre, post, rfl, rfl⟩ := iff_append.mp h
  refine iff_append.mpr ⟨pre, post ++ l, ?_, rfl⟩
  simp only [List.append_assoc]

theorem append_right (l part : List α) : StandsAt (l ++ part) l.length part :=
  iff_append.mpr ⟨l, [], by rw [List.append_nil], rfl⟩

theorem resize (h : StandsAt whole off part) {n : Nat} (hn : whole.length ≤ n) (a : α) :
    StandsAt (resize whole n a) off part := by
  rw [resize_of_le hn]
  exact h.append _

theorem length_le (h : StandsAt whole off part) : off + part.length ≤ whole.length := by
  obtain ⟨pre, post, rfl, rfl⟩ := iff_append.mp h
  simp only [List.length_append]
  omega

theorem getElem? {i : Nat} {a : α} (h : l[i]? = some a) : StandsAt l i [a] := by
  obtain ⟨hi, rfl⟩ := List.getElem?_eq_some_iff.mp h
  refine ⟨Nat.le_of_lt hi, ?_⟩
  rw [List.drop_eq_getElem_cons hi]
  exact List.prefix_append [l[i]] _

/-- What is read at the offset of a block. -/
theorem take_drop (h : StandsAt whole off part) : (whole.drop off).take part.length = part :=
  (List.prefix_iff_eq_take.mp h.2).symm

end StandsAt

/-! ## Blocks at a stride -/

section Blocks

variable {β : Type} {block : β → List α} {stride : Nat} {l : List β}

theorem length_flatMap_blocks (h : ∀ b ∈ l, (block b).length = stride) :
    (l.flatMap block).length = stride * l.length := by
  induction l with
  | nil => rfl
  | cons b l ih =>
    have hrest := ih fun b' hb' => h b' (List.mem_cons_of_mem _ hb')
    rw [List.flatMap_cons, List.length_append, hrest, h b List.mem_cons_self, List.length_cons,
      Nat.mul_succ, Nat.add_comm]

/-- Of blocks of one length laid one after the other, the `i`-th starts at `i * stride`. -/
theorem standsAt_flatMap_blocks (h : ∀ b ∈ l, (block b).length = stride) {i : Nat} {b : β}
    (hb : l[i]? = some b) : StandsAt (l.flatMap block) (i * stride) (block b) := by
  have hsplit : l = l.take i ++ b :: l.drop (i + 1) := by
    obtain ⟨hi, rfl⟩ := List.getElem?_eq_some_iff.mp hb
    rw [← List.drop_eq_getElem_cons hi, List.take_append_drop]
  obtain ⟨hi, -⟩ := List.getElem?_eq_some_iff.mp hb
  refine StandsAt.iff_append.mpr ⟨(l.take i).flatMap block, (l.drop (i + 1)).flatMap block, ?_, ?_⟩
  · rw [← List.flatMap_cons, ← List.flatMap_append, ← hsplit]
  · rw [length_flatMap_blocks fun b' hb' => h b' (List.mem_of_mem_take hb'),
      List.length_take_of_le (Nat.le_of_lt hi), Nat.mul_comm]

end Blocks

/-! ## Little-endian bytes -/

/-- The first `k` little-endian bytes of a number. -/
def leBytes (n k : Nat) : List UInt8 :=
  (List.range k).map fun i => .ofNat (n / 256 ^ i)

@[simp] theorem length_leBytes (n k : Nat) : (leBytes n k).length = k := by
  rw [leBytes, List.length_map, List.length_range]

theorem take_leBytes (n : Nat) {j k : Nat} (h : j ≤ k) : (leBytes n k).take j = leBytes n j := by
  rw [leBytes, leBytes, ← List.map_take, List.take_range, Nat.min_eq_left h]

theorem ofDigits_leBytes (n k : Nat) :
    Nat.ofDigits 256 ((leBytes n k).map UInt8.toNat) = n % 256 ^ k := by
  induction k with
  | zero => rw [pow_zero, Nat.mod_one]; rfl
  | succ k ih =>
    have hsucc : leBytes n (k + 1) = leBytes n k ++ [.ofNat (n / 256 ^ k)] := by
      rw [leBytes, leBytes, List.range_succ, List.map_append, List.map_singleton]
    rw [hsucc, List.map_append, Nat.ofDigits_append, ih, List.length_map, length_leBytes,
      List.map_singleton, Nat.ofDigits_singleton, UInt8.toNat_ofNat',
      Nat.mod_pow_succ (b := 256)]

end ByteImage
