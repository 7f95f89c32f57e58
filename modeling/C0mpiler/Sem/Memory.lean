import C0mpiler.Data.OptionFold
import C0mpiler.Sem.Value
import Mathlib

/-!
# Memory

A memory gives a byte to every offset of every object that has one there. Integers are stored in
little-endian order, a pointer as fragments that only read back together as that pointer. A store
outside an object has no result; a load outside an object, or one that meets bytes of another
kind, yields an undefined value.
-/

namespace Ir

inductive MByte where
  | undef
  | byte (n : Nat)
  | frag (obj : Obj) (off : Int) (i : Nat)
  deriving DecidableEq, Repr

abbrev Mem := Obj → Int → Option MByte

/-- The bytes an access touches. -/
structure Range where
  obj : Obj
  off : Int
  size : Nat
  deriving DecidableEq

namespace Range

def Contains (r : Range) (o : Obj) (i : Int) : Prop := o = r.obj ∧ r.off ≤ i ∧ i < r.off + r.size

instance (r : Range) (o : Obj) (i : Int) : Decidable (r.Contains o i) := by
  unfold Contains
  infer_instance

/-- No byte is in both ranges. -/
def Disjoint (r r' : Range) : Prop := ∀ o i, r.Contains o i → ¬ r'.Contains o i

/-- The offsets of a range are the ones counted from its start. -/
theorem contains_add {r : Range} {i : Nat} (h : i < r.size) : r.Contains r.obj (r.off + i) :=
  ⟨rfl, by omega, by omega⟩

theorem exists_of_contains {r : Range} {o : Obj} {i : Int} (h : r.Contains o i) :
    ∃ k < r.size, o = r.obj ∧ i = r.off + k := by
  obtain ⟨ho, hle, hlt⟩ := h
  exact ⟨(i - r.off).toNat, by omega, ho, by omega⟩

/-- A shorter range from the same start. -/
theorem contains_mono {r : Range} {n : Nat} (hn : r.size ≤ n) {o : Obj} {i : Int}
    (h : r.Contains o i) : (Range.mk r.obj r.off n).Contains o i := by
  obtain ⟨ho, hle, hlt⟩ := h
  refine ⟨ho, hle, ?_⟩
  show i < r.off + n
  omega

end Range

/-! ## Bytes of values -/

namespace Val

/-- Byte `i` of a stored value. -/
def byteAt : Val → Nat → MByte
  | .int _ n, i => .byte (n / 256 ^ i % 256)
  | .ptr o off, i => .frag o off i
  | .undef, _ => MByte.undef

/-- `v` is a value of type `ty`. -/
def Fits (ty : Ty) : Val → Prop
  | .int bits n => ty = .int bits ∧ n < 2 ^ bits
  | .ptr _ _ => ty = .ptr
  | .undef => True

instance (ty : Ty) (v : Val) : Decidable (v.Fits ty) := by
  cases v <;> unfold Fits <;> infer_instance

end Val

def MByte.asByte : MByte → Option Nat
  | .byte n => some n
  | _ => none

/-- The value of type `ty` that some bytes are. -/
def decode (ty : Ty) (bytes : List MByte) : Val :=
  match ty with
  | .int bits =>
    match bytes.mapM MByte.asByte with
    | some digits => .ofNat bits (Nat.ofDigits 256 digits)
    | none => .undef
  | .ptr =>
    match bytes with
    | .frag o off _ :: _ =>
      if bytes = (List.range bytes.length).map (Val.ptr o off).byteAt then .ptr o off else .undef
    | _ => .undef
  | _ => .undef

theorem ofDigits_bytes (n k : Nat) :
    Nat.ofDigits 256 ((List.range k).map fun i => n / 256 ^ i % 256) = n % 256 ^ k := by
  induction k generalizing n with
  | zero => simp [Nat.mod_one]
  | succ k ih =>
    have hrest : ((List.range k).map fun i => n / 256 ^ (i + 1) % 256) =
        (List.range k).map fun i => n / 256 / 256 ^ i % 256 := by
      refine List.map_congr_left fun i _ => ?_
      rw [Nat.div_div_eq_div_mul, pow_succ']
    rw [List.range_succ_eq_map, List.map_cons, List.map_map, Nat.ofDigits_cons]
    show n / 256 ^ 0 % 256 + 256 * Nat.ofDigits 256 ((List.range k).map fun i => n / 256 ^ (i + 1) % 256) = _
    rw [hrest, ih, pow_zero, Nat.div_one, pow_succ', Nat.mod_mul]

theorem decode_byteAt_int {bits n k : Nat} (hn : n < 2 ^ bits) (hk : bits ≤ 8 * k) :
    decode (.int bits) ((List.range k).map (Val.int bits n).byteAt) = .int bits n := by
  have hbytes : ((List.range k).map (Val.int bits n).byteAt).mapM MByte.asByte =
      some ((List.range k).map fun i => n / 256 ^ i % 256) := by
    rw [List.mapM_map]
    exact List.mapM_pure
  have hlt : n < 256 ^ k := by
    calc n < 2 ^ bits := hn
      _ ≤ 2 ^ (8 * k) := Nat.pow_le_pow_right (by decide) hk
      _ = 256 ^ k := by rw [pow_mul]; rfl
  unfold decode
  rw [hbytes]
  show Val.ofNat bits _ = _
  rw [ofDigits_bytes, Nat.mod_eq_of_lt hlt, Val.ofNat, Nat.mod_eq_of_lt hn]

theorem decode_byteAt_ptr {o : Obj} {off : Int} {k : Nat} (hk : 0 < k) :
    decode .ptr ((List.range k).map (Val.ptr o off).byteAt) = .ptr o off := by
  obtain ⟨k, rfl⟩ := Nat.exists_eq_succ_of_ne_zero hk.ne'
  have hlen : ((List.range (k + 1)).map (Val.ptr o off).byteAt).length = k + 1 := by simp
  have hhead : (List.range (k + 1)).map (Val.ptr o off).byteAt =
      .frag o off 0 :: (List.range k).map fun i => (Val.ptr o off).byteAt (i + 1) := by
    rw [List.range_succ_eq_map, List.map_cons, List.map_map]
    rfl
  rw [hhead]
  unfold decode
  dsimp only
  rw [← hhead, hlen, if_pos rfl]

/-- Undefined bytes make an undefined value. -/
theorem decode_undef {ty : Ty} {bytes : List MByte} (h : MByte.undef ∈ bytes) :
    decode ty bytes = .undef := by
  unfold decode
  cases ty with
  | int bits =>
    dsimp only
    rw [OptionFold.mapM_eq_none h rfl]
  | ptr =>
    dsimp only
    split
    · next o off i rest =>
      rw [if_neg]
      intro heq
      rw [heq] at h
      obtain ⟨j, -, hj⟩ := List.mem_map.mp h
      cases hj
    · rfl
  | _ => rfl

theorem decode_nil {ty : Ty} (h : ∀ bits, ty ≠ .int bits) : decode ty [] = .undef := by
  cases ty with
  | int bits => exact absurd rfl (h bits)
  | _ => rfl

/-! ## Loads and stores -/

namespace Mem

/-- The bytes of a range, where it lies in its object. -/
def read (M : Mem) (r : Range) : Option (List MByte) :=
  (List.range r.size).mapM fun i : Nat => M r.obj (r.off + i)

/-- Every byte of the range is a byte of its object. -/
def InBounds (M : Mem) (r : Range) : Prop := ∀ i < r.size, (M r.obj (r.off + i)).isSome

instance (M : Mem) (r : Range) : Decidable (M.InBounds r) := by
  unfold InBounds
  infer_instance

/-- Overwrite a range with the bytes of a value. -/
def write (M : Mem) (r : Range) (v : Val) : Mem := fun o i =>
  if r.Contains o i then some (v.byteAt (i - r.off).toNat) else M o i

/-- A new object, with undefined bytes. -/
def alloc (M : Mem) (n size : Nat) : Mem := fun o i =>
  if (Range.mk (.stack n) 0 size).Contains o i then some .undef else M o i

/-- No byte of the object exists. -/
def Fresh (M : Mem) (n : Nat) : Prop := ∀ i, M (.stack n) i = none

end Mem

/-- The range an access of type `ty` through `v` touches. -/
def Val.range (t : TargetDataLayout) (ty : Ty) (v : Val) : Option Range :=
  match v with
  | .ptr o off => (sizeOf t ty).map fun n => ⟨o, off, n⟩
  | _ => none

namespace Mem

def load (t : TargetDataLayout) (M : Mem) (ty : Ty) (ptr : Val) : Val :=
  match (ptr.range t ty).bind M.read with
  | some bytes => decode ty bytes
  | none => .undef

def store (t : TargetDataLayout) (M : Mem) (ty : Ty) (ptr v : Val) : Option Mem := do
  let r ← ptr.range t ty
  if M.InBounds r ∧ v.Fits ty then some (M.write r v) else none

theorem load_of_read {t : TargetDataLayout} {M : Mem} {ty : Ty} {ptr : Val} {r : Range}
    {bytes : List MByte} (hr : ptr.range t ty = some r) (h : M.read r = some bytes) :
    M.load t ty ptr = decode ty bytes := by
  rw [load, hr, Option.bind_some, h]

/-! ## What a store does to a load -/

theorem read_congr {M N : Mem} {r : Range} (h : ∀ o i, r.Contains o i → M o i = N o i) :
    M.read r = N.read r :=
  OptionFold.mapM_congr fun _ hi => h _ _ (Range.contains_add (List.mem_range.mp hi))

theorem read_write_disjoint {M : Mem} {r r' : Range} {v : Val} (h : r.Disjoint r') :
    (M.write r v).read r' = M.read r' :=
  read_congr fun o i hr' => if_neg fun hr => h o i hr hr'

theorem read_write_same (M : Mem) (r : Range) (v : Val) :
    (M.write r v).read r = some ((List.range r.size).map v.byteAt) := by
  unfold read
  have hbyte : ∀ i ∈ List.range r.size,
      M.write r v r.obj (r.off + i) = some (v.byteAt i) := by
    intro i hi
    rw [write, if_pos (Range.contains_add (List.mem_range.mp hi)), add_sub_cancel_left]
    rfl
  rw [OptionFold.mapM_congr hbyte]
  exact List.mapM_pure

theorem store_eq_some {t : TargetDataLayout} {M M' : Mem} {ty : Ty} {ptr v : Val}
    (h : M.store t ty ptr v = some M') :
    ∃ r, ptr.range t ty = some r ∧ M.InBounds r ∧ v.Fits ty ∧ M' = M.write r v := by
  obtain ⟨r, hr, h⟩ := Option.bind_eq_some_iff.mp h
  split at h
  · next hok =>
    cases h
    exact ⟨r, hr, hok.1, hok.2, rfl⟩
  · cases h

theorem int_size_le {t : TargetDataLayout} {bits n : Nat} (h : sizeOf t (.int bits) = some n) :
    bits ≤ 8 * n := by
  simp only [sizeOf, layoutOf, Option.map_some, Option.some.injEq, layoutOfInt] at h
  omega

/-- A value of a type reads back as itself. -/
theorem decode_byteAt {t : TargetDataLayout} {ty : Ty} {n : Nat} {v : Val}
    (hn : sizeOf t ty = some n) (hv : v.Fits ty) : decode ty ((List.range n).map v.byteAt) = v := by
  cases v with
  | int bits k =>
    obtain ⟨rfl, hk⟩ := hv
    exact decode_byteAt_int hk (int_size_le hn)
  | ptr o off =>
    cases hv
    refine decode_byteAt_ptr ?_
    simp only [sizeOf, layoutOf, Option.map_some, Option.some.injEq] at hn
    exact hn ▸ t.pointerSize_pos
  | undef =>
    cases n with
    | zero =>
      refine decode_nil fun bits hbits => ?_
      subst hbits
      simp only [sizeOf, layoutOf, Option.map_some, Option.some.injEq, layoutOfInt] at hn
      omega
    | succ n =>
      refine decode_undef (List.mem_map.mpr ⟨0, List.mem_range.mpr n.succ_pos, rfl⟩)

/-- A load of the type that was stored reads the stored value. -/
theorem load_store_same {t : TargetDataLayout} {M M' : Mem} {ty : Ty} {ptr v : Val}
    (h : M.store t ty ptr v = some M') : M'.load t ty ptr = v := by
  obtain ⟨r, hr, -, hv, rfl⟩ := store_eq_some h
  obtain ⟨o, off, n, rfl, hn, rfl⟩ : ∃ o off n, ptr = .ptr o off ∧ sizeOf t ty = some n ∧
      r = ⟨o, off, n⟩ := by
    cases ptr with
    | ptr o off =>
      obtain ⟨n, hn, rfl⟩ := Option.map_eq_some_iff.mp hr
      exact ⟨o, off, n, rfl, hn, rfl⟩
    | _ => cases hr
  unfold load
  rw [hr, Option.bind_some, read_write_same]
  exact decode_byteAt hn hv

/-- A load whose range no changed byte is in does not change. -/
theorem load_congr {t : TargetDataLayout} {M N : Mem} {ty : Ty} {ptr : Val}
    (h : ∀ r, ptr.range t ty = some r → ∀ o i, r.Contains o i → M o i = N o i) :
    M.load t ty ptr = N.load t ty ptr := by
  unfold load
  cases hr : ptr.range t ty with
  | none => rfl
  | some r => rw [Option.bind_some, Option.bind_some, read_congr (h r hr)]

theorem read_eq_none {M : Mem} {r : Range} (h : ¬ M.InBounds r) : M.read r = none := by
  unfold InBounds at h
  push Not at h
  obtain ⟨i, hi, hnone⟩ := h
  exact OptionFold.mapM_eq_none (List.mem_range.mpr hi) (Option.not_isSome_iff_eq_none.mp (by simpa using hnone))

/-- Two memories with the same objects that agree on the range of a load inside its object. -/
theorem load_congr_inBounds {t : TargetDataLayout} {M N : Mem} {ty : Ty} {ptr : Val}
    (hdom : ∀ o i, (N o i).isSome = (M o i).isSome)
    (h : ∀ r, ptr.range t ty = some r → M.InBounds r → ∀ o i, r.Contains o i → N o i = M o i) :
    N.load t ty ptr = M.load t ty ptr := by
  unfold load
  cases hr : ptr.range t ty with
  | none => rfl
  | some r =>
    rw [Option.bind_some, Option.bind_some]
    by_cases hin : M.InBounds r
    · rw [read_congr (h r hr hin)]
    · have hout : ¬ N.InBounds r := fun hN => hin fun i hi => (hdom _ _) ▸ hN i hi
      rw [read_eq_none hin, read_eq_none hout]

theorem write_isSome {M : Mem} {r : Range} (h : M.InBounds r) (v : Val) (o : Obj) (i : Int) :
    (M.write r v o i).isSome = (M o i).isSome := by
  unfold write
  split
  · next hc =>
    obtain ⟨k, hk, rfl, rfl⟩ := Range.exists_of_contains hc
    rw [h k hk]
    rfl
  · rfl

/-- A store changes no load from a disjoint range. -/
theorem load_write {t : TargetDataLayout} {M : Mem} {w : Range} {v : Val} {ty : Ty} {ptr : Val}
    (hin : M.InBounds w)
    (h : ∀ r, ptr.range t ty = some r → M.InBounds r → r.Disjoint w) :
    (M.write w v).load t ty ptr = M.load t ty ptr :=
  load_congr_inBounds (write_isSome hin v) fun r hr hrin o i hc => if_neg (h r hr hrin o i hc)

/-- A new object changes no load. -/
theorem load_alloc {t : TargetDataLayout} {M : Mem} {n size : Nat} (hfresh : M.Fresh n) (ty : Ty)
    (ptr : Val) : (M.alloc n size).load t ty ptr = M.load t ty ptr := by
  by_cases hobj : ∃ r, ptr.range t ty = some r ∧ r.obj = .stack n ∧ 0 < r.size
  · -- before, the range lies outside every object; after, its bytes are undefined
    obtain ⟨r, hr, ho, hsize⟩ := hobj
    -- the new object was fresh, so nothing was read there
    have hbefore : M.read r = none := by
      have hzero : M r.obj (r.off + (0 : Nat)) = none := by
        rw [ho]
        exact hfresh _
      unfold read
      obtain ⟨k, hk⟩ := Nat.exists_eq_succ_of_ne_zero hsize.ne'
      rw [hk, List.range_succ_eq_map, List.mapM_cons, hzero]
      rfl
    -- its bytes are undefined
    have hafter : ∀ bytes, (M.alloc n size).read r = some bytes → decode ty bytes = .undef := by
      intro bytes hbytes
      refine decode_undef ?_
      unfold read at hbytes
      obtain ⟨k, hk⟩ := Nat.exists_eq_succ_of_ne_zero hsize.ne'
      rw [hk, List.range_succ_eq_map, List.mapM_cons] at hbytes
      obtain ⟨b, hb, hbytes⟩ := Option.bind_eq_some_iff.mp hbytes
      obtain ⟨bs, -, heq⟩ := Option.bind_eq_some_iff.mp hbytes
      cases heq
      rw [alloc, ho] at hb
      split at hb
      · cases hb
        exact List.mem_cons_self
      · rw [hfresh] at hb
        cases hb
    unfold load
    rw [hr, Option.bind_some, Option.bind_some, hbefore]
    cases hread : (M.alloc n size).read r with
    | none => rfl
    | some bytes => exact hafter bytes hread
  -- a range elsewhere is not touched
  · refine load_congr fun r hr o i hi => if_neg ?_
    rintro ⟨ho, -, -⟩
    obtain ⟨k, hk, ho', -⟩ := Range.exists_of_contains hi
    exact hobj ⟨r, hr, ho'.symm.trans ho, by omega⟩

end Mem

end Ir
