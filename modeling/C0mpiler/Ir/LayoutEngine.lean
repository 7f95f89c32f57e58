import C0mpiler.Data.Memo
import C0mpiler.Ir.Layout
import Mathlib

/-!
# The layout engine

`TypeLayoutEngine` (`layout.rs`): `compute_layout` in `u32` arithmetic, every call for a part of a
type going through the cache. An arithmetic overflow panics when the compiler is built with
overflow checks and wraps when it is not (`checks`). A panic or an error leaves in the cache what
was stored before it.

`computeLayout` is written over any monad and any way to call itself, so the engine (`engine`) and
the plain recursion without a cache (`uncached`) are the same code; `layoutOf_engine` says that the
cache makes no difference. The plain recursion is then compared with the sizes in natural numbers.
-/

namespace Ir

/-- The types without a layout. -/
inductive LayoutError where
  | opaqueStruct
  | unsizedFunction
  | invalidLabel
  deriving DecidableEq, Repr

/-- A layout is refused, or an arithmetic operation of the build panics. -/
inductive LayoutFailure where
  | error (e : LayoutError)
  | panic
  deriving DecidableEq, Repr

namespace TypeLayoutEngine

section Compute

variable {m : Type → Type} [Monad m] [MonadExceptOf LayoutFailure m] (checks : Bool)
  (t : TargetDataLayout) (layoutOf : Ty → m TypeLayout → m TypeLayout)

/-- A `u32` operation with the mathematical result `n`. -/
def u32 (n : Nat) : m Nat :=
  if n < 2 ^ 32 then return n
  else if checks then throw .panic
  else return n % 2 ^ 32

/-- `align_to`, with `u32::next_multiple_of` spelled out. -/
def alignTo (value align : Nat) : m Nat :=
  if align = 0 then throw .panic
  else if value % align = 0 then return value
  else u32 checks (value + (align - value % align))

/-- One turn of the loop of `compute_struct_layout`. -/
def placeField (packed : Bool) (c : StructCursor) (field : Layout) : m StructCursor := do
  let offset ← alignTo checks c.offset (if packed then 1 else field.align)
  let next ← u32 checks (offset + field.size)
  return {
    fields := c.fields ++ [⟨offset, field⟩]
    offset := next
    align := if packed then c.align else max c.align field.align }

/-- The end of `compute_struct_layout`. -/
def finishStruct (packed : Bool) (c : StructCursor) : m TypeLayout := do
  let align := if packed then 1 else c.align
  let size ← alignTo checks c.offset align
  return ⟨⟨size, align⟩, .struct ⟨⟨size, align⟩, c.fields, packed⟩⟩

mutual
/-- `compute_layout`; `layoutOf ty x` is a call of `layout_of` on `ty` that computes `x` when it
has to. -/
def computeLayout : Ty → m TypeLayout
  | .int bits => return ⟨layoutOfInt bits, .scalar⟩
  | .ptr => return ⟨⟨t.pointerSize, t.pointerAlign⟩, .scalar⟩
  | .void => return ⟨⟨0, 1⟩, .scalar⟩
  | .array elemTy len => do
    let elem ← layoutOf elemTy (computeLayout elemTy)
    let stride ← alignTo checks elem.layout.size elem.layout.align
    let size ← u32 checks (stride * len)
    let layout : Layout := ⟨size, elem.layout.align⟩
    return ⟨layout, .array ⟨layout, elem.layout, stride, len⟩⟩
  | .struct fieldTys packed => do
    let c ← placeFields packed fieldTys ⟨[], 0, 1⟩
    finishStruct checks packed c
  | .structForward => throw (.error .opaqueStruct)
  | .function _ _ => throw (.error .unsizedFunction)
  | .label => throw (.error .invalidLabel)

/-- The loop of `compute_struct_layout`. -/
def placeFields (packed : Bool) : List Ty → StructCursor → m StructCursor
  | [], c => return c
  | fieldTy :: fieldTys, c => do
    let field ← layoutOf fieldTy (computeLayout fieldTy)
    let c ← placeField checks packed c field.layout
    placeFields packed fieldTys c
end

end Compute

end TypeLayoutEngine

/-- The engine with what it has computed so far. -/
structure TypeLayoutEngine where
  target : TargetDataLayout
  cache : HashMap Ty TypeLayout

namespace TypeLayoutEngine

/-- `layout_of` of the engine, on its cache. -/
def layoutOfM (checks : Bool) (t : TargetDataLayout) (ty : Ty) :
    MemoM Ty TypeLayout LayoutFailure TypeLayout :=
  MemoM.memoise ty (computeLayout checks t MemoM.memoise ty)

/-- `layout_of`: the answer and the engine afterwards. -/
def layoutOf (checks : Bool) (e : TypeLayoutEngine) (ty : Ty) :
    Except LayoutFailure TypeLayout × TypeLayoutEngine :=
  let (r, cache) := (layoutOfM checks e.target ty).exec e.cache
  (r, { e with cache })

/-- The engines that a target's engine can become. -/
inductive Reachable (checks : Bool) (t : TargetDataLayout) : TypeLayoutEngine → Prop where
  | new : Reachable checks t ⟨t, ∅⟩
  | clearCache {e} (h : Reachable checks t e) : Reachable checks t { e with cache := ∅ }
  | layoutOf {e} (h : Reachable checks t e) (ty : Ty) :
    Reachable checks t (e.layoutOf checks ty).2

/-- The same recursion without a cache. -/
def uncached (checks : Bool) (t : TargetDataLayout) (ty : Ty) : Except LayoutFailure TypeLayout :=
  computeLayout checks t (fun _ x => x) ty

/-- Up to a wrong element size in arrays without elements, and up to every size that does not fit
in 32 bits. -/
structure Agrees (l l' : TypeLayout) : Prop where
  align : l'.layout.align = l.layout.align
  layout : l.layout.size < 2 ^ 32 → l'.layout = l.layout
  struct : l.layout.size < 2 ^ 32 → ∀ s, l.shape = .struct s → l'.shape = .struct s
  array : l.layout.size < 2 ^ 32 → ∀ a, l.shape = .array a →
    ∃ a', l'.shape = .array a' ∧ a'.layout = a.layout ∧ a'.len = a.len ∧ (0 < a.len → a' = a)

/-- A layout agrees with itself. -/
theorem Agrees.refl (l : TypeLayout) : Agrees l l :=
  ⟨rfl, fun _ => rfl, fun _ _ h => h, fun _ a h => ⟨a, h, rfl, rfl, fun _ => rfl⟩⟩

mutual
/-- The elements of the arrays of length 0 in the type fit in 32 bits. -/
def ZeroLengthFits (t : TargetDataLayout) : Ty → Prop
  | .array elemTy len =>
    ZeroLengthFits t elemTy ∧ (len = 0 → ∀ stride ∈ strideOf t elemTy, stride < 2 ^ 32)
  | .struct fieldTys _ => ZeroLengthFitsAll t fieldTys
  | _ => True

/-- The condition for a list of types. -/
def ZeroLengthFitsAll (t : TargetDataLayout) : List Ty → Prop
  | [] => True
  | ty :: tys => ZeroLengthFits t ty ∧ ZeroLengthFitsAll t tys
end

end TypeLayoutEngine

/-! ## What a layout has to be -/

/-- Fields have the layouts of their types and lie in the struct one after the other, aligned
unless the struct is packed. -/
structure StructLayout.Sound (t : TargetDataLayout) (fieldTys : List Ty) (packed : Bool)
    (s : StructLayout) : Prop where
  packed_eq : s.packed = packed
  align_pos : 1 ≤ s.layout.align
  size : packed = false → s.layout.align ∣ s.layout.size
  fields : List.Forall₂ (fun ty f => ∃ l, layoutOf t ty = some l ∧ f.layout = l.layout) fieldTys
    s.fields
  aligned : packed = false → ∀ f ∈ s.fields, f.layout.align ∣ f.offset
  inside : ∀ f ∈ s.fields, f.offset + f.layout.size ≤ s.layout.size
  sorted : ∀ (i j : Nat) (f g : FieldLayout), i ≤ j → s.fields[i]? = some f → s.fields[j]? = some g →
    f.offset ≤ g.offset
  disjoint : ∀ (i j : Nat) (f g : FieldLayout), i < j → s.fields[i]? = some f → s.fields[j]? = some g →
    f.offset + f.layout.size ≤ g.offset

/-- Elements have the layout of their type and lie in the array one stride after the other,
aligned. -/
structure ArrayLayout.Sound (t : TargetDataLayout) (elemTy : Ty) (len : Nat) (a : ArrayLayout) :
    Prop where
  len_eq : a.len = len
  align_pos : 1 ≤ a.layout.align
  size : a.layout.align ∣ a.layout.size
  elem : 0 < len → ∃ l, layoutOf t elemTy = some l ∧ a.elem = l.layout
  aligned : ∀ i < len, a.elem.align ∣ i * a.stride
  inside : ∀ i < len, i * a.stride + a.elem.size ≤ a.layout.size
  disjoint : ∀ i j, i < j → j < len → i * a.stride + a.elem.size ≤ j * a.stride

/-- A layout that says the size and the alignment of its type, and of its parts. -/
structure TypeLayout.Sound (t : TargetDataLayout) (ty : Ty) (l : TypeLayout) : Prop where
  align_pos : 1 ≤ l.layout.align
  layout : (layoutOf t ty).map TypeLayout.layout = some l.layout
  struct : ∀ fieldTys packed, ty = .struct fieldTys packed →
    ∃ s, l.shape = .struct s ∧ s.layout = l.layout ∧ s.Sound t fieldTys packed
  array : ∀ elemTy len, ty = .array elemTy len →
    ∃ a, l.shape = .array a ∧ a.layout = l.layout ∧ a.Sound t elemTy len

namespace TypeLayoutEngine

/-! ## The cache makes no difference -/

section Cache

variable {checks : Bool} {t : TargetDataLayout} {f : Ty → Except LayoutFailure TypeLayout}

open MemoM

/-- A check of the arithmetic asks for no layout. -/
theorem follows_u32 (n : Nat) : Follows f (u32 checks n) (u32 checks n) := by
  unfold u32
  split
  · exact Follows.pure _
  · split
    · exact Follows.throw _
    · exact Follows.pure _

/-- Aligning asks for no layout. -/
theorem follows_alignTo (value align : Nat) :
    Follows f (alignTo checks value align) (alignTo checks value align) := by
  unfold alignTo
  split
  · exact Follows.throw _
  · split
    · exact Follows.pure _
    · exact follows_u32 _

/-- Placing a field asks for no layout. -/
theorem follows_placeField (packed : Bool) (c : StructCursor) (field : Layout) :
    Follows f (placeField checks packed c field) (placeField checks packed c field) :=
  (follows_alignTo _ _).bind fun _ _ => (follows_u32 _).bind fun _ _ => Follows.pure _

/-- Finishing a struct asks for no layout. -/
theorem follows_finishStruct (packed : Bool) (c : StructCursor) :
    Follows f (finishStruct checks packed c) (finishStruct checks packed c) :=
  (follows_alignTo _ _).bind fun _ _ => Follows.pure _

/-- What the engine computes with its memo is what it computes without. -/
theorem follows_computeLayout (ty : Ty) :
    Follows (uncached checks t) (computeLayout checks t memoise ty) (uncached checks t ty) := by
  unfold uncached
  cases ty with
  | int | ptr | void =>
    rw [computeLayout, computeLayout]
    exact Follows.pure _
  | structForward | function | label =>
    rw [computeLayout, computeLayout]
    exact Follows.throw _
  | array elemTy _ =>
    rw [computeLayout, computeLayout]
    refine (follows_computeLayout elemTy).memoise.bind fun elem _ => ?_
    exact (follows_alignTo _ _).bind fun _ _ => (follows_u32 _).bind fun _ _ => Follows.pure _
  | struct fieldTys packed =>
    rw [computeLayout, computeLayout]
    exact (follows_placeFields packed fieldTys _).bind fun _ _ => follows_finishStruct _ _
where
  follows_placeFields (packed : Bool) (fieldTys : List Ty) (c : StructCursor) :
      Follows (uncached checks t) (placeFields checks t memoise packed fieldTys c)
        (placeFields checks t (fun _ x => x) packed fieldTys c) := by
    cases fieldTys with
    | nil =>
      rw [placeFields, placeFields]
      exact Follows.pure _
    | cons fieldTy fieldTys =>
      rw [placeFields, placeFields]
      refine (follows_computeLayout fieldTy).memoise.bind fun field _ => ?_
      exact (follows_placeField _ _ _).bind fun c _ => follows_placeFields packed fieldTys c

/-- A reachable engine has its target, and right layouts in its memo. -/
theorem Reachable.holds {e : TypeLayoutEngine} (h : Reachable checks t e) :
    e.target = t ∧ Holds (uncached checks t) e.cache := by
  induction h with
  | new => exact ⟨rfl, Holds.empty _⟩
  | clearCache _ ih => exact ⟨ih.1, Holds.empty _⟩
  | layoutOf _ ty ih =>
    obtain ⟨rfl, hcache⟩ := ih
    exact ⟨rfl, ((follows_computeLayout ty).memoise _ hcache).2⟩

/-- Whatever has been asked before, the engine answers as if it had no cache. -/
theorem Reachable.layoutOf_fst {e : TypeLayoutEngine} (h : Reachable checks t e) (ty : Ty) :
    (e.layoutOf checks ty).1 = uncached checks t ty := by
  obtain ⟨rfl, hcache⟩ := h.holds
  exact ((follows_computeLayout ty).memoise _ hcache).1

end Cache

/-! ## The engine against the sizes in natural numbers -/

section Exact

variable {checks : Bool} {t : TargetDataLayout}

/-- A step that succeeds. -/
theorem bind_ok {α β : Type} {x : Except LayoutFailure α} {a : α} (h : x = .ok a)
    (g : α → Except LayoutFailure β) : x >>= g = g a :=
  h ▸ rfl

/-- A number that fits passes the check unchanged. -/
theorem u32_spec (n : Nat) (h : checks = true → n < 2 ^ 32) :
    ∃ n', (u32 checks n : Except LayoutFailure Nat) = .ok n' ∧ (n < 2 ^ 32 → n' = n) := by
  unfold u32
  by_cases hn : n < 2 ^ 32
  · exact ⟨n, if_pos hn, fun _ => rfl⟩
  · have hchecks : ¬checks = true := fun hc => hn (h hc)
    exact ⟨n % 2 ^ 32, by rw [if_neg hn, if_neg hchecks]; rfl, fun h => absurd h hn⟩

/-- Aligning is adding what is missing to the next multiple. -/
theorem nextMultiple_eq {value align : Nat} (h : 0 < align) :
    Ir.alignTo value align =
      if value % align = 0 then value else value + (align - value % align) := by
  have hdiv : align * (value / align) + value % align = value := Nat.div_add_mod _ _
  have hlt : value % align < align := Nat.mod_lt _ h
  unfold Ir.alignTo
  split
  · next hzero =>
    have hquot : (value + (align - 1)) / align = value / align := by
      rw [Nat.div_eq_iff h, Nat.mul_comm]
      constructor <;> omega
    rw [hquot, Nat.mul_comm]
    omega
  · next hzero =>
    have hquot : (value + (align - 1)) / align = value / align + 1 := by
      rw [Nat.div_eq_iff h, Nat.add_mul, Nat.mul_comm]
      constructor <;> omega
    rw [hquot, Nat.add_mul, Nat.mul_comm]
    omega

/-- Aligning succeeds where the result fits, and is exact there. -/
theorem alignTo_spec (value : Nat) {align : Nat} (hpos : 0 < align)
    (h : checks = true → Ir.alignTo value align < 2 ^ 32) :
    ∃ n', (alignTo checks value align : Except LayoutFailure Nat) = .ok n' ∧
      (Ir.alignTo value align < 2 ^ 32 → n' = Ir.alignTo value align) := by
  rw [nextMultiple_eq hpos] at h ⊢
  unfold alignTo
  rw [if_neg hpos.ne']
  split at h
  · next hzero => exact ⟨value, if_pos hzero, fun _ => (if_pos hzero).symm⟩
  · next hzero =>
    rw [if_neg hzero, if_neg hzero]
    exact u32_spec _ h

/-- The loop over the fields has the right alignment, and the right state while it fits. -/
structure CursorAgrees (c c' : StructCursor) : Prop where
  align : c'.align = c.align
  exact : c.offset < 2 ^ 32 → c' = c

/-- A field is placed where the unbounded engine places it, as far as offsets fit. -/
theorem placeField_spec (packed : Bool) {c c' : StructCursor} {field field' : Layout}
    (hc : CursorAgrees c c') (halign : field'.align = field.align)
    (hfield : field.size < 2 ^ 32 → field' = field) (hpos : 0 < field.align)
    (hfits : checks = true → (c.place packed field).offset < 2 ^ 32) :
    ∃ d, (placeField checks packed c' field' : Except LayoutFailure StructCursor) = .ok d ∧
      CursorAgrees (c.place packed field) d := by
  set align := if packed then 1 else field.align with halignDef
  -- alignments never wrap, so they agree
  have halign' : (if packed then 1 else field'.align) = align := by rw [halign]
  have hpos' : 0 < align := by
    rw [halignDef]
    split
    · exact Nat.one_pos
    · exact hpos
  have hplace : (c.place packed field).offset = Ir.alignTo c.offset align + field.size := rfl
  have hle : c.offset ≤ Ir.alignTo c.offset align := le_alignTo hpos'
  -- Once the new offset fits, the state before and the field were right.
  -- a smaller offset fits when the new one does
  have hexact : (c.place packed field).offset < 2 ^ 32 → c' = c ∧ field' = field := fun h =>
    ⟨hc.exact (by omega), hfield (by omega)⟩
  obtain ⟨offset, hoffset, hoffsetEq⟩ := alignTo_spec c'.offset hpos' fun h => by
    have hfit : (c.place packed field).offset < 2 ^ 32 := hfits h
    rw [(hexact hfit).1]
    omega
  have hoffsetExact : (c.place packed field).offset < 2 ^ 32 → offset = Ir.alignTo c.offset align := by
    intro h
    rw [(hexact h).1] at hoffsetEq
    exact hoffsetEq (by omega)
  -- the addition fits when the sum does
  obtain ⟨next, hnext, hnextEq⟩ := u32_spec (offset + field'.size) fun h => by
    have hfit : (c.place packed field).offset < 2 ^ 32 := hfits h
    rw [hoffsetExact hfit, (hexact hfit).2]
    exact hfit
  -- the cursor that results
  refine ⟨⟨c'.fields ++ [⟨offset, field'⟩], next,
    if packed then c'.align else max c'.align field'.align⟩, ?_, ?_, ?_⟩
  · unfold placeField
    rw [halign']
    exact (bind_ok hoffset _).trans (bind_ok hnext _)
  · exact show (if packed then c'.align else max c'.align field'.align) =
      if packed then c.align else max c.align field.align by rw [hc.align, halign]
  · intro hfit
    obtain ⟨rfl, rfl⟩ := hexact hfit
    have hnextExact : next = Ir.alignTo c'.offset align + field'.size := by
      rw [hoffsetExact hfit] at hnextEq
      exact hnextEq hfit
    rw [hoffsetExact hfit, hnextExact]
    rfl

/-- A struct is finished as in the unbounded engine, if its size fits. -/
theorem finishStruct_spec (packed : Bool) {c c' : StructCursor} (hc : CursorAgrees c c')
    (hpos : 0 < c.align) (hfits : checks = true → (c.finish packed).layout.size < 2 ^ 32) :
    ∃ l, (finishStruct checks packed c' : Except LayoutFailure TypeLayout) = .ok l ∧
      Agrees ⟨(c.finish packed).layout, .struct (c.finish packed)⟩ l := by
  set align := if packed then 1 else c.align with halignDef
  have halign' : (if packed then 1 else c'.align) = align := by rw [hc.align]
  have hpos' : 0 < align := by
    rw [halignDef]
    split
    · exact Nat.one_pos
    · exact hpos
  -- the size is the offset, rounded up
  have hsizeEq : (c.finish packed).layout.size = Ir.alignTo c.offset align := rfl
  have hle : c.offset ≤ Ir.alignTo c.offset align := le_alignTo hpos'
  obtain ⟨size, hsize, hsizeExact⟩ := alignTo_spec c'.offset hpos' fun h => by
    have hfit : (c.finish packed).layout.size < 2 ^ 32 := hfits h
    rw [hc.exact (by omega)]
    omega
  -- a size that fits is right
  have hfinish : (c.finish packed).layout.size < 2 ^ 32 →
      (⟨⟨size, align⟩, c'.fields, packed⟩ : StructLayout) = c.finish packed := by
    intro hfit
    obtain rfl := hc.exact (by omega)
    rw [hsizeExact (by omega)]
    rfl
  refine ⟨⟨⟨size, align⟩, .struct ⟨⟨size, align⟩, c'.fields, packed⟩⟩, ?_, rfl, ?_, ?_, ?_⟩
  · unfold finishStruct
    rw [halign']
    exact bind_ok hsize _
  · exact fun hfit => congrArg StructLayout.layout (hfinish hfit)
  · intro hfit s hs
    cases hs
    exact congrArg LayoutShape.struct (hfinish hfit)
  · intro _ _ ha
    cases ha

/-- The size of an array is right if its stride and its size fit. -/
theorem arrayLayout_spec {elem elem' : TypeLayout} (helem : Agrees elem elem')
    (hpos : 0 < elem.layout.align) (len : Nat)
    (hfits : checks = true → elem.layout.stride < 2 ^ 32 ∧ elem.layout.stride * len < 2 ^ 32) :
    ∃ stride size, (alignTo checks elem'.layout.size elem'.layout.align : Except LayoutFailure Nat) =
        .ok stride ∧ (u32 checks (stride * len) : Except LayoutFailure Nat) = .ok size ∧
      Agrees ⟨⟨elem.layout.stride * len, elem.layout.align⟩, .array
          ⟨⟨elem.layout.stride * len, elem.layout.align⟩, elem.layout, elem.layout.stride, len⟩⟩
        ⟨⟨size, elem'.layout.align⟩,
          .array ⟨⟨size, elem'.layout.align⟩, elem'.layout, stride, len⟩⟩ := by
  have hle : elem.layout.size ≤ elem.layout.stride := le_alignTo hpos
  -- A stride that fits is right.
  have hexact : elem.layout.stride < 2 ^ 32 → elem'.layout = elem.layout := fun h =>
    helem.layout (lt_of_le_of_lt hle h)
  obtain ⟨stride, hstride, hstrideEq⟩ := alignTo_spec elem'.layout.size
    (helem.align ▸ hpos) fun h => by
      rw [hexact (hfits h).1]
      exact (hfits h).1
  -- a stride that fits is computed exactly
  have hstrideExact : elem.layout.stride < 2 ^ 32 → stride = elem.layout.stride := by
    intro h
    rw [hexact h] at hstrideEq
    exact hstrideEq h
  obtain ⟨size, hsize, hsizeEq⟩ := u32_spec (stride * len) fun h => by
    rw [hstrideExact (hfits h).1]
    exact (hfits h).2
  have hstrideFits : elem.layout.stride * len < 2 ^ 32 → 0 < len → elem.layout.stride < 2 ^ 32 :=
    fun h hlen => lt_of_le_of_lt (Nat.le_mul_of_pos_right _ hlen) h
  -- the product fits when the array does; an empty array has size zero
  have hsizeExact : elem.layout.stride * len < 2 ^ 32 → size = elem.layout.stride * len := by
    intro h
    rcases Nat.eq_zero_or_pos len with rfl | hlen
    · exact hsizeEq (by omega)
    · rw [hstrideExact (hstrideFits h hlen)] at hsizeEq
      exact hsizeEq h
  have hlayout : elem.layout.stride * len < 2 ^ 32 → (⟨size, elem'.layout.align⟩ : Layout) =
      ⟨elem.layout.stride * len, elem.layout.align⟩ := by
    intro h
    rw [hsizeExact h, helem.align]
  refine ⟨stride, size, hstride, hsize, helem.align, hlayout, ?_, ?_⟩
  · intro _ _ hs
    cases hs
  · intro h a ha
    cases ha
    -- the elements are multiples of the stride
    refine ⟨_, rfl, hlayout h, rfl, fun hlen => ?_⟩
    have hfit : elem.layout.stride < 2 ^ 32 := hstrideFits h hlen
    rw [hlayout h, hexact hfit, hstrideExact hfit]

theorem computeLayout_spec {ty : Ty} {l : TypeLayout} (h : Ir.layoutOf t ty = some l)
    (hfits : checks = true → l.layout.size < 2 ^ 32 ∧ ZeroLengthFits t ty) :
    ∃ l', uncached checks t ty = .ok l' ∧ Agrees l l' := by
  unfold uncached
  cases ty with
  | int | ptr | void =>
    rw [Ir.layoutOf] at h
    cases h
    rw [computeLayout]
    exact ⟨_, rfl, Agrees.refl _⟩
  | structForward | function | label =>
    rw [Ir.layoutOf] at h
    cases h
  | array elemTy len =>
    rw [Ir.layoutOf] at h
    -- an array of no elements has size zero, but its stride is computed all the same
    split at h
    · next elem helem =>
      cases h
      have hstride : checks = true → elem.layout.stride < 2 ^ 32 := by
        intro hc
        obtain ⟨hsize, hzero⟩ := hfits hc
        rw [ZeroLengthFits] at hzero
        rcases Nat.eq_zero_or_pos len with rfl | hlen
        · exact hzero.2 rfl _ (by simp [strideOf, helem])
        · exact lt_of_le_of_lt (Nat.le_mul_of_pos_right _ hlen) hsize
      obtain ⟨elem', helem', hagrees⟩ := computeLayout_spec helem fun hc => by
        obtain ⟨-, hzero⟩ := hfits hc
        rw [ZeroLengthFits] at hzero
        exact ⟨lt_of_le_of_lt (size_le_stride helem) (hstride hc), hzero.1⟩
      obtain ⟨stride, size, hstrideRun, hsizeRun, hresult⟩ := arrayLayout_spec hagrees
        (align_pos helem) len fun hc => ⟨hstride hc, (hfits hc).1⟩
      refine ⟨_, ?_, hresult⟩
      rw [computeLayout,
        show (computeLayout checks t (fun _ x => x) elemTy : Except LayoutFailure _) = .ok elem' from helem']
      exact (bind_ok hstrideRun _).trans (bind_ok hsizeRun _)
    · cases h
  | struct fieldTys packed =>
    rw [Ir.layoutOf] at h
    -- the fields fit because the struct does
    split at h
    · next c hc =>
      cases h
      have hpos : 0 < c.align := align_pos.placeFields_align_pos hc Nat.one_pos
      obtain ⟨c', hc', hagrees⟩ := computeLayout_placeFields hc ⟨rfl, fun _ => rfl⟩ fun hchecks => by
        obtain ⟨hsize, hzero⟩ := hfits hchecks
        rw [ZeroLengthFits] at hzero
        refine ⟨lt_of_le_of_lt (le_alignTo ?_) hsize, hzero⟩
        split
        · exact Nat.one_pos
        · exact hpos
      obtain ⟨l', hl', hresult⟩ := finishStruct_spec packed hagrees hpos fun hchecks =>
        (hfits hchecks).1
      refine ⟨l', ?_, hresult⟩
      rw [computeLayout, hc']
      exact hl'
    · cases h
where
  computeLayout_placeFields {packed : Bool} {fieldTys : List Ty} {c c' d : StructCursor}
      (h : Ir.placeFields t packed fieldTys c = some d) (hc : CursorAgrees c c')
      (hfits : checks = true → d.offset < 2 ^ 32 ∧ ZeroLengthFitsAll t fieldTys) :
      ∃ d', (placeFields checks t (fun _ x => x) packed fieldTys c' :
        Except LayoutFailure StructCursor) = .ok d' ∧ CursorAgrees d d' := by
    cases fieldTys with
    | nil =>
      rw [Ir.placeFields] at h
      cases h
      exact ⟨c', by rw [placeFields]; rfl, hc⟩
    | cons fieldTy fieldTys =>
      rw [Ir.placeFields] at h
      split at h
      · next field hfield =>
        obtain ⟨fs, -, hbetween, -⟩ := placeFields_spec h
        have hle : (c.place packed field.layout).offset ≤ d.offset := hbetween.le
        have hfieldLe : field.layout.size ≤ (c.place packed field.layout).offset :=
          Nat.le_add_left _ _
        obtain ⟨field', hfield', hagrees⟩ := computeLayout_spec hfield fun hchecks => by
          obtain ⟨hsize, hzero⟩ := hfits hchecks
          rw [ZeroLengthFitsAll] at hzero
          exact ⟨by omega, hzero.1⟩
        obtain ⟨c₁, hc₁, hplace⟩ := placeField_spec packed hc hagrees.align hagrees.layout
          (align_pos hfield) fun hchecks => lt_of_le_of_lt hle (hfits hchecks).1
        obtain ⟨d', hd', hd⟩ := computeLayout_placeFields h hplace fun hchecks => by
          obtain ⟨hsize, hzero⟩ := hfits hchecks
          rw [ZeroLengthFitsAll] at hzero
          exact ⟨hsize, hzero.2⟩
        refine ⟨d', ?_, hd⟩
        rw [placeFields, show (computeLayout checks t (fun _ x => x) fieldTy :
          Except LayoutFailure TypeLayout) = .ok field' from hfield']
        exact (bind_ok hc₁ _).trans hd'
      · cases h

end Exact

/-! ## Layouts of types that fit -/

section Sound

variable {t : TargetDataLayout}

/-- The layout of a struct says where its fields lie. -/
theorem struct_sound {fieldTys : List Ty} {packed : Bool} {c : StructCursor}
    (h : Ir.placeFields t packed fieldTys ⟨[], 0, 1⟩ = some c) :
    (c.finish packed).Sound t fieldTys packed := by
  obtain ⟨fs, hfields, hbetween, htys⟩ := placeFields_spec h
  have hpos : 0 < c.align := align_pos.placeFields_align_pos h Nat.one_pos
  obtain rfl : c.fields = fs := by simpa using hfields
  have hpos' : 0 < if packed then 1 else c.align := by
    split
    · exact Nat.one_pos
    · exact hpos
  -- the fields lie between the start and the end of the struct
  have hall : FieldsBetween 0 c.fields (c.finish packed).layout.size :=
    hbetween.mono le_rfl (le_alignTo hpos')
  have hdisjoint : ∀ (i j : Nat) (f g : FieldLayout), i < j → c.fields[i]? = some f → c.fields[j]? = some g →
      f.offset + f.layout.size ≤ g.offset := fun _ _ _ _ hij => hall.disjoint hij
  -- the fields of `Sound`
  refine {
    packed_eq := rfl
    align_pos := hpos'
    size := fun _ => dvd_alignTo _ _
    fields := htys
    aligned := ?_
    inside := fun f hf => ?_
    sorted := fun i j f g hij hf hg => ?_
    disjoint := hdisjoint }
  · rintro rfl
    exact placeFields_aligned h (List.forall_mem_nil _)
  · obtain ⟨i, hi⟩ := List.getElem?_of_mem hf
    exact (hall.bounds hi).2
  -- of two fields the earlier one ends first
  · rcases Nat.lt_or_eq_of_le hij with hij | rfl
    · exact le_trans (Nat.le_add_right _ _) (hdisjoint i j f g hij hf hg)
    · exact (congrArg FieldLayout.offset (Option.some.inj (hf.symm.trans hg))).le

/-- The layout of an array says where its elements lie. -/
theorem array_sound {elemTy : Ty} {elem : TypeLayout} (h : Ir.layoutOf t elemTy = some elem)
    (len : Nat) : ArrayLayout.Sound t elemTy len ⟨⟨elem.layout.stride * len, elem.layout.align⟩,
      elem.layout, elem.layout.stride, len⟩ := by
  have hle : elem.layout.size ≤ elem.layout.stride := size_le_stride h
  have hdvd : elem.layout.align ∣ elem.layout.stride := dvd_alignTo _ _
  have hnext : ∀ i j, i < j → i * elem.layout.stride + elem.layout.size ≤ j * elem.layout.stride := by
    intro i j hij
    calc i * elem.layout.stride + elem.layout.size
        ≤ i * elem.layout.stride + elem.layout.stride := Nat.add_le_add_left hle _
      _ = (i + 1) * elem.layout.stride := (Nat.succ_mul _ _).symm
      _ ≤ j * elem.layout.stride := Nat.mul_le_mul_right _ hij
  exact {
    len_eq := rfl
    align_pos := align_pos h
    size := hdvd.mul_right len
    elem := fun _ => ⟨elem, h, rfl⟩
    aligned := fun i _ => hdvd.mul_left i
    inside := fun i hi => le_of_le_of_eq (hnext i len hi) (Nat.mul_comm _ _)
    disjoint := fun i j hij _ => hnext i j hij }

/-- What agrees with the layout of a type that fits is sound. -/
theorem Agrees.sound {ty : Ty} {l l' : TypeLayout} (hagrees : Agrees l l')
    (h : Ir.layoutOf t ty = some l) (hsize : l.layout.size < 2 ^ 32) : l'.Sound t ty := by
  have hlayout : l'.layout = l.layout := hagrees.layout hsize
  refine {
    align_pos := hagrees.align ▸ align_pos h
    layout := by rw [h, hlayout]; rfl
    struct := fun fieldTys packed hty => ?_
    array := fun elemTy len hty => ?_ }
  · subst hty
    rw [Ir.layoutOf] at h
    split at h
    · next c hc =>
      cases h
      exact ⟨_, hagrees.struct hsize _ rfl, hlayout.symm, struct_sound hc⟩
    · cases h
  · subst hty
    rw [Ir.layoutOf] at h
    split at h
    · next elem helem =>
      cases h
      obtain ⟨a, hshape, halayout, hlen, hexact⟩ := hagrees.array hsize _ rfl
      refine ⟨a, hshape, halayout.trans hlayout.symm, ?_⟩
      rcases Nat.eq_zero_or_pos len with rfl | hpos
      -- An array without elements.
      · refine {
          len_eq := hlen
          align_pos := halayout ▸ align_pos helem
          size := ?_
          elem := fun h => absurd h (lt_irrefl 0)
          aligned := fun i hi => absurd hi (Nat.not_lt_zero i)
          inside := fun i hi => absurd hi (Nat.not_lt_zero i)
          disjoint := fun _ j _ hj => absurd hj (Nat.not_lt_zero j) }
        rw [halayout]
        exact dvd_zero _
      · rw [hexact hpos]
        exact array_sound helem len
    · cases h

/-- `layout_of` on a type that fits: one sound layout, whatever the engine was asked before. -/
theorem layoutOf_sound (checks : Bool) {ty : Ty} {l : TypeLayout} (h : Ir.layoutOf t ty = some l)
    (hsize : l.layout.size < 2 ^ 32) (hzero : checks = true → ZeroLengthFits t ty) :
    ∃ l', l'.Sound t ty ∧ ∀ e, Reachable checks t e → (e.layoutOf checks ty).1 = .ok l' := by
  obtain ⟨l', hl', hagrees⟩ := computeLayout_spec h fun hchecks => ⟨hsize, hzero hchecks⟩
  exact ⟨l', hagrees.sound h hsize, fun e he => (he.layoutOf_fst ty).trans hl'⟩

/-- Three structs of a byte and an `i24`, asked for after the struct itself. -/
theorem layoutOf_sound_pairs : ∃ l', l'.Sound .rv32 (.array (.struct [.int 8, .int 24] false) 3) ∧
    ((((⟨.rv32, ∅⟩ : TypeLayoutEngine).layoutOf true (.struct [.int 8, .int 24] false)).2).layoutOf
      true (.array (.struct [.int 8, .int 24] false) 3)).1 = .ok l' := by
  obtain ⟨l', hsound, hall⟩ := layoutOf_sound true
    (show Ir.layoutOf .rv32 (.array (.struct [.int 8, .int 24] false) 3) = some _ from rfl)
    (by decide) fun _ => ⟨⟨trivial, trivial, trivial⟩, fun h => nomatch h⟩
  exact ⟨l', hsound, hall _ (.layoutOf .new _)⟩

/-- An array of no elements has size 0, but with overflow checks an element of 4 GiB panics. -/
theorem layoutOf_panics :
    (Ir.layoutOf .rv64 (.array (.array (.int 32) (2 ^ 30)) 0)).map (fun l => l.layout.size) = some 0 ∧
      ∀ e, Reachable true .rv64 e →
        (e.layoutOf true (.array (.array (.int 32) (2 ^ 30)) 0)).1 = .error .panic := by
  refine ⟨rfl, fun e he => ?_⟩
  rw [he.layoutOf_fst]
  rfl

end Sound

end TypeLayoutEngine

end Ir
