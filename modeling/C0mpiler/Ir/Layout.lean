import C0mpiler.Ir.IrType
import Mathlib

/-!
# Type layout

Sizes, alignments and field offsets (`layout.rs`). `layoutOf` is `compute_layout` without its
cache; the types without a layout (functions, labels, structs without a body) are `none`. Sizes
are natural numbers, so results speak of types whose size fits in the source's `u32`.
-/

namespace Ir

/-- `align_to`: the next multiple of `align`. -/
def alignTo (value align : Nat) : Nat := (value + (align - 1)) / align * align

/-- A size and an alignment, in bytes. -/
structure Layout where
  size : Nat
  align : Nat
  deriving DecidableEq, Repr

/-- The distance from one element of an array to the next. -/
def Layout.stride (l : Layout) : Nat := alignTo l.size l.align

/-- A field and where it lies. -/
structure FieldLayout where
  offset : Nat
  layout : Layout
  deriving DecidableEq, Repr

/-- The layout of a struct: its own, and the one of each field. -/
structure StructLayout where
  layout : Layout
  fields : List FieldLayout
  packed : Bool
  deriving DecidableEq, Repr

/-- The layout of an array: its own, the one of an element, and the distance of the elements. -/
structure ArrayLayout where
  layout : Layout
  elem : Layout
  stride : Nat
  len : Nat
  deriving DecidableEq, Repr

/-- What a layout is made of. -/
inductive LayoutShape where
  | scalar
  | array (l : ArrayLayout)
  | struct (l : StructLayout)
  deriving DecidableEq, Repr

/-- The layout of a type. -/
structure TypeLayout where
  layout : Layout
  shape : LayoutShape
  deriving DecidableEq, Repr

/-- The pointer layout of a target. An alignment of `0` is refused by `align_to`, and a pointer
has at least one byte. -/
structure TargetDataLayout where
  pointerSize : Nat
  pointerAlign : Nat
  pointerSize_pos : 0 < pointerSize
  pointerAlign_pos : 0 < pointerAlign

/-- Pointers of four bytes. -/
def TargetDataLayout.rv32 : TargetDataLayout := ⟨4, 4, by decide, by decide⟩

/-- Pointers of eight bytes. -/
def TargetDataLayout.rv64 : TargetDataLayout := ⟨8, 8, by decide, by decide⟩

/-- An integer takes the bytes that its bits need and is aligned to the next power of two, up to
eight. -/
def layoutOfInt (bits : Nat) : Layout :=
  let bytes := (max bits 1 + 7) / 8
  ⟨bytes, if bytes ≤ 1 then 1 else if bytes = 2 then 2 else if bytes ≤ 4 then 4 else 8⟩

/-- The running state of the loop over the fields of a struct. -/
structure StructCursor where
  fields : List FieldLayout
  offset : Nat
  align : Nat

/-- Place one more field. -/
def StructCursor.place (c : StructCursor) (packed : Bool) (l : Layout) : StructCursor :=
  let offset := alignTo c.offset (if packed then 1 else l.align)
  { fields := c.fields ++ [⟨offset, l⟩]
    offset := offset + l.size
    align := if packed then c.align else max c.align l.align }

/-- The end of a struct is aligned to its greatest field, unless it is packed. -/
def StructCursor.finish (c : StructCursor) (packed : Bool) : StructLayout :=
  let align := if packed then 1 else c.align
  ⟨⟨alignTo c.offset align, align⟩, c.fields, packed⟩

variable (t : TargetDataLayout)

mutual
/-- `compute_layout`. -/
def layoutOf : Ty → Option TypeLayout
  | .int bits => some ⟨layoutOfInt bits, .scalar⟩
  | .ptr => some ⟨⟨t.pointerSize, t.pointerAlign⟩, .scalar⟩
  | .void => some ⟨⟨0, 1⟩, .scalar⟩
  | .array elemTy len =>
    match layoutOf elemTy with
    | some elem =>
      let stride := elem.layout.stride
      let layout : Layout := ⟨stride * len, elem.layout.align⟩
      some ⟨layout, .array ⟨layout, elem.layout, stride, len⟩⟩
    | none => none
  | .struct fieldTys packed =>
    match placeFields packed fieldTys ⟨[], 0, 1⟩ with
    | some c => some ⟨(c.finish packed).layout, .struct (c.finish packed)⟩
    | none => none
  | .structForward => none
  | .function _ _ => none
  | .label => none

/-- The loop of `compute_struct_layout`. -/
def placeFields (packed : Bool) : List Ty → StructCursor → Option StructCursor
  | [], c => some c
  | fieldTy :: fieldTys, c =>
    match layoutOf fieldTy with
    | some field => placeFields packed fieldTys (c.place packed field.layout)
    | none => none
end

/-- `size_of`. -/
def sizeOf (ty : Ty) : Option Nat := (layoutOf t ty).map fun l => l.layout.size

/-- `stride_of`. -/
def strideOf (ty : Ty) : Option Nat := (layoutOf t ty).map fun l => l.layout.stride

/-! ## Alignments are positive and rounding up does not shrink -/

/-- Aligning moves up. -/
theorem le_alignTo {value align : Nat} (h : 0 < align) : value ≤ alignTo value align := by
  unfold alignTo
  have hmod : (value + (align - 1)) % align < align := Nat.mod_lt _ h
  have hdiv : align * ((value + (align - 1)) / align) + (value + (align - 1)) % align =
      value + (align - 1) := Nat.div_add_mod _ _
  rw [Nat.mul_comm] at hdiv
  omega

/-- What is aligned is a multiple of the alignment. -/
theorem dvd_alignTo (value align : Nat) : align ∣ alignTo value align := Nat.dvd_mul_left _ _

/-- Every integer has an alignment. -/
theorem layoutOfInt_align_pos (bits : Nat) : 0 < (layoutOfInt bits).align := by
  unfold layoutOfInt
  dsimp only
  split_ifs <;> decide

variable {t}

/-- Every type with a layout has an alignment. -/
theorem align_pos {ty : Ty} {l : TypeLayout} (h : layoutOf t ty = some l) : 0 < l.layout.align := by
  match ty with
  -- each branch of `layout_of`
  | .int bits =>
    rw [layoutOf] at h
    cases h
    exact layoutOfInt_align_pos bits
  | .ptr =>
    rw [layoutOf] at h
    cases h
    exact t.pointerAlign_pos
  | .void =>
    rw [layoutOf] at h
    cases h
    exact Nat.one_pos
  -- an array has the alignment of its element
  | .array elemTy len =>
    rw [layoutOf] at h
    split at h
    · next elem helem =>
      cases h
      have helem_pos : 0 < elem.layout.align := align_pos helem
      exact helem_pos
    · cases h
  -- a struct has the greatest alignment of its fields, and at least one
  | .struct fieldTys packed =>
    rw [layoutOf] at h
    split at h
    · next c hc =>
      cases h
      have hpos : 0 < c.align := placeFields_align_pos hc Nat.one_pos
      unfold StructCursor.finish
      dsimp only
      split
      · exact Nat.one_pos
      · exact hpos
    · cases h
  | .structForward | .function _ _ | .label => rw [layoutOf] at h; cases h
where
  placeFields_align_pos {packed : Bool} {fieldTys : List Ty} {c c' : StructCursor}
      (h : placeFields t packed fieldTys c = some c') (hc : 0 < c.align) : 0 < c'.align := by
    induction fieldTys generalizing c with
    | nil =>
      rw [placeFields] at h
      cases h
      exact hc
    | cons ty tys ih =>
      rw [placeFields] at h
      split at h
      · refine ih h ?_
        unfold StructCursor.place
        dsimp only
        split
        · exact hc
        · exact lt_of_lt_of_le hc (le_max_left _ _)
      · cases h

/-- An element of an array lies within its stride. -/
theorem size_le_stride {ty : Ty} {l : TypeLayout} (h : layoutOf t ty = some l) :
    l.layout.size ≤ l.layout.stride :=
  le_alignTo (align_pos h)

/-! ## Fields follow each other -/

/-- The fields stand one after the other between the offsets `lo` and `hi`. -/
def FieldsBetween : Nat → List FieldLayout → Nat → Prop
  | lo, [], hi => lo ≤ hi
  | lo, f :: fs, hi => lo ≤ f.offset ∧ FieldsBetween (f.offset + f.layout.size) fs hi

/-- A wider range has the fields between its ends too. -/
theorem FieldsBetween.mono {lo lo' hi hi' : Nat} {fs : List FieldLayout}
    (h : FieldsBetween lo fs hi) (hlo : lo' ≤ lo) (hhi : hi ≤ hi') : FieldsBetween lo' fs hi' := by
  induction fs generalizing lo lo' with
  | nil =>
    have hle : lo ≤ hi := h
    exact show lo' ≤ hi' by omega
  | cons f fs ih => exact ⟨le_trans hlo h.1, ih h.2 le_rfl⟩

/-- A range with fields in it is not reversed. -/
theorem FieldsBetween.le {lo hi : Nat} {fs : List FieldLayout} (h : FieldsBetween lo fs hi) :
    lo ≤ hi := by
  induction fs generalizing lo with
  | nil => exact h
  | cons f fs ih =>
    have hfirst : lo ≤ f.offset := h.1
    have hrest : f.offset + f.layout.size ≤ hi := ih h.2
    omega

/-- Each field lies in the range. -/
theorem FieldsBetween.bounds {lo hi : Nat} {fs : List FieldLayout} (h : FieldsBetween lo fs hi)
    {i : Nat} {f : FieldLayout} (hf : fs[i]? = some f) :
    lo ≤ f.offset ∧ f.offset + f.layout.size ≤ hi := by
  induction fs generalizing lo i with
  | nil => cases hf
  | cons g fs ih =>
    cases i with
    | zero =>
      cases hf
      exact ⟨h.1, h.2.le⟩
    | succ i =>
      obtain ⟨hlo, hhi⟩ := ih h.2 (by simpa using hf)
      have hfirst : lo ≤ g.offset := h.1
      exact ⟨by omega, hhi⟩

/-- Of two fields the earlier one ends before the later one starts. -/
theorem FieldsBetween.disjoint {lo hi : Nat} {fs : List FieldLayout} (h : FieldsBetween lo fs hi)
    {i j : Nat} (hij : i < j) {f g : FieldLayout} (hf : fs[i]? = some f) (hg : fs[j]? = some g) :
    f.offset + f.layout.size ≤ g.offset := by
  induction fs generalizing lo i j with
  | nil => cases hf
  | cons e fs ih =>
    cases j with
    | zero => omega
    | succ j =>
      cases i with
      | zero =>
        cases hf
        exact (h.2.bounds (by simpa using hg)).1
      | succ i =>
        rw [List.getElem?_cons_succ] at hf hg
        exact ih h.2 (by omega) hf hg

/-- Related lists are related element by element. -/
theorem forall₂_getElem? {α β : Type} {R : α → β → Prop} {l₁ : List α} {l₂ : List β}
    (h : List.Forall₂ R l₁ l₂) {i : Nat} {a : α} {b : β} (ha : l₁[i]? = some a)
    (hb : l₂[i]? = some b) : R a b := by
  induction h generalizing i with
  | nil => cases ha
  | cons hab _ ih =>
    cases i with
    | zero =>
      cases ha
      cases hb
      exact hab
    | succ i =>
      rw [List.getElem?_cons_succ] at ha hb
      exact ih ha hb

/-- What the loop over the fields adds. -/
theorem placeFields_spec {packed : Bool} {tys : List Ty} {c c' : StructCursor}
    (h : placeFields t packed tys c = some c') :
    ∃ fs, c'.fields = c.fields ++ fs ∧ FieldsBetween c.offset fs c'.offset ∧
      List.Forall₂ (fun ty f => ∃ l, layoutOf t ty = some l ∧ f.layout = l.layout) tys fs := by
  induction tys generalizing c with
  | nil =>
    rw [placeFields] at h
    cases h
    exact ⟨[], by simp, le_rfl, .nil⟩
  | cons ty tys ih =>
    rw [placeFields] at h
    split at h
    · next l hl =>
      obtain ⟨fs, hfields, hbetween, htys⟩ := ih h
      refine ⟨⟨alignTo c.offset (if packed then 1 else l.layout.align), l.layout⟩ :: fs, ?_, ?_, ?_⟩
      · rw [hfields]
        simp [StructCursor.place]
      · refine ⟨le_alignTo ?_, hbetween⟩
        split
        · exact Nat.one_pos
        · exact align_pos hl
      · exact .cons ⟨l, hl, rfl⟩ htys
    · cases h

/-- Outside packed structs the loop over the fields aligns each of them. -/
theorem placeFields_aligned {tys : List Ty} {c c' : StructCursor}
    (h : placeFields t false tys c = some c') (hc : ∀ f ∈ c.fields, f.layout.align ∣ f.offset) :
    ∀ f ∈ c'.fields, f.layout.align ∣ f.offset := by
  induction tys generalizing c with
  | nil =>
    rw [placeFields] at h
    cases h
    exact hc
  | cons ty tys ih =>
    rw [placeFields] at h
    split at h
    · next l hl =>
      refine ih h fun f hf => ?_
      rcases List.mem_append.mp hf with hf | hf
      · exact hc f hf
      · obtain rfl := List.mem_singleton.mp hf
        exact dvd_alignTo _ _
    · cases h

/-- The layout of a struct: its fields have the layouts of their types and follow each other
within the struct. -/
theorem struct_layout {tys : List Ty} {packed : Bool} {l : TypeLayout}
    (h : layoutOf t (.struct tys packed) = some l) :
    ∃ s, l.shape = .struct s ∧ FieldsBetween 0 s.fields l.layout.size ∧
      List.Forall₂ (fun ty f => ∃ l, layoutOf t ty = some l ∧ f.layout = l.layout) tys s.fields := by
  rw [layoutOf] at h
  split at h
  · next c hc =>
    cases h
    obtain ⟨fs, hfields, hbetween, htys⟩ := placeFields_spec hc
    have hpos : 0 < c.align := align_pos.placeFields_align_pos hc Nat.one_pos
    have hfs : c.fields = fs := by simpa using hfields
    refine ⟨c.finish packed, rfl, ?_, ?_⟩
    · refine FieldsBetween.mono (show FieldsBetween 0 c.fields c.offset from hfs ▸ hbetween) le_rfl ?_
      refine le_alignTo ?_
      split
      · exact Nat.one_pos
      · exact hpos
    · exact show List.Forall₂ _ tys c.fields from hfs ▸ htys
  · cases h

/-- The layout of an array. -/
theorem array_layout {elemTy : Ty} {len : Nat} {l : TypeLayout}
    (h : layoutOf t (.array elemTy len) = some l) :
    ∃ elem a, layoutOf t elemTy = some elem ∧ l.shape = .array a ∧
      a.stride = elem.layout.stride ∧ l.layout.size = elem.layout.stride * len := by
  rw [layoutOf] at h
  split at h
  · next elem helem =>
    cases h
    exact ⟨elem, _, helem, rfl, rfl, rfl⟩
  · cases h

end Ir
