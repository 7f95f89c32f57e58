import C0mpiler.Data.ByteImage
import C0mpiler.Ir.CoreIntValue
import C0mpiler.Ir.Core
import C0mpiler.Ir.Layout
import Mathlib

/-!
# The image of a constant

`lower_constant` (`lower.rs`) writes the initializer of a global as the bytes the data section
holds. The recursion over the elements of a constant is bounded by `fuel`, and every constant that
has a type has an image for enough of it. What a well-typed constant looks like is `ConstTyped`,
and a path of indices into it reaches an element (`elementAt`) that stands in the image at the
offset of the path (`pathOffset`).
-/

namespace Ir.LayoutShape

/-- The layout of an array. -/
def asArray : LayoutShape → Option ArrayLayout
  | .array l => some l
  | _ => none

/-- The layout of a struct. -/
def asStruct : LayoutShape → Option StructLayout
  | .struct l => some l
  | _ => none

end Ir.LayoutShape

namespace Mir

open Ir (ModuleCore ConstId ConstKind CoreInt Ty TargetDataLayout TypeLayout FieldLayout layoutOf)
open ByteImage

variable (t : TargetDataLayout) (m : ModuleCore)

/-- `to_le_bytes` of an `i64`. -/
def toLeBytes (x : Int) : List UInt8 :=
  leBytes (CoreInt.u64OfInt x) 8

/-- One more element of an array: the assertion, and the padding to the stride. -/
def appendElement (stride : Nat) (bytes elementBytes : List UInt8) : Option (List UInt8) := do
  guard (elementBytes.length ≤ stride)
  some (bytes ++ resize elementBytes stride 0)

/-- Pad up to the next field of a struct. -/
def padToField (field : FieldLayout) (bytes : List UInt8) : Option (List UInt8) := do
  guard (bytes.length ≤ field.offset)
  some (resize bytes field.offset 0)

/-- `lower_const_data`. -/
def lowerConstData : Nat → ConstId → Option (List UInt8)
  | 0, _ => none
  | fuel + 1, constant => do
    let constData ← m.constData constant
    let typeLayout ← layoutOf t constData.ty
    let size := typeLayout.layout.size
    match constData.kind with
    | .int number => do
      guard (size ≤ 8)
      some ((toLeBytes number.asI64).take size)
    | .array elements => do
      let arrayLayout ← typeLayout.shape.asArray
      let bytes ← elements.foldlM (fun bytes element => do
        let elementBytes ← lowerConstData fuel element
        appendElement arrayLayout.stride bytes elementBytes) []
      some (resize bytes size 0)
    | .struct fields => do
      let structLayout ← typeLayout.shape.asStruct
      let bytes ← (fields.zip structLayout.fields).foldlM (fun bytes field => do
        let bytes ← padToField field.2 bytes
        let fieldBytes ← lowerConstData fuel field.1
        some (bytes ++ fieldBytes)) []
      some (resize bytes size 0)
    | .string string => do
      let bytes := string.toUTF8.data.toList
      guard (bytes.length ≤ size)
      some (resize bytes size 0)
    | .null => some (List.replicate size 0)
    | .undef => none

/-- `lower_constant`: the image of a global. -/
def lowerConstant (fuel : Nat) (ty : Ty) (constant : Option ConstId) : Option (List UInt8) := do
  let typeLayout ← layoutOf t ty
  let size := typeLayout.layout.size
  let bytes ← match constant with
    | some constant => lowerConstData t m fuel constant
    | none => some (List.replicate size 0)
  guard (bytes.length ≤ size)
  some (resize bytes size 0)

/-! ## Constants and their elements -/

/-- The constants of a type, as the module builds them: an integer has the width of its type, a
string is an array of its bytes, and a null constant is a pointer. -/
inductive ConstTyped : ConstId → Ty → Prop where
  | int {c d} {number : CoreInt} (hd : m.constData c = some d) (hty : d.ty = .int number.bitWidth)
      (hkind : d.kind = .int number) (hwf : number.Wf) : ConstTyped c (.int number.bitWidth)
  | array {c d elemTy len elements} (hd : m.constData c = some d) (hty : d.ty = .array elemTy len)
      (hkind : d.kind = .array elements) (hlen : elements.length = len)
      (helem : ∀ e ∈ elements, ConstTyped e elemTy) : ConstTyped c (.array elemTy len)
  | struct {c d fieldTys packed fields} (hd : m.constData c = some d)
      (hty : d.ty = .struct fieldTys packed) (hkind : d.kind = .struct fields)
      (hlen : fields.length = fieldTys.length)
      (hfield : ∀ (i : Nat) f ty, fields[i]? = some f → fieldTys[i]? = some ty →
        ConstTyped f ty) : ConstTyped c (.struct fieldTys packed)
  | string {c d} {string : String} (hd : m.constData c = some d)
      (hty : d.ty = .array (.int 8) string.utf8ByteSize) (hkind : d.kind = .string string) :
      ConstTyped c (.array (.int 8) string.utf8ByteSize)
  | null {c d} (hd : m.constData c = some d) (hty : d.ty = .ptr) (hkind : d.kind = .null) :
      ConstTyped c .ptr

/-- What a path into a constant reaches: a constant, or a byte of a string. -/
inductive Element where
  | const (c : ConstId)
  | byte (b : UInt8)

/-- The part of a constant at a path. -/
def elementAt : ConstId → List Nat → Option Element
  | c, [] => some (.const c)
  | c, i :: path => do
    let d ← m.constData c
    match d.kind with
    | .array elements => elementAt (← elements[i]?) path
    | .struct fields => elementAt (← fields[i]?) path
    | .string string => if path = [] then (string.toUTF8.data.toList[i]?).map .byte else none
    | _ => none

/-- The distance from the start of a value to the part a path leads to. -/
def pathOffset : Ty → List Nat → Option Nat
  | _, [] => some 0
  | .array elemTy _, i :: path => do
    let elem ← layoutOf t elemTy
    let off ← pathOffset elemTy path
    some (i * elem.layout.stride + off)
  | .struct fieldTys packed, i :: path => do
    let l ← layoutOf t (.struct fieldTys packed)
    let structLayout ← l.shape.asStruct
    let field ← structLayout.fields[i]?
    let off ← pathOffset (← fieldTys[i]?) path
    some (field.offset + off)
  | _, _ :: _ => none

/-- The bytes of a constant, for enough fuel. -/
def ImageOf (c : ConstId) (bytes : List UInt8) : Prop :=
  ∃ n, ∀ fuel ≥ n, lowerConstData t m fuel c = some bytes

/-- The bytes of an element. -/
def Element.Bytes : Element → List UInt8 → Prop
  | .const c, bytes => ImageOf t m c bytes
  | .byte b, bytes => bytes = [b]

variable {t m}

/-- A constant has one image. -/
theorem ImageOf.unique {c : ConstId} {bytes bytes' : List UInt8} (h : ImageOf t m c bytes)
    (h' : ImageOf t m c bytes') : bytes = bytes' := by
  obtain ⟨n, hn⟩ := h
  obtain ⟨n', hn'⟩ := h'
  have hsome := hn (max n n') (le_max_left _ _)
  rw [hn' _ (le_max_right _ _)] at hsome
  exact (Option.some.inj hsome).symm

/-- Finitely many constants have their images for one amount of fuel. -/
theorem ImageOf.forall_mem {img : ConstId → List UInt8} {cs : List ConstId}
    (h : ∀ c ∈ cs, ImageOf t m c (img c)) :
    ∃ n, ∀ fuel ≥ n, ∀ c ∈ cs, lowerConstData t m fuel c = some (img c) := by
  induction cs with
  | nil => exact ⟨0, fun _ _ _ hc => absurd hc List.not_mem_nil⟩
  | cons c cs ih =>
    obtain ⟨n, hn⟩ := h c List.mem_cons_self
    obtain ⟨n', hn'⟩ := ih fun c' hc' => h c' (List.mem_cons_of_mem _ hc')
    refine ⟨max n n', fun fuel hfuel => List.forall_mem_cons.mpr ⟨?_, ?_⟩⟩
    · exact hn fuel (le_trans (le_max_left _ _) hfuel)
    · exact hn' fuel (le_trans (le_max_right _ _) hfuel)

/-- One more unit of fuel for the constant itself. -/
theorem ImageOf.of_step {c : ConstId} {bytes : List UInt8} {n : Nat}
    (h : ∀ fuel ≥ n, lowerConstData t m (fuel + 1) c = some bytes) : ImageOf t m c bytes := by
  refine ⟨n + 1, fun fuel hfuel => ?_⟩
  obtain ⟨k, rfl⟩ : ∃ k, fuel = k + 1 := ⟨fuel - 1, by omega⟩
  exact h k (Nat.le_of_succ_le_succ hfuel)

/-! ## The loops over elements and fields -/

section Loops

variable {img : ConstId → List UInt8} {lower : ConstId → Option (List UInt8)}

/-- The elements, one stride after the other. -/
theorem foldlM_appendElement {stride : Nat} {elements : List ConstId}
    (h : ∀ e ∈ elements, lower e = some (img e)) (hlen : ∀ e ∈ elements, (img e).length ≤ stride)
    (bytes : List UInt8) :
    elements.foldlM (fun bytes element => do
        let elementBytes ← lower element
        appendElement stride bytes elementBytes) bytes =
      some (bytes ++ elements.flatMap fun e => resize (img e) stride 0) := by
  induction elements generalizing bytes with
  | nil => rw [List.flatMap_nil, List.append_nil]; rfl
  | cons e elements ih =>
    have hrest := ih (fun e' he' => h e' (List.mem_cons_of_mem _ he'))
      (fun e' he' => hlen e' (List.mem_cons_of_mem _ he')) (bytes ++ resize (img e) stride 0)
    rw [List.foldlM_cons, h e List.mem_cons_self]
    simp only [Option.bind_eq_bind, Option.bind_some, appendElement, guard,
      hlen e List.mem_cons_self, if_true]
    rw [List.flatMap_cons, ← List.append_assoc]
    exact hrest

/-- The bytes of a struct before they are padded to its size. -/
def fieldBytes (img : ConstId → List UInt8) (fields : List (ConstId × FieldLayout))
    (bytes : List UInt8) : List UInt8 :=
  fields.foldl (fun bytes field => resize bytes field.2.offset 0 ++ img field.1) bytes

variable {fields : List (ConstId × FieldLayout)} {lo hi : Nat} {bytes : List UInt8}

/-- Every field stands at its offset, and nothing before it has moved. -/
theorem fieldBytes_spec (hlen : ∀ p ∈ fields, (img p.1).length = p.2.layout.size)
    (hbetween : Ir.FieldsBetween lo (fields.map Prod.snd) hi) (hlo : bytes.length ≤ lo) :
    (fieldBytes img fields bytes).length ≤ hi ∧
      (∀ off part, StandsAt bytes off part → StandsAt (fieldBytes img fields bytes) off part) ∧
      ∀ p ∈ fields, StandsAt (fieldBytes img fields bytes) p.2.offset (img p.1) := by
  induction fields generalizing lo bytes with
  | nil => exact ⟨le_trans hlo hbetween, fun _ _ h => h, by simp⟩
  | cons p fields ih =>
    obtain ⟨hoff, hrest⟩ := hbetween
    have hpad : bytes.length ≤ p.2.offset := hlo.trans hoff
    have hnext : (resize bytes p.2.offset 0 ++ img p.1).length = p.2.offset + p.2.layout.size := by
      rw [List.length_append, length_resize, hlen p List.mem_cons_self]
    obtain ⟨hsize, hkeep, hfields⟩ :=
      ih (fun q hq => hlen q (List.mem_cons_of_mem _ hq)) hrest hnext.le
    refine ⟨hsize, fun off part h => hkeep off part ((h.resize hpad 0).append _), ?_⟩
    refine List.forall_mem_cons.mpr ⟨hkeep _ _ ?_, hfields⟩
    have hhere := StandsAt.append_right (resize bytes p.2.offset 0) (img p.1)
    rwa [length_resize] at hhere

/-- The fields, each at its offset. -/
theorem foldlM_padToField (h : ∀ p ∈ fields, lower p.1 = some (img p.1))
    (hlen : ∀ p ∈ fields, (img p.1).length = p.2.layout.size)
    (hbetween : Ir.FieldsBetween lo (fields.map Prod.snd) hi) (hlo : bytes.length ≤ lo) :
    fields.foldlM (fun bytes field => do
        let bytes ← padToField field.2 bytes
        let fieldBytes ← lower field.1
        some (bytes ++ fieldBytes)) bytes =
      some (fieldBytes img fields bytes) := by
  induction fields generalizing lo bytes with
  | nil => rfl
  | cons p fields ih =>
    obtain ⟨hoff, hrest⟩ := hbetween
    have hpad : bytes.length ≤ p.2.offset := hlo.trans hoff
    have hnext : (resize bytes p.2.offset 0 ++ img p.1).length = p.2.offset + p.2.layout.size := by
      rw [List.length_append, length_resize, hlen p List.mem_cons_self]
    have htail := ih (fun q hq => h q (List.mem_cons_of_mem _ hq))
      (fun q hq => hlen q (List.mem_cons_of_mem _ hq)) hrest hnext.le
    rw [List.foldlM_cons]
    simp only [padToField, guard, hpad, if_true, h p List.mem_cons_self, Option.bind_eq_bind,
      Option.bind_some, pure]
    exact htail

end Loops

/-! ## Every well-typed constant has its image -/

/-- The image of a constant of a type, with every element where its path leads. -/
structure HasImage (t : TargetDataLayout) (m : ModuleCore) (c : ConstId) (ty : Ty)
    (l : TypeLayout) (image : List UInt8) : Prop where
  lowers : ImageOf t m c image
  length : image.length = l.layout.size
  element : ∀ path el, elementAt m c path = some el →
    ∃ off bytes, pathOffset t ty path = some off ∧ el.Bytes t m bytes ∧ StandsAt image off bytes

/-- The bytes of an image are those of the constant. -/
theorem HasImage.unique {c : ConstId} {ty : Ty} {l : TypeLayout} {image bytes : List UInt8}
    (h : HasImage t m c ty l image) (hbytes : ImageOf t m c bytes) : HasImage t m c ty l bytes :=
  h.lowers.unique hbytes ▸ h

/-- A constant without elements. -/
theorem HasImage.leaf {c : ConstId} {ty : Ty} {l : TypeLayout} {image : List UInt8}
    (himage : ImageOf t m c image) (hlen : image.length = l.layout.size)
    (hleaf : ∀ i path, elementAt m c (i :: path) = none) : HasImage t m c ty l image where
  lowers := himage
  length := hlen
  element := by
    intro path el hel
    cases path with
    | nil =>
      cases hel
      exact ⟨0, image, rfl, himage, .refl image⟩
    | cons i path =>
      rw [hleaf] at hel
      cases hel

/-- An integer type of at most 64 bits takes at most eight bytes. -/
theorem layoutOfInt_size_le {bits : Nat} (h : bits ≤ 64) : (Ir.layoutOfInt bits).size ≤ 8 := by
  simp only [Ir.layoutOfInt]
  omega

/-- The image of a number. -/
theorem hasImage_int {c : ConstId} {d : Ir.ConstData} {number : CoreInt} {l : TypeLayout}
    (hd : m.constData c = some d) (hty : d.ty = .int number.bitWidth)
    (hkind : d.kind = .int number) (hwf : number.Wf)
    (hl : layoutOf t (.int number.bitWidth) = some l) :
    HasImage t m c (.int number.bitWidth) l ((toLeBytes number.asI64).take l.layout.size) := by
  have hsize : l.layout.size ≤ 8 := by
    rw [layoutOf] at hl
    cases hl
    exact layoutOfInt_size_le hwf.width_le
  refine .leaf (.of_step (n := 0) fun fuel _ => ?_) ?_ fun i path => ?_
  · simp [lowerConstData, hd, hty, hkind, hl, hsize, guard]
  · rw [List.length_take, toLeBytes, length_leBytes, Nat.min_eq_left hsize]
  · simp [elementAt, hd, hkind]

/-- The image of an integer is its value in little-endian bytes. -/
theorem ImageOf.int_value {c : ConstId} {d : Ir.ConstData} {number : CoreInt} {bytes : List UInt8}
    (h : ImageOf t m c bytes) (hd : m.constData c = some d) (hty : d.ty = .int number.bitWidth)
    (hkind : d.kind = .int number) (hwf : number.Wf) :
    Nat.ofDigits 256 (bytes.map UInt8.toNat) % 2 ^ number.bitWidth = number.value := by
  have hl : layoutOf t (.int number.bitWidth) = some ⟨Ir.layoutOfInt number.bitWidth, .scalar⟩ := by
    rw [layoutOf]
  have hsize : (Ir.layoutOfInt number.bitWidth).size ≤ 8 := layoutOfInt_size_le hwf.width_le
  have hbits : number.bitWidth ≤ 8 * (Ir.layoutOfInt number.bitWidth).size := by
    simp only [Ir.layoutOfInt]
    omega
  have hbytes := h.unique (hasImage_int hd hty hkind hwf hl).lowers
  have hdvd : 2 ^ number.bitWidth ∣ 256 ^ (Ir.layoutOfInt number.bitWidth).size := by
    have h256 : (256 : Nat) = 2 ^ 8 := rfl
    rw [h256, ← pow_mul]
    exact pow_dvd_pow 2 hbits
  have hu64 : (CoreInt.u64OfInt number.asI64 : Int) ≡ number.value [ZMOD 2 ^ number.bitWidth] := by
    have hpos : 0 ≤ number.asI64 % 2 ^ 64 := Int.emod_nonneg _ (by decide)
    have hwide : (CoreInt.u64OfInt number.asI64 : Int) ≡ number.asI64 [ZMOD 2 ^ 64] := by
      rw [CoreInt.u64OfInt, Int.toNat_of_nonneg hpos]
      exact Int.mod_modEq _ _
    exact (hwide.of_dvd (pow_dvd_pow 2 hwf.width_le)).trans hwf.asI64_modEq
  have hnat : CoreInt.u64OfInt number.asI64 % 2 ^ number.bitWidth = number.value := by
    have hcast : CoreInt.u64OfInt number.asI64 ≡ number.value [MOD 2 ^ number.bitWidth] := by
      refine Int.natCast_modEq_iff.mp ?_
      exact_mod_cast hu64
    rw [hcast, Nat.mod_eq_of_lt hwf.value_lt]
  rw [hbytes, toLeBytes, take_leBytes _ hsize, ofDigits_leBytes, Nat.mod_mod_of_dvd _ hdvd, hnat]

/-- The null pointer. -/
theorem hasImage_null {c : ConstId} {d : Ir.ConstData} {l : TypeLayout}
    (hd : m.constData c = some d) (hty : d.ty = .ptr) (hkind : d.kind = .null)
    (hl : layoutOf t .ptr = some l) :
    HasImage t m c .ptr l (List.replicate l.layout.size 0) := by
  refine .leaf (.of_step (n := 0) fun fuel _ => ?_) List.length_replicate fun i path => ?_
  · simp [lowerConstData, hd, hty, hkind, hl]
  · simp [elementAt, hd, hkind]

/-- A string. -/
theorem hasImage_string {c : ConstId} {d : Ir.ConstData} {string : String} {l : TypeLayout}
    (hd : m.constData c = some d) (hty : d.ty = .array (.int 8) string.utf8ByteSize)
    (hkind : d.kind = .string string)
    (hl : layoutOf t (.array (.int 8) string.utf8ByteSize) = some l) :
    HasImage t m c (.array (.int 8) string.utf8ByteSize) l string.toUTF8.data.toList := by
  have hlen : string.toUTF8.data.toList.length = string.utf8ByteSize := rfl
  have hsize : l.layout.size = string.utf8ByteSize := by
    simp only [layoutOf] at hl
    cases hl
    exact Nat.one_mul _
  have himage : ImageOf t m c string.toUTF8.data.toList := by
    refine .of_step (n := 0) fun fuel _ => ?_
    have hpad : resize string.toUTF8.data.toList l.layout.size 0 = string.toUTF8.data.toList := by
      rw [resize_of_le (hlen.trans hsize.symm).le, hlen, hsize, Nat.sub_self, List.replicate_zero,
        List.append_nil]
    simp only [lowerConstData, hd, hty, hkind, hl, Option.bind_eq_bind, Option.bind_some, guard,
      (hlen.trans hsize.symm).le, if_true, pure, hpad]
  refine ⟨himage, hlen.trans hsize.symm, ?_⟩
  intro path el hel
  rcases path with _ | ⟨i, _ | ⟨j, path⟩⟩
  · cases hel
    exact ⟨0, _, rfl, himage, .refl _⟩
  · simp only [elementAt, hd, hkind, Option.bind_eq_bind, Option.bind_some, if_true,
      Option.map_eq_some_iff] at hel
    obtain ⟨b, hb, rfl⟩ := hel
    refine ⟨i, [b], ?_, rfl, .getElem? hb⟩
    have hstride : (Ir.layoutOfInt 8).stride = 1 := rfl
    simp [pathOffset, layoutOf, hstride]
  · simp [elementAt, hd, hkind] at hel

/-- An array of constants with images. -/
theorem hasImage_array {c : ConstId} {d : Ir.ConstData} {elemTy : Ty} {elements : List ConstId}
    {l elem : TypeLayout} {img : ConstId → List UInt8}
    (hd : m.constData c = some d) (hty : d.ty = .array elemTy elements.length)
    (hkind : d.kind = .array elements) (hl : layoutOf t (.array elemTy elements.length) = some l)
    (helem : layoutOf t elemTy = some elem)
    (himg : ∀ e ∈ elements, HasImage t m e elemTy elem (img e)) :
    HasImage t m c (.array elemTy elements.length) l
      (elements.flatMap fun e => resize (img e) elem.layout.stride 0) := by
  obtain ⟨elem', a, helem', hshape, hstride, hsize⟩ := Ir.array_layout hl
  rw [helem] at helem'
  cases helem'
  have hfit : ∀ e ∈ elements, (img e).length ≤ elem.layout.stride := fun e he =>
    (himg e he).length ▸ Ir.size_le_stride helem
  have hblock : ∀ e ∈ elements, (resize (img e) elem.layout.stride 0).length = elem.layout.stride :=
    fun e _ => length_resize ..
  have hlen := (length_flatMap_blocks hblock).trans hsize.symm
  have himage : ImageOf t m c (elements.flatMap fun e => resize (img e) elem.layout.stride 0) := by
    -- the loop, and the padding behind it
    obtain ⟨n, hn⟩ := ImageOf.forall_mem fun e he => (himg e he).lowers
    refine .of_step (n := n) fun fuel hfuel => ?_
    have hloop := foldlM_appendElement (hn fuel hfuel) hfit []
    rw [List.nil_append] at hloop
    have hpad : resize (elements.flatMap fun e => resize (img e) elem.layout.stride 0)
        l.layout.size 0 = elements.flatMap fun e => resize (img e) elem.layout.stride 0 := by
      rw [resize_of_le hlen.le, hlen, Nat.sub_self, List.replicate_zero, List.append_nil]
    simp only [lowerConstData, hd, hty, hkind, hl, hshape, Ir.LayoutShape.asArray, hstride,
      Option.bind_eq_bind, Option.bind_some]
    simp only [Option.bind_eq_bind] at hloop
    rw [hloop, Option.bind_some, hpad]
  refine ⟨himage, hlen, ?_⟩
  intro path el hel
  -- an element lies at its index times the stride, and the rest of the path inside it
  cases path with
  | nil =>
    cases hel
    exact ⟨0, _, rfl, himage, .refl _⟩
  | cons i path =>
    simp only [elementAt, hd, hkind, Option.bind_eq_bind, Option.bind_some] at hel
    obtain ⟨e, he, hel⟩ := Option.bind_eq_some_iff.mp hel
    have hmem : e ∈ elements := List.mem_of_getElem? he
    obtain ⟨off, bytes, hoff, hbytes, hstands⟩ := (himg e hmem).element path el hel
    refine ⟨i * elem.layout.stride + off, bytes, ?_, hbytes, ?_⟩
    · simp [pathOffset, helem, hoff]
    · exact (standsAt_flatMap_blocks hblock he).trans (hstands.resize (hfit e hmem) 0)

/-- A struct of constants with images. -/
theorem hasImage_struct {c : ConstId} {d : Ir.ConstData} {fieldTys : List Ty} {packed : Bool}
    {fields : List ConstId} {l : TypeLayout} (img : ConstId → List UInt8)
    (hd : m.constData c = some d) (hty : d.ty = .struct fieldTys packed)
    (hkind : d.kind = .struct fields) (hl : layoutOf t (.struct fieldTys packed) = some l)
    (hlenTys : fields.length = fieldTys.length)
    (himg : ∀ (i : Nat) f ty fl, fields[i]? = some f → fieldTys[i]? = some ty →
      layoutOf t ty = some fl → HasImage t m f ty fl (img f)) :
    ∃ image, HasImage t m c (.struct fieldTys packed) l image := by
  obtain ⟨s, hshape, hbetween, htys⟩ := Ir.struct_layout hl
  have hlenFields : fields.length = s.fields.length := hlenTys.trans htys.length_eq
  have hzip : (fields.zip s.fields).map Prod.snd = s.fields := List.map_snd_zip hlenFields.ge
  have hfield : ∀ (i : Nat) f fl, fields[i]? = some f → s.fields[i]? = some fl →
      ∃ ty l', fieldTys[i]? = some ty ∧ fl.layout = l'.layout ∧ HasImage t m f ty l' (img f) := by
    intro i f fl hf hfl
    obtain ⟨hi, -⟩ := List.getElem?_eq_some_iff.mp hf
    obtain ⟨ty, hty⟩ : ∃ ty, fieldTys[i]? = some ty := ⟨_, List.getElem?_eq_getElem (hlenTys ▸ hi)⟩
    obtain ⟨l', hl', hlayout⟩ := Ir.forall₂_getElem? htys hty hfl
    exact ⟨ty, l', hty, hlayout, himg i f ty l' hf hty hl'⟩
  have hlayoutOf : ∀ (i : Nat) f, fields[i]? = some f → ∃ fl, s.fields[i]? = some fl := by
    intro i f hf
    obtain ⟨hi, -⟩ := List.getElem?_eq_some_iff.mp hf
    exact ⟨_, List.getElem?_eq_getElem (hlenFields ▸ hi)⟩
  have hpair : ∀ p ∈ fields.zip s.fields, ImageOf t m p.1 (img p.1) ∧
      (img p.1).length = p.2.layout.size := by
    intro p hp
    obtain ⟨i, hi⟩ := List.mem_iff_getElem?.mp hp
    obtain ⟨hf, hfl⟩ := List.getElem?_zip_eq_some.mp hi
    obtain ⟨ty, l', -, hlayout, hhas⟩ := hfield i p.1 p.2 hf hfl
    exact ⟨hhas.lowers, hlayout ▸ hhas.length⟩
  have hlens := fun p hp => (hpair p hp).2
  have hbetween' : Ir.FieldsBetween 0 ((fields.zip s.fields).map Prod.snd) l.layout.size :=
    hzip.symm ▸ hbetween
  -- the fields do not overlap, so each of them stands where it was written
  have hempty : ([] : List UInt8).length ≤ 0 := le_rfl
  obtain ⟨hfit, -, hstands⟩ := fieldBytes_spec hlens hbetween' hempty
  have himage : ImageOf t m c (resize (fieldBytes img (fields.zip s.fields) []) l.layout.size 0) := by
    have himgs : ∀ f ∈ fields, ImageOf t m f (img f) := by
      intro f hf
      obtain ⟨i, hi⟩ := List.mem_iff_getElem?.mp hf
      obtain ⟨fl, hfl⟩ := hlayoutOf i f hi
      obtain ⟨_, _, -, -, hhas⟩ := hfield i f fl hi hfl
      exact hhas.lowers
    obtain ⟨n, hn⟩ := ImageOf.forall_mem himgs
    refine .of_step (n := n) fun fuel hfuel => ?_
    have hlower : ∀ p ∈ fields.zip s.fields, lowerConstData t m fuel p.1 = some (img p.1) :=
      fun p hp => hn fuel hfuel p.1 (List.of_mem_zip hp).1
    have hloop := foldlM_padToField hlower hlens hbetween' hempty
    simp only [Option.bind_eq_bind] at hloop
    simp only [lowerConstData, hd, hty, hkind, hl, hshape, Ir.LayoutShape.asStruct,
      Option.bind_eq_bind, Option.bind_some]
    rw [hloop, Option.bind_some]
  refine ⟨_, himage, length_resize .., ?_⟩
  intro path el hel
  -- a field lies at its offset
  cases path with
  | nil =>
    cases hel
    exact ⟨0, _, rfl, himage, .refl _⟩
  | cons i path =>
    simp only [elementAt, hd, hkind, Option.bind_eq_bind, Option.bind_some] at hel
    obtain ⟨f, hf, hel⟩ := Option.bind_eq_some_iff.mp hel
    obtain ⟨fl, hfl⟩ := hlayoutOf i f hf
    obtain ⟨ty, l', hty', -, hhas⟩ := hfield i f fl hf hfl
    obtain ⟨off, bytes, hoff, hbytes, hinner⟩ := hhas.element path el hel
    have hmem : (f, fl) ∈ fields.zip s.fields :=
      List.mem_iff_getElem?.mpr ⟨i, List.getElem?_zip_eq_some.mpr ⟨hf, hfl⟩⟩
    refine ⟨fl.offset + off, bytes, ?_, hbytes, ((hstands _ hmem).resize hfit 0).trans hinner⟩
    simp [pathOffset, hl, hshape, Ir.LayoutShape.asStruct, hfl, hty', hoff]

/-- Every constant of a type with a layout has an image, of exactly the size of the type. -/
theorem ConstTyped.hasImage {c : ConstId} {ty : Ty} {l : TypeLayout} (h : ConstTyped m c ty)
    (hl : layoutOf t ty = some l) : ∃ image, HasImage t m c ty l image := by
  induction h generalizing l with
  | int hd hty hkind hwf => exact ⟨_, hasImage_int hd hty hkind hwf hl⟩
  | null hd hty hkind => exact ⟨_, hasImage_null hd hty hkind hl⟩
  | string hd hty hkind => exact ⟨_, hasImage_string hd hty hkind hl⟩
  | array hd hty hkind hlen _ ih =>
    subst hlen
    obtain ⟨elem, _, helem, -⟩ := Ir.array_layout hl
    choose! img himg using fun e he => ih e he helem
    exact ⟨_, hasImage_array hd hty hkind hl helem himg⟩
  | @struct c d fieldTys packed fields hd hty hkind hlen _ ih =>
    have hsome : ∀ f, ∃ bytes, (∃ b, ImageOf t m f b) → ImageOf t m f bytes := fun f => by
      by_cases hf : ∃ b, ImageOf t m f b
      · exact hf.imp fun _ h _ => h
      · exact ⟨[], fun h => absurd h hf⟩
    choose img himg using hsome
    refine hasImage_struct img hd hty hkind hl hlen fun i f ty fl hf hty hfl => ?_
    obtain ⟨bytes, hbytes⟩ := ih i f ty hf hty hfl
    exact hbytes.unique (himg f ⟨bytes, hbytes.lowers⟩)

/-- `lower_constant` returns the image as it is. -/
theorem HasImage.lowerConstant {c : ConstId} {ty : Ty} {l : TypeLayout} {image : List UInt8}
    (h : HasImage t m c ty l image) (hl : layoutOf t ty = some l) :
    ∃ n, ∀ fuel ≥ n, lowerConstant t m fuel ty (some c) = some image := by
  obtain ⟨n, hn⟩ := h.lowers
  refine ⟨n, fun fuel hfuel => ?_⟩
  have hpad : resize image l.layout.size 0 = image := by
    rw [resize_of_le h.length.le, h.length, Nat.sub_self, List.replicate_zero, List.append_nil]
  simp only [Mir.lowerConstant, hl, hn fuel hfuel, Option.bind_eq_bind, Option.bind_some, guard,
    h.length.le, if_true, pure, hpad]

end Mir
