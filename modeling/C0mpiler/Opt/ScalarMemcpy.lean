import C0mpiler.Data.ByteCopy
import C0mpiler.Ir.CodeEdits
import C0mpiler.Ir.Layout
import C0mpiler.Ir.UseListRun
import C0mpiler.Opt.Strength
import Mathlib

/-!
# Copies through a scalar

`opt_scalar_memcpy` replaces a copy of one, two, four or eight bytes by a load and a store of an
integer of that size. Here: the pass, what it makes of the code, and what the load and the store do
to a memory of bytes.
-/

namespace Ir

/-- `starts_with`. -/
def startsWith (name start : String) : Bool := start.toList.isPrefixOf name.toList

namespace ModuleCore

section Model

variable (t : Option TargetDataLayout) (m : ModuleCore)

/-- `const_int_u64`. The outer `none` is a constant that does not exist. -/
def constIntU64 (value : ValueId) : Option (Option Nat) :=
  match value with
  | .const c => do
    let d ← m.constData c
    match d.kind with
    | .int number => some (some number.asU64)
    | _ => some none
  | _ => some none

def maxScalarSize : Nat := (t.map (·.pointerSize)).getD 4

def scalarBits : Nat → Option Nat
  | 1 => some 8
  | 2 => some 16
  | 4 => some 32
  | 8 => some 64
  | _ => none

def matchScalarMemcpy (r : InstRef) : Option (Option (ValueId × ValueId × Ty)) := do
  let d ← m.inst r
  match d.kind with
  | .call func args =>
    let fd ← m.func func
    if !(startsWith fd.name "llvm.memcpy." || startsWith fd.name "llvm.memmove.") then some none
    else
      match args with
      | dest :: src :: size :: isVolatile :: _ => do
        match ← m.constIntU64 isVolatile with
        | some 0 =>
          match ← m.constIntU64 size with
          | some size =>
            if maxScalarSize t < size then some none
            else some ((scalarBits size).map fun bits => (dest, src, .int bits))
          | none => some none
        | _ => some none
      | _ => some none
  | _ => some none

/-- The loop body of `func_scalar_memcpy`. -/
def scalarMemcpyInst (r : InstRef) : Option ModuleCore := do
  match m.inst r with
  | none => some m
  | some d =>
    match ← m.matchScalarMemcpy t r with
    | none => some m
    | some (dest, src, ty) =>
      let (load, m) ← m.newInst r.func ty (.load src) d.name
      let (store, m) ← m.newInst r.func .void (.store (.inst load) dest) none
      let m ← m.insertBefore r load
      let m ← m.insertBefore r store
      m.eraseInstFromParent r

/-- The instructions are those of the arena, in its `slots` order. -/
def funcScalarMemcpy (slots : SlotOrder) (id : FunctionId) : Option ModuleCore := do
  let function ← m.func id
  if function.isDeclare then some m
  else
    let insts := (function.insts.keysIn slots id).map fun inst => (⟨id, inst⟩ : InstRef)
    insts.foldlM (scalarMemcpyInst t) m

def optScalarMemcpy (slots : SlotOrder) : Option ModuleCore :=
  m.functionsInOrder.foldlM (fun m id => m.funcScalarMemcpy t slots id) m

end Model

/-! ## The code after a replacement -/

/-- A load and a store stand in the place of an instruction. -/
structure ScalarCopy (C C' : Code) (r load store : InstRef) (dest src : ValueId) (ty : Ty)
    (b : BlockRef) (before after : List InstId) : Prop where
  ne : load ≠ store ∧ load ≠ r ∧ store ≠ r
  fresh : C.inst load = none ∧ C.inst store = none
  block : C'.block b = (C.block b).map fun bd =>
    { bd with insts := before ++ load.inst :: store.inst :: after }
  blocks : ∀ b', b' ≠ b → C'.block b' = C.block b'
  loadInst : ∃ d, C'.inst load = some d ∧ d.kind = .load src ∧ d.ty = ty ∧ d.parent = some b
  storeInst : ∃ d, C'.inst store = some d ∧ d.kind = .store (.inst load) dest ∧ d.parent = some b
  insts : ∀ i, i ≠ r → i ≠ load → i ≠ store → C'.inst i = C.inst i
  erased : C'.inst r = none
  rest : C'.func = C.func ∧ C'.arg = C.arg ∧ C'.global = C.global ∧ C'.constData = C.constData

variable {t : Option TargetDataLayout} {m m' : ModuleCore}

theorem insertIdx_append_length {α : Type} (l l' : List α) (a : α) :
    (l ++ l').insertIdx l.length a = l ++ a :: l' := by
  induction l with
  | nil => rfl
  | cons b l ih => exact congrArg (b :: ·) ih

theorem inst_ne_of_ne {r r' : InstRef} (hfunc : r.func = r'.func) (h : r ≠ r') :
    r.inst ≠ r'.inst := by
  obtain ⟨f, i⟩ := r
  obtain ⟨f', i'⟩ := r'
  rintro rfl
  obtain rfl : f = f' := hfunc
  exact h rfl

theorem scalarMemcpyInst_code {r : InstRef} {d : InstData} {b : BlockRef} {bd : BlockData}
    (hd : m.code.inst r = some d) (hparent : d.parent = some b) (hb : m.code.block b = some bd)
    {before after : List InstId} (hinsts : bd.insts = before ++ r.inst :: after)
    (hfirst : r.inst ∉ before) {dest src : ValueId} {ty : Ty}
    (hmatch : m.matchScalarMemcpy t r = some (some (dest, src, ty)))
    (hrun : m.scalarMemcpyInst t r = some m') :
    ∃ load store, ScalarCopy m.code m'.code r load store dest src ty b before after := by
  obtain ⟨d₀, hd₀, rfl⟩ := inst_of_code_inst hd
  simp only [scalarMemcpyInst, hd₀, hmatch, Option.bind_eq_bind, Option.bind_some,
    Option.bind_eq_some_iff] at hrun
  obtain ⟨⟨load, m₁⟩, hload, ⟨store, m₂⟩, hstore, m₃, hinsert, m₄, hinsert', herase⟩ := hrun
  dsimp only at hstore hinsert hinsert' herase
  -- the load and the store are new, so they differ from `r` and from each other
  obtain ⟨hlf, hfresh, hl₁, hcode₁⟩ := newInst_code hload
  obtain ⟨hsf, hfresh', hs₂, hcode₂⟩ := newInst_code hstore
  have hrl : r ≠ load := by
    rintro rfl
    rw [hd₀] at hfresh
    cases hfresh
  have hls : load ≠ store := by
    rintro rfl
    rw [hl₁] at hfresh'
    cases hfresh'
  -- `r` stays where it was while they are created
  have hr₁ : m₁.code.inst r = some d₀.code := by
    rw [hcode₁, ← hd]
    exact Function.update_of_ne hrl _ _
  have hrs : r ≠ store := by
    rintro rfl
    rw [code_inst, hfresh'] at hr₁
    cases hr₁
  have hr₂ : m₂.code.inst r = some d₀.code := by
    rw [hcode₂, ← hr₁]
    exact Function.update_of_ne hrs _ _
  have hb₂ : m₂.code.block b = some bd := by
    rw [hcode₂, hcode₁]
    exact hb
  -- the load goes before `r`
  have hcode₃ := insertBefore_code hr₂ hparent hb₂ hinsts hfirst hinsert
  have hr₃ : m₃.code.inst r = some d₀.code := by
    rw [hcode₃, Code.updInst_inst_of_ne hrl, Code.updBlock_inst, hr₂]
  have hb₃ : m₃.code.block b = some { bd with insts := before ++ load.inst :: r.inst :: after } := by
    rw [hcode₃, Code.updInst_block]
    show Function.update m₂.code.block b _ b = _
    rw [Function.update_self, hb₂, Option.map_some, hinsts, insertIdx_append_length]
  have hlr := inst_ne_of_ne hlf hrl.symm
  have hsr := inst_ne_of_ne hsf hrs.symm
  have hinsts₃ : before ++ load.inst :: r.inst :: after =
      (before ++ [load.inst]) ++ r.inst :: after := by
    rw [List.append_assoc]
    rfl
  have hfirst₃ : r.inst ∉ before ++ [load.inst] := by
    rw [List.mem_append, List.mem_singleton, not_or]
    exact ⟨hfirst, hlr.symm⟩
  -- and the store between the two
  have hcode₄ := insertBefore_code hr₃ hparent hb₃ hinsts₃ hfirst₃ hinsert'
  have hr₄ : m₄.code.inst r = some d₀.code := by
    rw [hcode₄, Code.updInst_inst_of_ne hrs, Code.updBlock_inst, hr₃]
  have hb₄ : m₄.code.block b =
      some { bd with insts := before ++ load.inst :: store.inst :: r.inst :: after } := by
    rw [hcode₄, Code.updInst_block]
    show Function.update m₃.code.block b _ b = _
    rw [Function.update_self, hb₃, Option.map_some]
    dsimp only
    rw [hinsts₃, insertIdx_append_length, List.append_assoc]
    rfl
  -- `r` is taken out last
  obtain ⟨d₄, hd₄, hd₄'⟩ := inst_of_code_inst hr₄
  have hparent₄ : d₄.parent = some b := (congrArg InstData.parent hd₄').trans hparent
  have hcode := (eraseInstFromParent_code hd₄ hparent₄ herase).2
  have hload₄ : m₄.code.inst load = some ⟨some b, ty, .load src, [], d₀.name⟩ := by
    rw [hcode₄, Code.updInst_inst_of_ne hls, Code.updBlock_inst, hcode₃]
    show Function.update (m₂.code.updBlock b _).inst load _ load = _
    rw [Function.update_self, Code.updBlock_inst, hcode₂]
    show (Function.update m₁.code.inst store _ load).map _ = _
    rw [Function.update_of_ne hls, code_inst, hl₁]
    rfl
  have hstore₄ : m₄.code.inst store = some ⟨some b, .void, .store (.inst load) dest, [], none⟩ := by
    rw [hcode₄]
    show Function.update (m₃.code.updBlock b _).inst store _ store = _
    rw [Function.update_self, Code.updBlock_inst, hcode₃, Code.updInst_inst_of_ne hls.symm,
      Code.updBlock_inst, code_inst, hs₂]
    rfl
  -- nothing but `r` changes after that
  have hinst : ∀ i, i ≠ r → m'.code.inst i = m₄.code.inst i := fun i hi => by
    rw [hcode, Code.removeInst_inst_of_ne hi, Code.updBlock_inst]
  refine ⟨load, store, ?_⟩
  exact {
    ne := ⟨hls, hrl.symm, hrs.symm⟩
    fresh := by
      refine ⟨by rw [code_inst, hfresh]; rfl, ?_⟩
      have hstore₁ : m₁.code.inst store = m.code.inst store := by
        rw [hcode₁]
        exact Function.update_of_ne hls.symm _ _
      rw [← hstore₁, code_inst, hfresh']
      rfl
    block := by
      have hmem : r.inst ∈ before ++ load.inst :: store.inst :: r.inst :: after := by simp
      rw [hcode, Code.removeInst_block, hb, Option.map_some]
      show Function.update m₄.code.block b _ b = _
      rw [Function.update_self, hb₄, Option.map_some, BlockData.without, if_pos hmem,
        List.erase_append_right _ hfirst, List.erase_cons_tail (by simpa using hlr),
        List.erase_cons_tail (by simpa using hsr), List.erase_cons_head]
    blocks := fun b' hb' => by
      rw [hcode, Code.removeInst_block]
      show Function.update m₄.code.block b _ b' = _
      rw [Function.update_of_ne hb', hcode₄, Code.updInst_block]
      show Function.update m₃.code.block b _ b' = _
      rw [Function.update_of_ne hb', hcode₃, Code.updInst_block]
      show Function.update m₂.code.block b _ b' = _
      rw [Function.update_of_ne hb', hcode₂, hcode₁]
    loadInst := ⟨_, (hinst load hrl.symm).trans hload₄, rfl, rfl, rfl⟩
    storeInst := ⟨_, (hinst store hrs.symm).trans hstore₄, rfl, rfl⟩
    insts := fun i hir hil his => by
      rw [hinst i hir, hcode₄, Code.updInst_inst_of_ne his, Code.updBlock_inst, hcode₃,
        Code.updInst_inst_of_ne hil, Code.updBlock_inst, hcode₂]
      show Function.update m₁.code.inst store _ i = _
      rw [Function.update_of_ne his, hcode₁]
      exact Function.update_of_ne hil _ _
    erased := by
      rw [hcode]
      exact Function.update_self _ _ _
    rest := by
      rw [hcode, hcode₄, hcode₃, hcode₂, hcode₁]
      exact ⟨rfl, rfl, rfl, rfl⟩ }

/-! ## What is matched -/

theorem constIntU64_some {v : ValueId} {n : Nat} (h : m.constIntU64 v = some (some n)) :
    ∃ c d number, v = .const c ∧ m.constData c = some d ∧ d.kind = .int number ∧
      number.asU64 = n := by
  cases v with
  | const c =>
    obtain ⟨d, hd, h⟩ := Option.bind_eq_some_iff.mp h
    split at h
    · next number hk =>
      cases h
      exact ⟨c, d, number, rfl, hd, hk, rfl⟩
    · cases h
  | inst | arg | global => cases h

theorem scalarBits_some {n bits : Nat} (h : scalarBits n = some bits) :
    0 < n ∧ bits = 8 * n := by
  unfold scalarBits at h
  split at h <;> cases h <;> exact ⟨by decide, rfl⟩

theorem matchScalarMemcpy_some {r : InstRef} {dest src : ValueId} {ty : Ty}
    (h : m.matchScalarMemcpy t r = some (some (dest, src, ty))) :
    ∃ d fd func size isVolatile args n, m.inst r = some d ∧
      d.kind = .call func (dest :: src :: size :: isVolatile :: args) ∧ m.func func = some fd ∧
      (startsWith fd.name "llvm.memcpy." || startsWith fd.name "llvm.memmove.") = true ∧
      m.constIntU64 size = some (some n) ∧ 0 < n ∧ n ≤ maxScalarSize t ∧ ty = .int (8 * n) := by
  obtain ⟨d, hd, h⟩ := Option.bind_eq_some_iff.mp h
  -- a call of a function of that name
  split at h
  · next func args hk =>
    obtain ⟨fd, hfd, h⟩ := Option.bind_eq_some_iff.mp h
    split at h
    · cases h
    · next hname =>
      split at h
      · next dest' src' size isVolatile args _ =>
        obtain ⟨vol, -, h⟩ := Option.bind_eq_some_iff.mp h
        -- that is not volatile
        split at h
        · obtain ⟨n, hn, h⟩ := Option.bind_eq_some_iff.mp h
          split at h
          · next n =>
            split at h
            · cases h
            · next hmax =>
              obtain ⟨bits, hbits, heq⟩ := Option.map_eq_some_iff.mp (Option.some.inj h)
              cases heq
              obtain ⟨hpos, rfl⟩ := scalarBits_some hbits
              refine ⟨d, fd, func, size, isVolatile, args, n, hd, hk, hfd, ?_, hn, hpos,
                Nat.le_of_not_lt hmax, rfl⟩
              exact Bool.eq_true_of_not_eq_false fun h => hname (by rw [h]; rfl)
          · cases h
        · cases h
      · cases h
  · cases h

end ModuleCore

/-! ## What the instructions do to a memory of bytes -/

/-- An access to the memory. -/
structure Access (w : Nat) where
  addr : BitVec w
  size : Nat

/-- The address is a multiple of the size. -/
def Access.Aligned {w : Nat} (a : Access w) : Prop := a.size ∣ a.addr.toNat

/-- The values of a running function and its memory. -/
structure FlatState (w : Nat) where
  vals : ValueId → BitVec w
  mem : ByteMemory w

/-- The constants have their values. -/
def FlatState.Consts {w : Nat} (C : Code) (s : FlatState w) : Prop :=
  ∀ c d number, C.constData c = some d → d.kind = .int number →
    s.vals (.const c) = .ofNat w number.asU64

/-- A load, a store, or a copy of bytes, and its accesses; those of a copy are not looked at. -/
def Code.flatStep {w : Nat} (C : Code) (r : InstRef) (s : FlatState w) :
    Option (FlatState w × List (Access w)) := do
  let d ← C.inst r
  match d.kind with
  | .load ptr =>
    let bits ← d.ty.asInt
    some ({ s with
      vals := Function.update s.vals (.inst r) (s.mem.read (bits / 8) (s.vals ptr)) },
      [⟨s.vals ptr, bits / 8⟩])
  | .store value ptr =>
    let ty ← C.valueTy value
    let bits ← ty.asInt
    some ({ s with mem := s.mem.write (bits / 8) (s.vals ptr) (s.vals value) },
      [⟨s.vals ptr, bits / 8⟩])
  | .call func (dest :: src :: size :: _) =>
    let fd ← C.func func
    if startsWith fd.name "llvm.memcpy." || startsWith fd.name "llvm.memmove." then
      some ({ s with mem := s.mem.copy (s.vals size).toNat (s.vals dest) (s.vals src) }, [])
    else none
  | _ => none

/-- Instructions in sequence. -/
def Code.flatRun {w : Nat} (C : Code) : List InstRef → FlatState w →
    Option (FlatState w × List (Access w))
  | [], s => some (s, [])
  | r :: rs, s => do
    let (s, accesses) ← C.flatStep r s
    let (s, accesses') ← C.flatRun rs s
    some (s, accesses ++ accesses')

namespace ModuleCore

variable {t : Option TargetDataLayout} {m m' : ModuleCore}

/-- The accesses of a copy through a scalar of `n` bytes. -/
def scalarAccesses {w : Nat} (n : Nat) (dest src : BitVec w) : List (Access w) :=
  [⟨src, n⟩, ⟨dest, n⟩]

/-- The load and the store do what the copy did, with two accesses of its size. -/
theorem ScalarCopy.run {w : Nat} (hw : 8 * maxScalarSize t ≤ w) {r load store : InstRef}
    {dest src : ValueId} {ty : Ty} {b : BlockRef} {before after : List InstId}
    (hmatch : m.matchScalarMemcpy t r = some (some (dest, src, ty)))
    (h : ScalarCopy m.code m'.code r load store dest src ty b before after)
    (hdest : m.Defined dest) {s : FlatState w} (hs : s.Consts m.code) :
    ∃ n s₁ s₂, ty = .int (8 * n) ∧ m.code.flatStep r s = some (s₁, []) ∧
      m'.code.flatRun [load, store] s =
        some (s₂, scalarAccesses n (s.vals dest) (s.vals src)) ∧
      s₁.vals = s.vals ∧ s₂.mem = s₁.mem ∧ ∀ v, v ≠ .inst load → s₂.vals v = s₁.vals v := by
  obtain ⟨d, fd, func, size, isVolatile, args, n, hd, hk, hfd, hname, hsize, hpos, hmax, rfl⟩ :=
    matchScalarMemcpy_some hmatch
  obtain ⟨c, dc, number, rfl, hc, hkc, hnumber⟩ := constIntU64_some hsize
  have hfits : 8 * n ≤ w := (Nat.mul_le_mul_left 8 hmax).trans hw
  have hlt : n < 2 ^ w := by
    calc n < 2 ^ n := Nat.lt_two_pow_self
      _ ≤ 2 ^ w := Nat.pow_le_pow_right (by decide) (by omega)
  have hcount : (s.vals (.const c)).toNat = n := by
    have hconst : m.code.constData c = some dc.code := by
      show (m.constData c).map ConstData.code = _
      rw [hc]
      rfl
    rw [hs c dc.code number hconst hkc, hnumber, BitVec.toNat_ofNat, Nat.mod_eq_of_lt hlt]
  have hcall : m.code.flatStep r s =
      some ({ s with mem := s.mem.copy n (s.vals dest) (s.vals src) }, []) := by
    have hfunc : m.code.func func = some fd.header := by
      show (m.func func).map FunctionData.header = _
      rw [hfd]
      rfl
    have hname' : (startsWith fd.header.name "llvm.memcpy." ||
      startsWith fd.header.name "llvm.memmove.") = true := hname
    simp only [Code.flatStep, code_inst_of_inst hd, InstData.code, hk, hfunc, hname', hcount,
      Option.bind_eq_bind, Option.bind_some, if_true]
  obtain ⟨dl, hl, hkl, htl, -⟩ := h.loadInst
  obtain ⟨dst, hst, hkst, -⟩ := h.storeInst
  have hbytes : 8 * n / 8 = n := Nat.mul_div_cancel_left n (by decide)
  have hne : dest ≠ .inst load := by
    rintro rfl
    have hty : ((m.code.inst load).map InstData.ty).isSome := hdest
    rw [h.fresh.1] at hty
    cases hty
  -- the load
  have hload : m'.code.flatStep load s = some
      ({ s with vals := Function.update s.vals (.inst load) (s.mem.read n (s.vals src)) },
        [⟨s.vals src, n⟩]) := by
    simp only [Code.flatStep, hl, hkl, htl, Ty.asInt, hbytes, Option.bind_eq_bind, Option.bind_some]
  -- the store
  have hty : m'.code.valueTy (.inst load) = some (.int (8 * n)) := by
    show (m'.code.inst load).map InstData.ty = _
    rw [hl, Option.map_some, htl]
  have hstore : ∀ x, m'.code.flatStep store { s with vals := Function.update s.vals (.inst load) x } =
      some ({ vals := Function.update s.vals (.inst load) x, mem := s.mem.write n (s.vals dest) x },
        [⟨s.vals dest, n⟩]) := fun x => by
    simp only [Code.flatStep, hst, hkst, hty, Ty.asInt, hbytes, Option.bind_eq_bind,
      Option.bind_some, Function.update_self, Function.update_of_ne hne]
  have hrun : m'.code.flatRun [load, store] s = some
      ({ vals := Function.update s.vals (.inst load) (s.mem.read n (s.vals src))
         mem := s.mem.write n (s.vals dest) (s.mem.read n (s.vals src)) },
        [⟨s.vals src, n⟩, ⟨s.vals dest, n⟩]) := by
    simp only [Code.flatRun, hload, hstore, Option.bind_eq_bind, Option.bind_some, List.append_nil,
      List.singleton_append]
  refine ⟨n, _, _, rfl, hcall, hrun, rfl, ?_, fun v hv => ?_⟩
  · exact ByteMemory.write_eq_copy hfits rfl
  · exact Function.update_of_ne hv _ _

/-- They are aligned for all addresses of a type just where its alignment is a multiple of the
size. -/
theorem scalarAccesses_aligned_iff {w n align : Nat} (halign : align < 2 ^ w) :
    (∀ a b : BitVec w, align ∣ a.toNat → align ∣ b.toNat →
      ∀ x ∈ scalarAccesses n a b, x.Aligned) ↔ n ∣ align := by
  constructor
  · intro h
    have haddr : (BitVec.ofNat w align).toNat = align := by
      rw [BitVec.toNat_ofNat, Nat.mod_eq_of_lt halign]
    have hdvd : align ∣ (BitVec.ofNat w align).toNat := haddr.symm ▸ dvd_rfl
    have haligned := h _ _ hdvd hdvd _ List.mem_cons_self
    exact haddr ▸ haligned
  · intro hdvd a b ha hb x hx
    rcases List.mem_cons.mp hx with rfl | hx
    · exact hdvd.trans hb
    · obtain rfl := List.mem_singleton.mp hx
      exact hdvd.trans ha

/-- A copy of `n` bytes from one argument to the other. -/
def copyModule (n : Nat) : ModuleCore :=
  (runEdits [.createFunction "main" ⟨.void, [.ptr, .ptr]⟩, .appendArg 1 .ptr none,
    .appendArg 1 .ptr none, .declareFunction "llvm.memcpy.p0.p0.i32" ⟨.void, [.ptr, .ptr, .int 32, .int 1]⟩,
    .addConst (.int 32) (.int ⟨n, 32⟩), .addConst (.int 1) (.int ⟨0, 1⟩),
    .newInst 1 .void (.call 2 [.arg ⟨1, 1⟩, .arg ⟨1, 2⟩, .const 1, .const 2]) none,
    .appendInst ⟨1, 1⟩ ⟨1, 1⟩]).getD .new

/-- A copy of a `[u8; 4]` becomes an access to a word at any address. -/
example : (copyModule 4).matchScalarMemcpy (some .rv32) ⟨1, 1⟩ =
    some (some (.arg ⟨1, 1⟩, .arg ⟨1, 2⟩, .int 32)) := rfl

end ModuleCore

end Ir
