import C0mpiler.Irgen.Value
import Mathlib

/-!
# What the generator emits

A step of the generator puts instructions at the end of the current block and allocas at the front
of the entry block, and keeps all the code that is there (`Emits`). Each build operation has one
lemma that says it succeeds when its operands exist, and what it emits.
-/

open Ir

namespace Irgen.IRGenerator

/-- The builders stand in blocks of the module, one at the end and the other at the front. -/
structure Ready (g : IRGenerator) : Prop where
  block : (g.code.block g.builder.block).isSome
  atEnd : g.builder.insertPlace = .atEnd
  entry : (g.code.block g.allocaBuilder.block).isSome
  front : g.allocaBuilder.insertPlace = .front

/-- `g'` is `g` after the allocas `slots` and the instructions `rs`. -/
structure Emits (g g' : IRGenerator) (slots rs : List InstRef) : Prop where
  target : g'.target = g.target
  builder : g'.builder = g.builder
  allocaBuilder : g'.allocaBuilder = g.allocaBuilder
  func : g'.code.func = g.code.func
  grows : g.code.Grows g'.code
  fresh : ∀ r ∈ slots ++ rs, g.code.inst r = none
  emitted : ∀ r ∈ slots ++ rs, (g'.code.inst r).isSome
  block : ∀ b, g'.code.block b = (g.code.block b).map fun bd =>
    { bd with insts := (if b = g.allocaBuilder.block then slots.map InstRef.inst else []) ++
        bd.insts ++ if b = g.builder.block then rs.map InstRef.inst else [] }

variable {g g' g'' : IRGenerator} {slots rs : List InstRef}

namespace Emits

theorem refl (g : IRGenerator) : g.Emits g [] [] where
  target := rfl
  builder := rfl
  allocaBuilder := rfl
  func := rfl
  grows := .refl g.code
  fresh _ h := nomatch h
  emitted _ h := nomatch h
  block b := by
    cases g.code.block b with
    | none => rfl
    | some bd => simp

theorem trans {slots' rs' : List InstRef} (h : g.Emits g' slots rs)
    (h' : g'.Emits g'' slots' rs') : g.Emits g'' (slots' ++ slots) (rs ++ rs') where
  target := h'.target.trans h.target
  builder := h'.builder.trans h.builder
  allocaBuilder := h'.allocaBuilder.trans h.allocaBuilder
  func := h'.func.trans h.func
  grows := h.grows.trans h'.grows
  fresh r hr := by
    -- an instruction that the second step finds fresh is not one of the first code
    have hlater : g'.code.inst r = none → g.code.inst r = none := by
      intro hnone
      cases hd : g.code.inst r with
      | none => rfl
      | some d =>
        rw [h.grows.inst r d hd] at hnone
        cases hnone
    have hcases : r ∈ slots ++ rs ∨ r ∈ slots' ++ rs' := by
      simp only [List.mem_append] at hr ⊢
      tauto
    cases hcases with
    | inl hr => exact h.fresh r hr
    | inr hr => exact hlater (h'.fresh r hr)
  emitted r hr := by
    have hcases : r ∈ slots ++ rs ∨ r ∈ slots' ++ rs' := by
      simp only [List.mem_append] at hr ⊢
      tauto
    cases hcases with
    | inl hr =>
      obtain ⟨d, hd⟩ := Option.isSome_iff_exists.mp (h.emitted r hr)
      rw [h'.grows.inst r d hd]
      rfl
    | inr hr => exact h'.emitted r hr
  block b := by
    rw [h'.block b, h.block b, h.allocaBuilder, h.builder]
    cases g.code.block b with
    | none => rfl
    | some bd =>
      simp only [Option.map_some, Option.some.injEq]
      split_ifs <;> simp

theorem ready (h : g.Emits g' slots rs) (hg : g.Ready) : g'.Ready where
  block := by
    rw [h.builder, h.block, Option.isSome_map]
    exact hg.block
  atEnd := h.builder ▸ hg.atEnd
  entry := by
    rw [h.allocaBuilder, h.block, Option.isSome_map]
    exact hg.entry
  front := h.allocaBuilder ▸ hg.front

theorem defined (h : g.Emits g' slots rs) {v : ValueId} (hv : g.module.Defined v) :
    g'.module.Defined v := by
  obtain ⟨ty, hty⟩ := Option.isSome_iff_exists.mp hv
  exact Option.isSome_iff_exists.mpr ⟨ty, h.grows.valueTy hty⟩

/-- What the second of two steps emits, the first has not. -/
theorem notMem {slots' rs' : List InstRef} (h : g.Emits g' slots rs)
    (h' : g'.Emits g'' slots' rs') {r : InstRef} (hr : r ∈ slots ++ rs) : r ∉ slots' ++ rs' := by
  intro hmem
  have hsome := h.emitted r hr
  rw [h'.fresh r hmem] at hsome
  cases hsome

end Emits

/-- A value that an instruction of the code computes exists. -/
theorem defined_inst {r : InstRef} {d : InstData} (h : g.code.inst r = some d) :
    g.module.Defined (.inst r) := by
  show ((g.code.inst r).map InstData.ty).isSome
  rw [h]
  rfl

theorem defined_const {c : ConstId} {d : ConstData} (h : g.code.constData c = some d) :
    g.module.Defined (.const c) := by
  show ((g.code.constData c).map ConstData.ty).isSome
  rw [h]
  rfl

/-! ## The build operations -/

/-- An instruction at the end of the current block. -/
theorem buildInst_emits (hg : g.Ready) (ty : Ty) (kind : InstKind) (name : Option String)
    (hphi : kind.isPhi = false) (hterm : kind.isTerminator = false)
    (hops : ∀ op ∈ kind.valueOperands, g.module.Defined op.1) :
    ∃ r m', g.module.buildInst g.builder ty kind name = some (r, m') ∧
      g.Emits { g with module := m' } [] [r] ∧
      m'.code.inst r = some ⟨some g.builder.block, ty, kind, [], name⟩ := by
  obtain ⟨r, m', hrun, hfresh, hcode⟩ :=
    ModuleCore.buildInst_spec g.builder ty kind name hg.block hphi hterm hops
  -- the instruction is the only one that is new
  have hself : m'.code.inst r = some ⟨some g.builder.block, ty, kind, [], name⟩ := by
    rw [hcode]
    exact Code.emit_inst_self
  refine ⟨r, m', hrun, ⟨rfl, rfl, rfl, ?_, ?_, ?_, ?_, ?_⟩, hself⟩
  -- the fields of `Emits`
  · show m'.code.func = _
    rw [hcode]
    rfl
  · show g.code.Grows m'.code
    rw [hcode]
    exact .emit hfresh
  · intro r' hr'
    rw [List.mem_singleton.mp hr']
    exact hfresh
  · intro r' hr'
    rw [List.mem_singleton.mp hr']
    show (m'.code.inst r).isSome
    rw [hself]
    rfl
  -- only the block of the builder gets longer
  · intro b
    show m'.code.block b = _
    rw [hcode]
    show Function.update g.code.block g.builder.block _ b = _
    -- the block of the builder
    by_cases hb : b = g.builder.block
    · subst hb
      rw [Function.update_self]
      refine congrArg (Option.map · _) (funext fun bd => ?_)
      simp [BlockData.insertAt, hg.atEnd]
    · rw [Function.update_of_ne hb]
      cases g.code.block b with
      | none => rfl
      | some bd => simp [hb]

/-- An alloca at the front of the entry block. -/
theorem buildAlloca_emits (hg : g.Ready) (ty : Ty) :
    ∃ r g', g.buildAlloca ty = some (.inst r, g') ∧ g.Emits g' [r] [] ∧
      ∃ d, g'.code.inst r = some d ∧ d.ty = .ptr ∧ d.kind = .alloca ty := by
  obtain ⟨r, m', hrun, hfresh, hcode⟩ :=
    ModuleCore.buildInst_spec g.allocaBuilder .ptr (.alloca ty) none hg.entry rfl rfl
      fun _ h => nomatch h
  -- the slot, in the block of allocas
  have hself : m'.code.inst r = some ⟨some g.allocaBuilder.block, .ptr, .alloca ty, [], none⟩ := by
    rw [hcode]
    exact Code.emit_inst_self
  refine ⟨r, { g with module := m' }, ?_, ⟨rfl, rfl, rfl, ?_, ?_, ?_, ?_, ?_⟩, _, hself, rfl, rfl⟩
  · simp only [buildAlloca, ModuleCore.buildAlloca, hrun, Option.bind_eq_bind, Option.bind_some]
  -- the fields of `Emits`, with the new instruction among the slots
  · show m'.code.func = _
    rw [hcode]
    rfl
  · show g.code.Grows m'.code
    rw [hcode]
    exact .emit hfresh
  · intro r' hr'
    rw [List.mem_singleton.mp hr']
    exact hfresh
  · intro r' hr'
    rw [List.mem_singleton.mp hr']
    show (m'.code.inst r).isSome
    rw [hself]
    rfl
  · intro b
    show m'.code.block b = _
    rw [hcode]
    show Function.update g.code.block g.allocaBuilder.block _ b = _
    by_cases hb : b = g.allocaBuilder.block
    · subst hb
      rw [Function.update_self]
      refine congrArg (Option.map · _) (funext fun bd => ?_)
      simp [BlockData.insertAt, hg.front]
    · rw [Function.update_of_ne hb]
      cases g.code.block b with
      | none => rfl
      | some bd => simp [hb]

theorem buildLoad_emits (hg : g.Ready) (ty : Ty) {ptr : ValueId} (hptr : g.module.Defined ptr) :
    ∃ r g', g.buildLoad ty ptr = some (.inst r, g') ∧ g.Emits g' [] [r] ∧
      ∃ d, g'.code.inst r = some d ∧ d.ty = ty ∧ d.kind = .load ptr := by
  obtain ⟨r, m', hrun, hemits, hinst⟩ := buildInst_emits hg ty (.load ptr) none
    rfl rfl fun op hop => by
      rw [List.mem_singleton.mp hop]
      exact hptr
  refine ⟨r, _, ?_, hemits, _, hinst, rfl, rfl⟩
  simp only [buildLoad, ModuleCore.buildLoad, hrun, Option.bind_eq_bind, Option.bind_some]

theorem buildStore_emits (hg : g.Ready) {value ptr : ValueId} (hvalue : g.module.Defined value)
    (hptr : g.module.Defined ptr) :
    ∃ r g', g.buildStore value ptr = some g' ∧ g.Emits g' [] [r] ∧
      ∃ d, g'.code.inst r = some d ∧ d.kind = .store value ptr := by
  obtain ⟨r, m', hrun, hemits, hinst⟩ := buildInst_emits hg .void
    (.store value ptr) none rfl rfl fun op hop => by
      simp only [InstKind.valueOperands, List.mem_cons, List.not_mem_nil, or_false] at hop
      cases hop with
      | inl hop => exact hop ▸ hvalue
      | inr hop => exact hop ▸ hptr
  refine ⟨r, _, ?_, hemits, _, hinst, rfl⟩
  simp only [buildStore, ModuleCore.buildStore, hrun, Option.bind_eq_bind, Option.bind_some]

theorem buildGetelementptr_emits (hg : g.Ready) (baseTy : Ty) {base : ValueId}
    (hbase : g.module.Defined base) (indices : List ValueId)
    (hindices : ∀ v ∈ indices, g.module.Defined v) :
    ∃ r g', g.buildGetelementptr baseTy base indices = some (.inst r, g') ∧ g.Emits g' [] [r] ∧
      ∃ d, g'.code.inst r = some d ∧ d.ty = .ptr ∧ d.kind = .getElementPtr baseTy base indices := by
  obtain ⟨r, m', hrun, hemits, hinst⟩ := buildInst_emits hg .ptr
    (.getElementPtr baseTy base indices) none rfl rfl fun op hop => by
      cases List.mem_cons.mp hop with
      | inl hop => exact hop ▸ hbase
      | inr hop =>
        obtain ⟨⟨v, i⟩, hvi, rfl⟩ := List.mem_map.mp hop
        exact hindices v (List.fst_mem_of_mem_zipIdx hvi)
  refine ⟨r, _, ?_, hemits, _, hinst, rfl, rfl⟩
  simp only [buildGetelementptr, ModuleCore.buildGetelementptr, hrun, Option.bind_eq_bind,
    Option.bind_some]

/-- A constant is added to the module, not to a block. -/
theorem addI32Const_emits (g : IRGenerator) (value : Nat) :
    ∃ c i g', g.addI32Const value = some (.const c, g') ∧ g.Emits g' [] [] ∧
      g'.code.constData c = some ⟨.int 32, .int i, []⟩ := by
  refine ⟨g.module.consts.next, _, { g with module := (g.module.addConst (.int 32) _).2 }, rfl,
    ⟨rfl, rfl, rfl, rfl, g.module.grows_addConst _ _, (fun _ h => nomatch h), (fun _ h => nomatch h), ?_⟩,
    g.module.constData_addConst _ _⟩
  intro b
  show g.code.block b = _
  cases g.code.block b with
  | none => rfl
  | some bd => simp

end Irgen.IRGenerator
