import C0mpiler.Ir.CodeEdits
import C0mpiler.Ir.UseListRun
import C0mpiler.Opt.Strength
import C0mpiler.Sem.Flow
import Mathlib

/-!
# Scalar replacement of aggregates

`opt_sroa` wants to give each field of an alloca its own alloca. It looks for the fields in the type
of the alloca instruction, where `mem2reg.rs` reads the allocated type; the instruction of
`build_alloca` is a pointer, so the pass leaves every module as it is. Here: the pass, what it is
meant to do (`Separated`), and when it does it.
-/

namespace Ir

/-- The field types of a struct or an array. -/
def Ty.fields : Ty → Option (List Ty)
  | .struct fields _ => some fields
  | .structForward => some []
  | .array elem len => some (List.replicate len elem)
  | _ => none

def InstKind.isAlloca : InstKind → Bool
  | .alloca _ => true
  | _ => false

namespace ModuleCore

section Model

variable (m : ModuleCore)

/-- The value of an operand that is an integer constant. The outer `none` is a dead key. -/
def constIndex : ValueId → Option (Option Nat)
  | .const c => do
    let d ← m.constData c
    match d.kind with
    | .int ci => some (some ci.value)
    | _ => some none
  | _ => some none

/-- The use of the alloca as the base of a `getelementptr` with the indices `[0, i]`. -/
def fieldGep (alloca : InstRef) (use : Use) : Option (Option (InstRef × Nat)) := do
  let gep ← m.inst use.user
  match gep.kind with
  | .getElementPtr _ base [first, second] =>
    if base ≠ .inst alloca then some none
    else
      match ← m.constIndex first with
      | some 0 => do
        let idx ← m.constIndex second
        some (idx.map fun idx => (use.user, idx))
      | _ => some none
  | _ => some none

/-- One user of a field address: a load or a store there is kept, all else makes the alloca stay. -/
def collectUser (field : Nat) (state : Bool × HashMap Nat (List Use)) (use : Use) :
    Option (Bool × HashMap Nat (List Use)) := do
  let user ← m.inst use.user
  match user.kind, use.slot with
  | .load _, .loadPtr | .store _ _, .storePtr =>
    some (state.1, state.2.insert field ((state.2.lookup field).getD [] ++ [use]))
  | _, _ => some (false, state.2)

/-- The loop over the field addresses; an index out of range ends it. -/
def collectAccesses (fields : List Ty) : List (InstRef × Nat) → Bool × HashMap Nat (List Use) →
    Option (Bool × HashMap Nat (List Use))
  | [], state => some state
  | (gep, field) :: geps, state =>
    if fields.length ≤ field then some (false, state.2)
    else do
      let users ← m.valueUses (.inst gep)
      let state ← users.foldlM (m.collectUser field) state
      collectAccesses fields geps state

/-- The alloca of a field. -/
def addFieldAlloca (func : FunctionId) (block : BlockRef) (fields : List Ty)
    (state : ModuleCore × HashMap Nat InstRef) (field : Nat) :
    Option (ModuleCore × HashMap Nat InstRef) := do
  let fieldTy ← fields[field]?
  let (fieldAlloca, m) ← state.1.newInst func .ptr (.alloca fieldTy) none
  let m ← m.appendInst block fieldAlloca
  some (m, state.2.insert field fieldAlloca)

/-- A load or a store goes over to the alloca of its field. -/
def rewriteAccess (fieldAlloca : InstRef) (access : Use) : Option ModuleCore := do
  let user ← m.inst access.user
  let parent ← user.parent
  match user.kind, access.slot with
  | .load _, .loadPtr => do
    let (newLoad, m) ← m.newInst fieldAlloca.func user.ty (.load (.inst fieldAlloca)) none
    let m ← m.detachInst access.user
    let m ← m.appendInst parent newLoad
    let m ← m.replaceAllUsesWith (.inst access.user) (.inst newLoad)
    m.appendInst parent access.user
  | .store value _, .storePtr => do
    let (newStore, m) ← m.newInst fieldAlloca.func .void (.store value (.inst fieldAlloca)) none
    m.appendInst parent newStore
  | _, _ => some m

variable (order : HashMap Nat (List Use) → List Nat) (slots : SlotOrder)

/-- `try_sroa_one`; `order` is the order in which the accessed fields are iterated over. -/
def trySroaOne (alloca : InstRef) : Option ModuleCore := do
  let d ← m.inst alloca
  match d.ty.fields with
  | none => some m
  | some fields =>
    if fields.isEmpty then some m
    else do
      let uses ← m.valueUses (.inst alloca)
      let gepInfos ← uses.mapM (m.fieldGep alloca)
      let gepInfos := gepInfos.filterMap id
      if gepInfos.isEmpty then some m
      else do
        let (valid, fieldAccesses) ← m.collectAccesses fields gepInfos (true, ∅)
        if !valid then some m
        else do
          let block ← d.parent
          let (m, fieldAllocas) ← (order fieldAccesses).foldlM
            (addFieldAlloca alloca.func block fields) (m, ∅)
          (order fieldAccesses).foldlM (fun m field => do
            let fieldAlloca ← fieldAllocas.lookup field
            ((fieldAccesses.lookup field).getD []).foldlM (fun m access =>
              m.rewriteAccess fieldAlloca access) m) m

def funcSroa (id : FunctionId) : Option ModuleCore := do
  let function ← m.func id
  if function.isDeclare then some m
  else
    let allocas := (function.insts.keysIn slots id).filter fun i =>
      (function.insts.get? i).any fun d => d.kind.isAlloca
    allocas.foldlM (fun m i =>
      match m.inst ⟨id, i⟩ with
      | none => some m
      | some _ => m.trySroaOne order ⟨id, i⟩) m

def optSroa : Option ModuleCore :=
  m.functionsInOrder.foldlM (fun m id => m.funcSroa order slots id) m

end Model

end ModuleCore

/-! ## What the pass is for -/

/-- What is seen of an action: a call with its answer, or the value of a load. -/
inductive Seen where
  | call (func : FunctionId) (args : List Val) (result : Val)
  | load (inst : InstRef) (value : Option Val)

def Event.seen : Event → Seen
  | .call func args _ result _ => .call func args result

def Action.seen (loads : InstRef → Bool) (a : Action) : List Seen :=
  if loads a.inst then [.load a.inst (a.after.regs a.inst)] else a.events.map Event.seen

def FlowState.result : FlowState → Option (Option Val)
  | .returned value _ => some value
  | _ => none

namespace Code

variable (C : Code)

/-- An integer constant. -/
def ConstantIs (v : ValueId) (n : Nat) : Prop :=
  ∃ c d ci, v = .const c ∧ C.constData c = some d ∧ d.kind = .int ci ∧ ci.value = n

/-- `gep` is the address of the field `i` of an alloca. -/
def FieldAddress (alloca gep : InstRef) (i : Nat) : Prop :=
  ∃ d ty first second, C.inst gep = some d ∧
    d.kind = .getElementPtr ty (.inst alloca) [first, second] ∧ C.ConstantIs first 0 ∧
    C.ConstantIs second i

/-- `r`, in a block, loads from the address or stores to it. -/
def AccessTo (address r : InstRef) (b : BlockRef) : Prop :=
  ∃ d, C.inst r = some d ∧ d.parent = some b ∧
    (d.kind = .load (.inst address) ∨ ∃ value, d.kind = .store value (.inst address))

/-- `r` accesses the field `i` of an alloca. -/
def FieldAccess (alloca r : InstRef) (b : BlockRef) (i : Nat) : Prop :=
  ∃ gep, C.FieldAddress alloca gep i ∧ C.AccessTo gep r b

/-- An alloca that can be split: of a struct or array type, used by addresses of its fields only, and
these by loads and stores only. -/
structure Splittable (alloca : InstRef) (fields : List Ty) : Prop where
  isAlloca : ∃ d ty, C.inst alloca = some d ∧ d.kind = .alloca ty ∧ ty.fields = some fields
  uses : ∀ r d slot, C.inst r = some d → (.inst alloca, slot) ∈ d.kind.valueOperands →
    ∃ i < fields.length, C.FieldAddress alloca r i
  accesses : ∀ gep i r d slot, C.FieldAddress alloca gep i → C.inst r = some d →
    (.inst gep, slot) ∈ d.kind.valueOperands →
      d.kind = .load (.inst gep) ∧ slot = .loadPtr ∨
        ∃ value, d.kind = .store value (.inst gep) ∧ slot = .storePtr

/-- In `C'` no field of the alloca is accessed any more: each field that was has an alloca of its own,
of the type of the field, and is accessed there instead, in the same block. -/
def Separated (C' : Code) (alloca : InstRef) (fields : List Ty) : Prop :=
  (∀ r b i, ¬C'.FieldAccess alloca r b i) ∧
    ∃ slot : Nat → InstRef, ∀ r b i, C.FieldAccess alloca r b i →
      C.inst (slot i) = none ∧
      (∃ d ty, C'.inst (slot i) = some d ∧ d.kind = .alloca ty ∧ fields[i]? = some ty) ∧
      (∀ r' b' j, C.FieldAccess alloca r' b' j → slot i = slot j → i = j) ∧
      ∃ r', C'.AccessTo (slot i) r' b

/-- The address a load reads. -/
def loadAddress (r : InstRef) : Option ValueId :=
  (C.inst r).bind fun d =>
    match d.kind with
    | .load ptr => some ptr
    | _ => none

/-- A load that `C'` still has. -/
def loadLeft (C' : Code) (r : InstRef) : Bool :=
  (C.loadAddress r).isSome && C.loadAddress r == C'.loadAddress r

/-- What a run of the function shows up to some point: its calls, the values of the loads in `loads`,
and what it returned. -/
def Shows (E : Env) (f : FunctionId) (loads : InstRef → Bool) (b : BlockId) (s : State)
    (seen : List Seen) (result : Option (Option Val)) : Prop :=
  ∃ acts c, C.FlowRun E f (.enter none b s) acts c ∧ acts.flatMap (Action.seen loads) = seen ∧
    c.result = result

/-- From the start of a block, both show the same. -/
def SameBehaviour (C' : Code) (f : FunctionId) : Prop :=
  ∀ E b s seen result, (C.block ⟨f, b⟩).isSome →
    (C.Shows E f (C.loadLeft C') b s seen result ↔ C'.Shows E f (C.loadLeft C') b s seen result)

/-- The instructions of a block that are left in it stand in their order. -/
def Ordered (C' : Code) : Prop :=
  ∀ b bd bd', C.block b = some bd → C'.block b = some bd' →
    (bd'.insts.filter (· ∈ bd.insts)).Sublist bd.insts

end Code

namespace ModuleCore

/-- The pass did what it is for: every function behaves as before, and every alloca that can be split
is. -/
structure SroaDone (m m' : ModuleCore) : Prop where
  sameBehaviour : ∀ f, m.code.SameBehaviour m'.code f
  ordered : m.code.Ordered m'.code
  separated : ∀ alloca fields, m.code.Splittable alloca fields →
    m.code.Separated m'.code alloca fields

/-- Every alloca is a pointer, as `build_alloca` makes it. -/
def AllocasBuilt (m : ModuleCore) : Prop :=
  ∀ r d ty, m.inst r = some d → d.kind = .alloca ty → d.ty = .ptr

variable {m m' : ModuleCore}

theorem trySroaOne_of_ptr {order : HashMap Nat (List Use) → List Nat} {alloca : InstRef}
    {d : InstData} (hd : m.inst alloca = some d) (hty : d.ty = .ptr) :
    m.trySroaOne order alloca = some m := by
  simp only [trySroaOne, hd, hty, Ty.fields, Option.bind_eq_bind, Option.bind_some]

variable (order : HashMap Nat (List Use) → List Nat) (slots : SlotOrder)

/-- A function whose allocas `build_alloca` made stays as it is. -/
theorem funcSroa_of_built (h : m.AllocasBuilt) {id : FunctionId} {fd : FunctionData}
    (hfd : m.func id = some fd) : m.funcSroa order slots id = some m := by
  simp only [funcSroa, hfd, Option.bind_eq_bind, Option.bind_some]
  split
  · rfl
  · refine OptionFold.fixed fun i hi => ?_
    obtain ⟨-, hi⟩ := List.mem_filter.mp hi
    obtain ⟨d, hget, hk⟩ := (Option.any_eq_true _ _).mp hi
    have hd : m.inst ⟨id, i⟩ = some d := by
      simpa only [inst, hfd, Option.bind_eq_bind, Option.bind_some] using hget
    rw [hd]
    refine trySroaOne_of_ptr hd ?_
    cases hkind : d.kind with
    | alloca ty => exact h _ d ty hd hkind
    | _ => rw [hkind] at hk; cases hk

/-- The pass leaves a module as it is. -/
theorem optSroa_of_built (h : m.AllocasBuilt) : m.optSroa order slots = some m := by
  refine OptionFold.fixed fun id hid => ?_
  have hmem : id ∈ m.functions.keys := List.mem_mergeSort.mp hid
  obtain ⟨fd, hfd⟩ := Option.isSome_iff_exists.mp (SlotMap.mem_keys.mp hmem)
  exact funcSroa_of_built order slots h hfd

/-- It does what it is for just where there is nothing to do: no field of an alloca that can be split
is accessed. -/
theorem optSroa_done_iff (h : m.AllocasBuilt) : (∃ m', m.optSroa order slots = some m' ∧ m.SroaDone m') ↔
    ∀ alloca fields, m.code.Splittable alloca fields → ∀ r b i, ¬m.code.FieldAccess alloca r b i := by
  constructor
  · rintro ⟨m', hrun, hdone⟩ alloca fields hsplit
    obtain rfl := Option.some.inj ((optSroa_of_built order slots h).symm.trans hrun)
    exact (hdone.separated alloca fields hsplit).1
  · intro hnone
    refine ⟨m, optSroa_of_built order slots h, fun f E b s seen result _ => Iff.rfl, ?_, ?_⟩
    · intro b bd bd' hb hb'
      obtain rfl := Option.some.inj (hb.symm.trans hb')
      exact List.filter_sublist
    · intro alloca fields hsplit
      exact ⟨hnone alloca fields hsplit, fun _ => alloca,
        fun r b i haccess => absurd haccess (hnone alloca fields hsplit r b i)⟩

/-- A struct of two integers. -/
def pair : Ty := .struct [.int 32, .int 32] false

/-- A function with a local struct no field of which is accessed. -/
def localPair : ModuleCore :=
  (runEdits [.createFunction "f" ⟨.void, []⟩, .newInst 1 .ptr (.alloca pair) none,
    .appendInst ⟨1, 1⟩ ⟨1, 1⟩, .newInst 1 .void (.ret none) none,
    .setTerminator ⟨1, 1⟩ ⟨1, 2⟩]).getD .new

theorem localPair_inst {r : InstRef} {d : InstData} (hd : localPair.inst r = some d) :
    r = ⟨1, 1⟩ ∧ d.ty = .ptr ∧ d.kind = .alloca pair ∨ d.kind = .ret none := by
  obtain ⟨f, i⟩ := r
  rcases f with _ | _ | f
  · cases hd
  · rcases i with _ | _ | _ | i
    · cases hd
    · cases hd
      exact .inl ⟨rfl, rfl, rfl⟩
    · cases hd
      exact .inr rfl
    · cases hd
  · cases hd

/-- The struct can be split, and as nothing accesses a field the pass is right to leave it. -/
theorem optSroa_localPair :
    (∃ m', localPair.optSroa (fun map => map.keys) .byCreation = some m' ∧ localPair.SroaDone m') ∧
      localPair.code.Splittable ⟨1, 1⟩ [.int 32, .int 32] := by
  have hnone : ∀ alloca gep i, ¬localPair.code.FieldAddress alloca gep i := by
    rintro alloca gep i ⟨d, ty, first, second, hd, hk, -⟩
    obtain ⟨d, hinst, rfl⟩ := inst_of_code_inst hd
    have hk : d.kind = _ := hk
    rcases localPair_inst hinst with ⟨-, -, hk'⟩ | hk' <;> rw [hk'] at hk <;> cases hk
  refine ⟨(optSroa_done_iff _ _ fun r d ty hd hk => ?_).mpr fun alloca fields _ r b i => ?_, ?_⟩
  · rcases localPair_inst hd with ⟨-, hty, -⟩ | hk'
    · exact hty
    · rw [hk'] at hk
      cases hk
  · rintro ⟨gep, hgep, -⟩
    exact hnone alloca gep i hgep
  · refine ⟨⟨_, pair, rfl, rfl, rfl⟩, fun r d slot hd hslot => ?_, fun gep i r d slot hgep => ?_⟩
    · obtain ⟨d, hinst, rfl⟩ := inst_of_code_inst hd
      have hslot : _ ∈ d.kind.valueOperands := hslot
      rcases localPair_inst hinst with ⟨-, -, hk⟩ | hk <;> rw [hk] at hslot <;> cases hslot
    · exact absurd hgep (hnone _ gep i)

/-! ## What the builder makes -/

theorem allocasBuilt_iff : m.AllocasBuilt ↔
    ∀ r d ty, m.code.inst r = some d → d.kind = .alloca ty → d.ty = .ptr := by
  constructor
  · intro h r d ty hd hk
    obtain ⟨d, hd', rfl⟩ := inst_of_code_inst hd
    exact h r d ty hd' hk
  · intro h r d ty hd hk
    exact h r d.code ty (code_inst_of_inst hd) hk

/-- `build_alloca` keeps every alloca a pointer. -/
theorem buildAlloca_built (h : m.AllocasBuilt) {location : BuilderLocation} {ty : Ty}
    {name : Option String} {r : InstRef} (hrun : m.buildAlloca location ty name = some (r, m')) :
    m'.AllocasBuilt := by
  obtain ⟨⟨r', m₁⟩, hnew, hrun⟩ := Option.bind_eq_some_iff.mp hrun
  obtain ⟨m₂, hinsert, heq⟩ := Option.bind_eq_some_iff.mp hrun
  cases heq
  obtain ⟨-, -, hr, hcode₁⟩ := newInst_code hnew
  -- both places insert in the block and attach
  obtain ⟨g, hg, hattach⟩ : ∃ g : BlockData → BlockData, (∀ bd, (g bd).code = g bd.code) ∧
      (m₁.updBlock location.block g).attachInst location.block r = some m' := by
    simp only [insertInst, hr, InstKind.isPhi, InstKind.isTerminator, Option.bind_eq_bind,
      Option.bind_some] at hinsert
    cases hplace : location.insertPlace with
    | front =>
      simp only [hplace, pushFrontInst, Option.bind_eq_bind, Bool.false_eq_true, if_false,
        Option.bind_eq_some_iff] at hinsert
      obtain ⟨_, -, _, -, _, -, _, -, hattach⟩ := hinsert
      exact ⟨fun b => { b with insts := r.inst :: b.insts }, fun _ => rfl, hattach⟩
    | atEnd =>
      simp only [hplace, appendInst, Option.bind_eq_bind, Bool.false_eq_true, if_false,
        Option.bind_eq_some_iff] at hinsert
      obtain ⟨_, -, _, -, _, -, hattach⟩ := hinsert
      exact ⟨fun b => { b with insts := b.insts ++ [r.inst] }, fun _ => rfl, hattach⟩
  rw [allocasBuilt_iff] at h ⊢
  intro i d ty' hd hk
  rw [attachInst_code hg hattach, hcode₁] at hd
  by_cases hi : i = r
  · subst hi
    have hdata : d = ⟨some location.block, .ptr, .alloca ty, [], name⟩ := by
      refine (Option.some.inj (hd.symm.trans ?_))
      simp only [Code.updInst, Code.updBlock, Function.update_self, Option.map_some]
    rw [hdata]
  · rw [Code.updInst_inst_of_ne hi] at hd
    exact h i d ty' ((Function.update_of_ne hi _ _).symm.trans hd) hk

/-! ## A struct with one store -/

/-- A function that stores to the second field of a local struct. -/
def storeField : ModuleCore :=
  (runEdits [.createFunction "f" ⟨.void, []⟩, .addConst (.int 32) (.int ⟨0, 32⟩),
    .addConst (.int 32) (.int ⟨1, 32⟩), .newInst 1 .ptr (.alloca pair) none,
    .appendInst ⟨1, 1⟩ ⟨1, 1⟩,
    .newInst 1 .ptr (.getElementPtr pair (.inst ⟨1, 1⟩) [.const 1, .const 2]) none,
    .appendInst ⟨1, 1⟩ ⟨1, 2⟩, .newInst 1 .void (.store (.const 2) (.inst ⟨1, 2⟩)) none,
    .appendInst ⟨1, 1⟩ ⟨1, 3⟩, .newInst 1 .void (.ret none) none,
    .setTerminator ⟨1, 1⟩ ⟨1, 4⟩]).getD .new

theorem storeField_inst {r : InstRef} {d : InstData} (hd : storeField.code.inst r = some d) :
    d.parent = some ⟨1, 1⟩ ∧ (r = ⟨1, 1⟩ ∧ d.ty = .ptr ∧ d.kind = .alloca pair ∨
      r = ⟨1, 2⟩ ∧ d.kind = .getElementPtr pair (.inst ⟨1, 1⟩) [.const 1, .const 2] ∨
      r = ⟨1, 3⟩ ∧ d.kind = .store (.const 2) (.inst ⟨1, 2⟩) ∨ r = ⟨1, 4⟩ ∧ d.kind = .ret none) := by
  obtain ⟨f, i⟩ := r
  rcases f with _ | _ | f
  · cases hd
  · rcases i with _ | _ | _ | _ | _ | i
    · cases hd
    · cases hd
      exact ⟨rfl, .inl ⟨rfl, rfl, rfl⟩⟩
    · cases hd
      exact ⟨rfl, .inr (.inl ⟨rfl, rfl⟩)⟩
    · cases hd
      exact ⟨rfl, .inr (.inr (.inl ⟨rfl, rfl⟩))⟩
    · cases hd
      exact ⟨rfl, .inr (.inr (.inr ⟨rfl, rfl⟩))⟩
    · cases hd
  · cases hd

theorem storeField_built : storeField.AllocasBuilt := by
  rw [allocasBuilt_iff]
  intro r d ty hd hk
  obtain ⟨-, ⟨-, hty, -⟩ | ⟨-, hk'⟩ | ⟨-, hk'⟩ | ⟨-, hk'⟩⟩ := storeField_inst hd
  · exact hty
  all_goals
    rw [hk'] at hk
    cases hk

theorem storeField_fieldAddress {gep : InstRef} {i : Nat}
    (h : storeField.code.FieldAddress ⟨1, 1⟩ gep i) : gep = ⟨1, 2⟩ := by
  obtain ⟨d, ty, first, second, hd, hk, -⟩ := h
  obtain ⟨-, ⟨-, -, hk'⟩ | ⟨hr, -⟩ | ⟨-, hk'⟩ | ⟨-, hk'⟩⟩ := storeField_inst hd
  · rw [hk'] at hk
    cases hk
  · exact hr
  · rw [hk'] at hk
    cases hk
  · rw [hk'] at hk
    cases hk

/-- The address of the second field. -/
theorem storeField_address : storeField.code.FieldAddress ⟨1, 1⟩ ⟨1, 2⟩ 1 :=
  ⟨_, _, _, _, rfl, rfl, ⟨1, _, ⟨0, 32⟩, rfl, rfl, rfl, rfl⟩, ⟨2, _, ⟨1, 32⟩, rfl, rfl, rfl, rfl⟩⟩

theorem splittable_storeField : storeField.code.Splittable ⟨1, 1⟩ [.int 32, .int 32] where
  isAlloca := ⟨_, pair, rfl, rfl, rfl⟩
  uses r d slot hd hslot := by
    obtain ⟨-, ⟨-, -, hk⟩ | ⟨rfl, -⟩ | ⟨-, hk⟩ | ⟨-, hk⟩⟩ := storeField_inst hd
    · simp [hk, InstKind.valueOperands] at hslot
    · exact ⟨1, by decide, storeField_address⟩
    · simp [hk, InstKind.valueOperands] at hslot
    · simp [hk, InstKind.valueOperands] at hslot
  accesses gep i r d slot hgep hd hslot := by
    obtain rfl := storeField_fieldAddress hgep
    obtain ⟨-, ⟨-, -, hk⟩ | ⟨-, hk⟩ | ⟨-, hk⟩ | ⟨-, hk⟩⟩ := storeField_inst hd
    · simp [hk, InstKind.valueOperands] at hslot
    · simp [hk, InstKind.valueOperands] at hslot
    · refine .inr ⟨.const 2, hk, ?_⟩
      simpa [hk, InstKind.valueOperands] using hslot
    · simp [hk, InstKind.valueOperands] at hslot

theorem storeField_access : storeField.code.FieldAccess ⟨1, 1⟩ ⟨1, 3⟩ ⟨1, 1⟩ 1 :=
  ⟨⟨1, 2⟩, storeField_address, _, rfl, rfl, .inr ⟨_, rfl⟩⟩

/-- The store stays at the struct, although the struct could be split. -/
theorem optSroa_storeField : storeField.AllocasBuilt ∧
    ¬∃ m', storeField.optSroa (fun map => map.keys) .byCreation = some m' ∧
      storeField.SroaDone m' := by
  refine ⟨storeField_built, ?_⟩
  rintro ⟨m', hrun, hdone⟩
  obtain rfl := Option.some.inj ((optSroa_of_built _ _ storeField_built).symm.trans hrun)
  exact (hdone.separated _ _ splittable_storeField).1 _ _ _ storeField_access

end ModuleCore

end Ir
