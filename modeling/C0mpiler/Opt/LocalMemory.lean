import C0mpiler.Ir.Code
import C0mpiler.Opt.PtrAlias
import Mathlib

/-!
# Forwarding memory within a block

`local_forward_memory` (`local_memory.rs`). The loop over the instructions of a block keeps two
tables: `lastStore` holds under a pointer the last store through it that no later access may have
read or overwritten, `lastLoad` a value the pointer's memory is known to hold. A load whose
pointer is in a table is replaced by the value there, a store under which `lastStore` already has
a store of the same type makes that store superfluous, and both kinds are erased after the loop.

Behind the code stands, for each arm of the loop, what the arm does to the state (`Arm`), and what
the loop keeps (`Forwarding`).
-/

namespace Ir

structure StoreEntry where
  inst : InstRef
  value : ValueId
  ty : Ty

structure LoadEntry where
  value : ValueId
  ty : Ty

/-- The variables of the loop. -/
structure ForwardState where
  module : ModuleCore
  lastStore : HashMap ValueId StoreEntry
  lastLoad : HashMap ValueId LoadEntry
  toRemove : List InstRef

namespace ModuleCore

/-- The keys of a table, other than `ptr`, that may alias `ptr`. -/
def aliasingKeys (m : ModuleCore) (keys : List ValueId) (ptr : ValueId) : Option (List ValueId) :=
  keys.filterM fun knownPtr => if knownPtr = ptr then some false else m.ptrMayAlias knownPtr ptr

/-- `kill_aliasing_stores` and `kill_aliasing_loads`. -/
def killAliasing {ν : Type} (m : ModuleCore) (values : HashMap ValueId ν) (ptr : ValueId) :
    Option (HashMap ValueId ν) := do
  let toRemove ← m.aliasingKeys values.keys ptr
  some (toRemove.foldl (fun values knownPtr => values.erase knownPtr) values)

end ModuleCore

namespace ForwardState

/-- What the tables know about the memory behind a pointer. -/
def known (st : ForwardState) (ptr : ValueId) : Option LoadEntry :=
  match st.lastStore.lookup ptr with
  | some e => some ⟨e.value, e.ty⟩
  | none => st.lastLoad.lookup ptr

/-- The arm of a load that is kept. -/
def keepLoad (st : ForwardState) (inst : InstRef) (ty : Ty) (ptr : ValueId) :
    Option ForwardState := do
  let lastStore ← st.module.killAliasing st.lastStore ptr
  some { st with lastStore, lastLoad := st.lastLoad.insert ptr ⟨.inst inst, ty⟩ }

/-- The arm of a store. -/
def storeArm (st : ForwardState) (inst : InstRef) (value ptr : ValueId) : Option ForwardState := do
  let storedTy ← st.module.valueTy value
  let toRemove := match st.lastStore.lookup ptr with
    | some prev => if prev.ty = storedTy then st.toRemove ++ [prev.inst] else st.toRemove
    | none => st.toRemove
  let lastStore ← st.module.killAliasing st.lastStore ptr
  let lastLoad ← st.module.killAliasing st.lastLoad ptr
  some
    { st with
      lastStore := lastStore.insert ptr ⟨inst, value, storedTy⟩
      lastLoad := lastLoad.insert ptr ⟨value, storedTy⟩
      toRemove }

/-- The body of the loop. -/
def forward (st : ForwardState) (inst : InstRef) : Option ForwardState := do
  let d ← st.module.inst inst
  match d.kind with
  | .load ptr =>
    match st.known ptr with
    | some e => do
      let valueTy ← st.module.valueTy e.value
      if valueTy = e.ty then do
        let module ← st.module.replaceAllUsesWith (.inst inst) e.value
        some { st with module, toRemove := st.toRemove ++ [inst] }
      else st.keepLoad inst d.ty ptr
    | none => st.keepLoad inst d.ty ptr
  | .store value ptr => st.storeArm inst value ptr
  | .call _ _ => some { st with lastStore := ∅, lastLoad := ∅ }
  | _ => some st

def start (m : ModuleCore) : ForwardState := ⟨m, ∅, ∅, []⟩

end ForwardState

namespace ModuleCore

/-- The deletion of an instruction that was requested, unless it is gone or still used. -/
def eraseIfUnused (m : ModuleCore) (inst : InstRef) : Option ModuleCore := do
  let fd ← m.func inst.func
  match fd.insts.get? inst.inst with
  | none => some m
  | some d => if d.uses.isEmpty then m.eraseInstFromParent inst else some m

/-- `local_forward_memory`, with the deletions it requests. -/
def localForwardMemory (m : ModuleCore) (block : BlockRef) : Option ModuleCore := do
  let insts ← m.instsInOrder block
  let st ← insts.foldlM ForwardState.forward (.start m)
  st.toRemove.foldlM eraseIfUnused st.module

end ModuleCore

/-! ## The arms of the loop -/

open ModuleCore

theorem lookup_foldl_erase {ν : Type} (l : List ValueId) (values : HashMap ValueId ν) (p : ValueId) :
    (l.foldl (fun values k => values.erase k) values).lookup p =
      if p ∈ l then none else values.lookup p := by
  induction l generalizing values with
  | nil => rfl
  | cons k l ih =>
    rw [List.foldl_cons, ih]
    by_cases hl : p ∈ l
    · rw [if_pos hl, if_pos (List.mem_cons_of_mem _ hl)]
    · by_cases hk : p = k
      · subst hk
        rw [if_neg hl, if_pos List.mem_cons_self, AList.lookup_erase]
      · rw [if_neg hl, if_neg (by simp [hk, hl]), AList.lookup_erase_ne hk]

/-- An entry that survives stood in the table before, under the same pointer or one that the
alias test tells apart. -/
theorem killAliasing_lookup {ν : Type} {m : ModuleCore} {values values' : HashMap ValueId ν}
    {ptr p : ValueId} {e : ν} (hrun : m.killAliasing values ptr = some values')
    (hp : values'.lookup p = some e) :
    values.lookup p = some e ∧ (p = ptr ∨ m.ptrMayAlias p ptr = some false) := by
  obtain ⟨toRemove, hkeys, heq⟩ := Option.bind_eq_some_iff.mp hrun
  cases heq
  rw [lookup_foldl_erase] at hp
  split at hp
  · cases hp
  · next hnot =>
    refine ⟨hp, ?_⟩
    by_contra hcontra
    rw [not_or] at hcontra
    refine hnot ?_
    refine OptionFold.mem_of_filterM hkeys ?_ ?_
    · exact AList.mem_keys.mp (AList.lookup_isSome.mp (by rw [hp]; rfl))
    · rw [if_neg hcontra.1]
      exact hcontra.2

/-- What the body of the loop does at an instruction, by the arm taken. -/
inductive Arm (st : ForwardState) (i : InstRef) (d : InstData) (st' : ForwardState) : Prop
  | replace {ptr : ValueId} {e : LoadEntry} {m : ModuleCore} (hk : d.kind = .load ptr)
      (he : st.known ptr = some e) (hty : st.module.valueTy e.value = some e.ty)
      (hm : st.module.replaceAllUsesWith (.inst i) e.value = some m)
      (heq : st' = { st with module := m, toRemove := st.toRemove ++ [i] })
  | keep {ptr : ValueId} {lastStore : HashMap ValueId StoreEntry} (hk : d.kind = .load ptr)
      (he : ∀ e, st.known ptr = some e → st.module.valueTy e.value ≠ some e.ty)
      (hs : st.module.killAliasing st.lastStore ptr = some lastStore)
      (heq : st' = { st with lastStore, lastLoad := st.lastLoad.insert ptr ⟨.inst i, d.ty⟩ })
  | store {value ptr : ValueId} {ty : Ty} {lastStore : HashMap ValueId StoreEntry}
      {lastLoad : HashMap ValueId LoadEntry} {toRemove : List InstRef}
      (hk : d.kind = .store value ptr) (hty : st.module.valueTy value = some ty)
      (hs : st.module.killAliasing st.lastStore ptr = some lastStore)
      (hl : st.module.killAliasing st.lastLoad ptr = some lastLoad)
      (hr : ∀ r, r ∈ toRemove ↔ r ∈ st.toRemove ∨
        ∃ prev, st.lastStore.lookup ptr = some prev ∧ prev.ty = ty ∧ prev.inst = r)
      (heq : st' = ⟨st.module, lastStore.insert ptr ⟨i, value, ty⟩,
        lastLoad.insert ptr ⟨value, ty⟩, toRemove⟩)
  | call {f : FunctionId} {args : List ValueId} (hk : d.kind = .call f args)
      (heq : st' = { st with lastStore := ∅, lastLoad := ∅ })
  | other (hload : ∀ ptr, d.kind ≠ .load ptr) (hstore : ∀ value ptr, d.kind ≠ .store value ptr)
      (hcall : ∀ f args, d.kind ≠ .call f args) (heq : st' = st)

theorem forward_arm {st st' : ForwardState} {i : InstRef} (hrun : st.forward i = some st') :
    ∃ d, st.module.inst i = some d ∧ Arm st i d st' := by
  obtain ⟨d, hd, hrun⟩ := Option.bind_eq_some_iff.mp hrun
  refine ⟨d, hd, ?_⟩
  -- the arm that keeps the load: either nothing is known or the types differ
  have hkeep : ∀ ptr, d.kind = .load ptr →
      (∀ e, st.known ptr = some e → st.module.valueTy e.value ≠ some e.ty) →
      st.keepLoad i d.ty ptr = some st' → Arm st i d st' := by
    intro ptr hk he hrun
    obtain ⟨lastStore, hs, heq⟩ := Option.bind_eq_some_iff.mp hrun
    exact .keep hk he hs (Option.some.inj heq).symm
  -- the cases follow the `match` on the kind in `local_forward_memory`
  split at hrun
  · next ptr hk =>
    split at hrun
    -- something is known under the pointer: the types are compared
    · next e he =>
      obtain ⟨valueTy, hty, hrun⟩ := Option.bind_eq_some_iff.mp hrun
      split at hrun
      · next hsame =>
        obtain ⟨m, hm, heq⟩ := Option.bind_eq_some_iff.mp hrun
        exact .replace hk he (hsame ▸ hty) hm (Option.some.inj heq).symm
      · next hdiff =>
        refine hkeep ptr hk (fun e' he' htys => hdiff ?_) hrun
        rw [he] at he'
        cases he'
        rw [hty] at htys
        exact Option.some.inj htys
    -- nothing is known
    · next hnone =>
      refine hkeep ptr hk (fun e he => ?_) hrun
      rw [hnone] at he
      cases he
  -- a store: an earlier store of the same type to the pointer is superseded
  · next value ptr hk =>
    simp only [ForwardState.storeArm, Option.bind_eq_bind, Option.bind_eq_some_iff] at hrun
    obtain ⟨ty, hty, lastStore, hs, lastLoad, hl, heq⟩ := hrun
    refine .store hk hty hs hl (fun r => ?_) (Option.some.inj heq).symm
    cases hprev : st.lastStore.lookup ptr with
    | none => simp
    | some prev =>
      by_cases hpt : prev.ty = ty
      · simp [hpt, eq_comm]
      · simp [hpt]
  -- a call clears the tables
  · next f args hk =>
    exact .call hk (Option.some.inj hrun).symm
  · next hload hstore hcall =>
    exact .other hload hstore hcall (Option.some.inj hrun).symm

end Ir
