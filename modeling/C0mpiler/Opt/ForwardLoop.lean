import C0mpiler.Opt.LocalMemory
import C0mpiler.Sem.Exec
import Mathlib

/-!
# What the forwarding loop keeps

`Forwarding C l k σ st`: after the first `k` instructions of the block `l`, the module of the loop
is the original code `C` with its operands rewritten by `σ`, a substitution of the replaced loads,
and the tables name accesses among those `k` instructions. There is one lemma for each arm of the
loop; a request to erase an instruction comes from the tables or from the instruction itself
(`mem_toRemove`).
-/

namespace Ir

open ModuleCore

/-! ## Blocks whose definitions come first -/

/-- `v` is no instruction of `l` from position `k` on. -/
def DefinedBefore (l : List InstRef) (k : Nat) (v : ValueId) : Prop :=
  ∀ j r, l[j]? = some r → v = .inst r → j < k

theorem DefinedBefore.mono {l : List InstRef} {k k' : Nat} {v : ValueId} (h : DefinedBefore l k v)
    (hk : k ≤ k') : DefinedBefore l k' v := fun j r hj hv => Nat.lt_of_lt_of_le (h j r hj hv) hk

theorem DefinedBefore.ne {l : List InstRef} {k : Nat} {v : ValueId} {i : InstRef}
    (h : DefinedBefore l k v) (hi : l[k]? = some i) : v ≠ .inst i := fun hv =>
  Nat.lt_irrefl k (h k i hi hv)

/-- An instruction of the block uses no instruction of the block from itself on. -/
def DefsFirst (C : Code) (l : List InstRef) : Prop :=
  ∀ j r d, l[j]? = some r → C.inst r = some d → ∀ op ∈ d.kind.valueOperands,
    DefinedBefore l j op.1

/-- What a well-formed function promises about the instructions of a block. -/
structure BlockReady (C : Code) (l : List InstRef) : Prop where
  nodup : l.Nodup
  placed : ∀ r ∈ l, ∀ d, C.inst r = some d → d.parent.isSome
  defsFirst : DefsFirst C l

theorem mem_take_succ {l : List InstRef} {k : Nat} {i r : InstRef} (hi : l[k]? = some i) :
    r ∈ l.take (k + 1) ↔ r ∈ l.take k ∨ r = i := by
  rw [List.take_add_one, hi, Option.toList_some, List.mem_append, List.mem_singleton]

theorem definedBefore_of_mem_take {l : List InstRef} (hl : l.Nodup) {k : Nat} {r : InstRef}
    (hr : r ∈ l.take k) : DefinedBefore l k (.inst r) := by
  intro j r' hj hv
  cases hv
  obtain ⟨n, hn, hget⟩ := List.mem_take_iff_getElem.mp hr
  have hn' : l[n]? = some r := by rw [List.getElem?_eq_getElem (by omega), hget]
  have : j = n := (List.getElem?_inj (by have := List.getElem?_eq_some_iff.mp hj; exact this.1) hl).mp
    (hj.trans hn'.symm)
  omega

theorem notMem_take {l : List InstRef} (hl : l.Nodup) {k : Nat} {i : InstRef} (hi : l[k]? = some i) :
    i ∉ l.take k := fun h => (definedBefore_of_mem_take hl h).ne hi rfl

/-! ## Accesses -/

/-- The pointer and the type of a load or a store. -/
def Code.accessOf (C : Code) (r : InstRef) : Option (ValueId × Ty) := do
  let d ← C.inst r
  match d.kind with
  | .load ptr => some (ptr, d.ty)
  | .store value ptr => do
    let ty ← C.operandTy value
    some (ptr, ty)
  | _ => none

theorem Code.accessOf_load {C : Code} {r : InstRef} {d : InstData} {ptr : ValueId}
    (hd : C.inst r = some d) (hk : d.kind = .load ptr) : C.accessOf r = some (ptr, d.ty) := by
  simp only [accessOf, hd, hk, Option.bind_eq_bind, Option.bind_some]

theorem Code.accessOf_store {C : Code} {r : InstRef} {d : InstData} {value ptr : ValueId} {ty : Ty}
    (hd : C.inst r = some d) (hk : d.kind = .store value ptr) (hty : C.operandTy value = some ty) :
    C.accessOf r = some (ptr, ty) := by
  simp only [accessOf, hd, hk, hty, Option.bind_eq_bind, Option.bind_some]

/-! ## The condition on one step -/

/-- The number of bytes a store of `v` writes. -/
def Code.storeSize (C : Code) (t : TargetDataLayout) (v : ValueId) : Option Nat :=
  (C.operandTy v).bind (sizeOf t)

/-- When the tables know the memory behind the pointer of an access, the access they know fits:
for a load it has the load's type, and a store that is made superfluous is no longer than the one
that follows it. -/
structure StepAgrees (t : TargetDataLayout) (st : ForwardState) (i : InstRef) : Prop where
  load : ∀ d ptr e, st.module.inst i = some d → d.kind = .load ptr → st.known ptr = some e →
    st.module.valueTy e.value = some e.ty → st.module.code.operandTy e.value = some d.ty
  store : ∀ d value ptr e n n', st.module.inst i = some d → d.kind = .store value ptr →
    st.lastStore.lookup ptr = some e → st.module.valueTy value = some e.ty →
    st.module.code.storeSize t e.value = some n → st.module.code.storeSize t value = some n' → n ≤ n'

/-- `StepAgrees`, computed. -/
def stepAgrees (t : TargetDataLayout) (st : ForwardState) (i : InstRef) : Bool :=
  match st.module.inst i with
  | none => true
  | some d =>
    match d.kind with
    | .load ptr =>
      match st.known ptr with
      | none => true
      | some e => st.module.valueTy e.value ≠ some e.ty ||
          st.module.code.operandTy e.value = some d.ty
    | .store value ptr =>
      match st.lastStore.lookup ptr with
      | none => true
      | some e => st.module.valueTy value ≠ some e.ty ||
          (match st.module.code.storeSize t e.value, st.module.code.storeSize t value with
          | some n, some n' => n ≤ n'
          | _, _ => true)
    | _ => true

theorem stepAgrees_iff {t : TargetDataLayout} {st : ForwardState} {i : InstRef} :
    stepAgrees t st i = true ↔ StepAgrees t st i := by
  constructor
  · intro h
    constructor
    · intro d ptr e hd hk he hty
      simpa [stepAgrees, hd, hk, he, hty] using h
    · intro d value ptr e n n' hd hk he hty hn hn'
      simpa [stepAgrees, hd, hk, he, hty, hn, hn'] using h
  · intro h
    unfold stepAgrees
    split
    · rfl
    · next d hd =>
      split
      · next ptr hk =>
        split
        · rfl
        · next e he =>
          by_cases hty : st.module.valueTy e.value = some e.ty
          · simp [h.load d ptr e hd hk he hty]
          · simp [hty]
      · next value ptr hk =>
        split
        · rfl
        · next e he =>
          by_cases hty : st.module.valueTy value = some e.ty
          · rw [Bool.or_eq_true]
            refine Or.inr ?_
            split
            · next n n' hn hn' =>
              exact decide_eq_true (h.store d value ptr e n n' hd hk he hty hn hn')
            · rfl
          · simp [hty]
      · rfl

instance (t : TargetDataLayout) (st : ForwardState) (i : InstRef) : Decidable (StepAgrees t st i) :=
  decidable_of_iff _ stepAgrees_iff

/-! ## The invariant of the loop -/

/-- An entry of `lastStore` under `p`. -/
structure StoreKnown (C : Code) (l : List InstRef) (k : Nat) (σ : ValueId → ValueId)
    (st : ForwardState) (p : ValueId) (e : StoreEntry) : Prop where
  ptr : DefinedBefore l k p ∧ σ p = p
  value : DefinedBefore l k e.value ∧ σ e.value = e.value
  ty : C.valueTy e.value = some e.ty
  mem : e.inst ∈ l.take k
  kept : e.inst ∉ st.toRemove
  inst : ∃ d, st.module.code.inst e.inst = some d ∧ d.kind = .store e.value p

/-- An entry of `lastLoad` under `p`. -/
structure LoadKnown (C : Code) (l : List InstRef) (k : Nat) (σ : ValueId → ValueId)
    (st : ForwardState) (p : ValueId) (e : LoadEntry) : Prop where
  ptr : DefinedBefore l k p ∧ σ p = p
  value : DefinedBefore l k e.value ∧ σ e.value = e.value
  ty : C.valueTy e.value = some e.ty
  access : ∃ a ∈ l.take k, ∀ ty, C.operandTy e.value = some ty →
    st.module.code.accessOf a = some (p, ty)

structure Forwarding (C : Code) (l : List InstRef) (k : Nat) (σ : ValueId → ValueId)
    (st : ForwardState) : Prop where
  indexed : st.module.Indexed
  code : st.module.code = C.mapOperands σ
  defsFirst : DefsFirst st.module.code l
  fixed : ∀ v, σ (σ v) = σ v
  typed : ∀ v, C.operandTy (σ v) = C.operandTy v
  replaced : ∀ v, σ v ≠ v → DefinedBefore l k (σ v) ∧
    ∃ r, v = .inst r ∧ r ∈ l.take k ∧ ∃ d ptr, C.inst r = some d ∧ d.kind = .load ptr
  stores : ∀ p e, st.lastStore.lookup p = some e → StoreKnown C l k σ st p e
  loads : ∀ p e, st.lastLoad.lookup p = some e → LoadKnown C l k σ st p e
  removed : ∀ r ∈ st.toRemove, r ∈ l.take k ∧
    (σ (.inst r) ≠ .inst r ∨ ∃ d value ptr, C.inst r = some d ∧ d.kind = .store value ptr)

section Loop

variable {C : Code} {l : List InstRef} {k : Nat} {σ : ValueId → ValueId} {st st' : ForwardState}
  {i : InstRef} {d : InstData}

theorem forwarding_start {m : ModuleCore} (hm : m.Indexed) (hl : BlockReady m.code l) :
    Forwarding m.code l 0 id (.start m) where
  indexed := hm
  code := Code.mapOperands_id.symm
  defsFirst := hl.defsFirst
  fixed _ := rfl
  typed _ := rfl
  replaced _ hv := absurd rfl hv
  stores _ _ he := nomatch he
  loads _ _ he := nomatch he
  removed _ hr := absurd hr List.not_mem_nil

/-- An operand of the rewritten code is not one of the replaced loads. -/
theorem Forwarding.operand_fixed (h : Forwarding C l k σ st) {r : InstRef}
    (hd : st.module.code.inst r = some d) (hp : d.parent.isSome) {op : ValueId × OperandSlot}
    (hop : op ∈ d.kind.valueOperands) : σ op.1 = op.1 := by
  rw [h.code] at hd
  obtain ⟨d₀, -, -, hparent, hkind⟩ := Code.inst_of_mapOperands hd
  rw [hkind, if_pos (hparent ▸ hp), InstKind.valueOperands_mapOperands] at hop
  obtain ⟨op₀, -, rfl⟩ := List.mem_map.mp hop
  exact h.fixed op₀.1

/-- The facts about the instruction at position `k`, in the words of the module of the loop. -/
structure AtStep (C : Code) (l : List InstRef) (k : Nat) (σ : ValueId → ValueId)
    (st : ForwardState) (i : InstRef) (d : InstData) : Prop where
  pos : l[k]? = some i
  code : st.module.code.inst i = some d.code
  ty : (C.inst i).map InstData.ty = some d.ty
  operand : ∀ op ∈ d.kind.valueOperands, DefinedBefore l k op.1 ∧ σ op.1 = op.1

theorem Forwarding.atStep (h : Forwarding C l k σ st) (hl : BlockReady C l) (hi : l[k]? = some i)
    (hd : st.module.inst i = some d) : AtStep C l k σ st i d := by
  have hcode := code_inst_of_inst hd
  have hmap := hcode
  rw [h.code] at hmap
  obtain ⟨d₀, hd₀, hty, hparent, -⟩ := Code.inst_of_mapOperands hmap
  have hmem : i ∈ l := List.mem_of_getElem? hi
  have hplaced : d.code.parent.isSome := hparent ▸ hl.placed i hmem d₀ hd₀
  refine ⟨hi, hcode, by rw [hd₀, Option.map_some, ← hty]; rfl, fun op hop => ⟨?_, ?_⟩⟩
  · exact h.defsFirst k i d.code hi hcode op hop
  · exact h.operand_fixed hcode hplaced hop

theorem AtStep.load_ptr (ha : AtStep C l k σ st i d) {ptr : ValueId} (hk : d.kind = .load ptr) :
    DefinedBefore l k ptr ∧ σ ptr = ptr :=
  ha.operand (ptr, .loadPtr) (by rw [hk]; exact List.mem_singleton.mpr rfl)

theorem AtStep.store_ptr (ha : AtStep C l k σ st i d) {value ptr : ValueId}
    (hk : d.kind = .store value ptr) : DefinedBefore l k ptr ∧ σ ptr = ptr :=
  ha.operand (ptr, .storePtr) (by rw [hk]; simp [InstKind.valueOperands])

theorem AtStep.store_value (ha : AtStep C l k σ st i d) {value ptr : ValueId}
    (hk : d.kind = .store value ptr) : DefinedBefore l k value ∧ σ value = value :=
  ha.operand (value, .storeVal) (by rw [hk]; simp [InstKind.valueOperands])

theorem Forwarding.valueTy_eq (h : Forwarding C l k σ st) (v : ValueId) :
    st.module.valueTy v = C.valueTy v := by
  rw [← code_valueTy, h.code, Code.valueTy_mapOperands]

theorem Forwarding.operandTy_eq (h : Forwarding C l k σ st) (v : ValueId) :
    st.module.code.operandTy v = C.operandTy v := by
  rw [h.code, Code.operandTy_mapOperands]

theorem Forwarding.known_of (h : Forwarding C l k σ st) {ptr : ValueId} {e : LoadEntry}
    (he : st.known ptr = some e) :
    (DefinedBefore l k e.value ∧ σ e.value = e.value) ∧ C.valueTy e.value = some e.ty := by
  unfold ForwardState.known at he
  split at he
  · next se hse =>
    cases he
    exact ⟨(h.stores ptr se hse).value, (h.stores ptr se hse).ty⟩
  · exact ⟨(h.loads ptr e he).value, (h.loads ptr e he).ty⟩

/-! ## Later positions -/

theorem StoreKnown.later {p : ValueId} {e : StoreEntry} (h : StoreKnown C l k σ st p e)
    (hm : st'.module = st.module) (hr : e.inst ∉ st'.toRemove) : StoreKnown C l (k + 1) σ st' p e where
  ptr := ⟨h.ptr.1.mono k.le_succ, h.ptr.2⟩
  value := ⟨h.value.1.mono k.le_succ, h.value.2⟩
  ty := h.ty
  mem := (List.take_subset_take_left l k.le_succ) h.mem
  kept := hr
  inst := by rw [hm]; exact h.inst

theorem LoadKnown.later {p : ValueId} {e : LoadEntry} (h : LoadKnown C l k σ st p e)
    (hm : st'.module = st.module) : LoadKnown C l (k + 1) σ st' p e where
  ptr := ⟨h.ptr.1.mono k.le_succ, h.ptr.2⟩
  value := ⟨h.value.1.mono k.le_succ, h.value.2⟩
  ty := h.ty
  access := by
    obtain ⟨a, ha, hty⟩ := h.access
    exact ⟨a, (List.take_subset_take_left l k.le_succ) ha, by rw [hm]; exact hty⟩

/-- An arm that keeps the module keeps the part of the invariant that is not about the tables. -/
theorem Forwarding.sameModule (h : Forwarding C l k σ st) (hm : st'.module = st.module)
    (hstores : ∀ p e, st'.lastStore.lookup p = some e → StoreKnown C l (k + 1) σ st' p e)
    (hloads : ∀ p e, st'.lastLoad.lookup p = some e → LoadKnown C l (k + 1) σ st' p e)
    (hremoved : ∀ r ∈ st'.toRemove, r ∈ st.toRemove ∨ r ∈ l.take (k + 1) ∧
      ∃ d value ptr, C.inst r = some d ∧ d.kind = .store value ptr) :
    Forwarding C l (k + 1) σ st' where
  indexed := hm ▸ h.indexed
  code := hm ▸ h.code
  defsFirst := hm ▸ h.defsFirst
  fixed := h.fixed
  typed := h.typed
  replaced v hv := by
    obtain ⟨hb, r, rfl, hr, hload⟩ := h.replaced v hv
    exact ⟨hb.mono k.le_succ, r, rfl, (List.take_subset_take_left l k.le_succ) hr, hload⟩
  stores := hstores
  loads := hloads
  removed r hr := by
    rcases hremoved r hr with hold | ⟨hmem, hstore⟩
    · obtain ⟨hmem, hcase⟩ := h.removed r hold
      exact ⟨(List.take_subset_take_left l k.le_succ) hmem, hcase⟩
    · exact ⟨hmem, Or.inr hstore⟩

/-! ## The arms -/

/-- The substitution after the load `i` has been replaced by `w`. -/
def replaceLoad (i : InstRef) (w : ValueId) (σ : ValueId → ValueId) : ValueId → ValueId :=
  substValue (.inst i) w ∘ σ

theorem replaceLoad_of_eq {w v : ValueId} (h : σ v = .inst i) : replaceLoad i w σ v = w := by
  rw [replaceLoad, Function.comp, h, substValue, if_pos rfl]

theorem replaceLoad_of_ne {w v : ValueId} (h : σ v ≠ .inst i) : replaceLoad i w σ v = σ v := by
  rw [replaceLoad, Function.comp, substValue, if_neg h]

/-- Replacing the instruction at position `k` leaves the code up to there alone. -/
theorem mapOperands_inst_earlier {C : Code} (hC : DefsFirst C l) (hi : l[k]? = some i) (w : ValueId)
    {r : InstRef} (hr : r ∈ l.take (k + 1)) :
    (C.mapOperands (substValue (.inst i) w)).inst r = C.inst r := by
  refine Code.mapOperands_inst_of_fixed fun d hd op hop => ?_
  obtain ⟨j, hj, hget⟩ := List.mem_take_iff_getElem.mp hr
  have hjr : l[j]? = some r := by rw [List.getElem?_eq_getElem (by omega), hget]
  have hne : op.1 ≠ .inst i := fun heq => by
    have := hC j r d hjr hd op hop k i hi heq
    omega
  rw [substValue, if_neg hne]

theorem defsFirst_replace {C : Code} (hC : DefsFirst C l) (hi : l[k]? = some i) {w : ValueId}
    (hw : DefinedBefore l k w) : DefsFirst (C.mapOperands (substValue (.inst i) w)) l := by
  intro j r d' hj hd' op hop
  obtain ⟨d, hd, -, -, hkind⟩ := Code.inst_of_mapOperands hd'
  rw [hkind] at hop
  split at hop
  · rw [InstKind.valueOperands_mapOperands] at hop
    obtain ⟨op₀, hop₀, rfl⟩ := List.mem_map.mp hop
    have hbefore := hC j r d hj hd op₀ hop₀
    show DefinedBefore l j (substValue (.inst i) w op₀.1)
    unfold substValue
    split
    · next heq => exact hw.mono (Nat.le_of_lt (hbefore k i hi heq))
    · exact hbefore
  · exact hC j r d hj hd op hop

theorem accessOf_congr {C C' : Code} {r : InstRef} (hinst : C'.inst r = C.inst r)
    (hty : C'.operandTy = C.operandTy) : C'.accessOf r = C.accessOf r := by
  unfold Code.accessOf
  rw [hinst, hty]

theorem Forwarding.replace (h : Forwarding C l k σ st) (hl : BlockReady C l)
    (ha : AtStep C l k σ st i d) {e : LoadEntry} {ptr : ValueId} (hk : d.kind = .load ptr)
    (he : st.known ptr = some e) (hty : st.module.code.operandTy e.value = some d.ty) {m : ModuleCore}
    (hm : st.module.replaceAllUsesWith (.inst i) e.value = some m) :
    Forwarding C l (k + 1) (replaceLoad i e.value σ)
      { st with module := m, toRemove := st.toRemove ++ [i] } := by
  obtain ⟨⟨hbefore, hfix⟩, -⟩ := h.known_of he
  have hne : e.value ≠ .inst i := hbefore.ne ha.pos
  have hcode := replaceAllUsesWith_code h.indexed hm
  -- users of the load stand behind it, so what comes before is left as it is
  have hearlier : ∀ r ∈ l.take (k + 1), m.code.inst r = st.module.code.inst r := by
    rw [hcode]
    exact fun r => mapOperands_inst_earlier h.defsFirst ha.pos e.value
  have hkeep : ∀ v, DefinedBefore l k v ∧ σ v = v →
      DefinedBefore l (k + 1) v ∧ replaceLoad i e.value σ v = v := by
    rintro v ⟨hv, hσ⟩
    refine ⟨hv.mono k.le_succ, (replaceLoad_of_ne ?_).trans hσ⟩
    rw [hσ]
    exact hv.ne ha.pos
  have hsub : ∀ r ∈ l.take k, r ∈ l.take (k + 1) := fun r hr =>
    (List.take_subset_take_left l k.le_succ) hr
  have hi : i ∉ l.take k := notMem_take hl.nodup ha.pos
  have hself : σ (.inst i) = .inst i := by
    by_contra hcontra
    obtain ⟨-, r, heq, hr, -⟩ := h.replaced _ hcontra
    cases heq
    exact hi hr
  constructor
  -- the use lists stay indexed
  · exact replaceAllUsesWith_indexed h.indexed hm
  -- the substitution of the code composes with the earlier ones
  · show m.code = _
    rw [hcode, h.code, Code.mapOperands_mapOperands]
    rfl
  -- definitions still stand before their uses
  · show DefsFirst m.code l
    rw [hcode]
    exact defsFirst_replace h.defsFirst ha.pos hbefore
  -- `replaceLoad` is idempotent
  · intro v
    by_cases hv : σ v = .inst i
    · rw [replaceLoad_of_eq hv]
      exact (hkeep _ ⟨hbefore, hfix⟩).2
    · rw [replaceLoad_of_ne hv, replaceLoad_of_ne (by rwa [h.fixed]), h.fixed]
  -- and keeps the types
  · intro v
    by_cases hv : σ v = .inst i
    · have hdty : C.operandTy (.inst i) = some d.ty := ha.ty
      rw [replaceLoad_of_eq hv, ← h.operandTy_eq, hty, ← h.typed v, hv, hdty]
    · rw [replaceLoad_of_ne hv, h.typed]
  -- every value it moves is a load of the block
  · intro v hv
    by_cases hvi : σ v = .inst i
    · rw [replaceLoad_of_eq hvi]
      refine ⟨hbefore.mono k.le_succ, ?_⟩
      by_cases hfixv : σ v = v
      · refine ⟨i, hfixv.symm.trans hvi, (mem_take_succ ha.pos).mpr (Or.inr rfl), ?_⟩
        have hcodei := ha.code
        rw [h.code] at hcodei
        obtain ⟨d₀, hd₀, -, -, hkind⟩ := Code.inst_of_mapOperands hcodei
        replace hkind : InstKind.load ptr = _ := hk.symm.trans hkind
        split at hkind
        · obtain ⟨ptr', hk₀⟩ := InstKind.eq_load_of_mapOperands hkind.symm
          exact ⟨d₀, ptr', hd₀, hk₀⟩
        · exact ⟨d₀, ptr, hd₀, hkind.symm⟩
      · obtain ⟨-, r, hr, hmem, hload⟩ := h.replaced v hfixv
        exact ⟨r, hr, hsub r hmem, hload⟩
    · rw [replaceLoad_of_ne hvi] at hv ⊢
      obtain ⟨hb, r, hr, hmem, hload⟩ := h.replaced v hv
      exact ⟨hb.mono k.le_succ, r, hr, hsub r hmem, hload⟩
  -- the entries of the two tables are values the substitution fixes
  · intro p se hse
    have hk := h.stores p se hse
    refine ⟨hkeep p hk.ptr, hkeep _ hk.value, hk.ty, hsub _ hk.mem, ?_, ?_⟩
    · rw [List.mem_append, List.mem_singleton, not_or]
      exact ⟨hk.kept, fun heq => hi (heq ▸ hk.mem)⟩
    · obtain ⟨ds, hds, hkind⟩ := hk.inst
      exact ⟨ds, (hearlier _ (hsub _ hk.mem)).trans hds, hkind⟩
  · intro p le hle
    have hk := h.loads p le hle
    refine ⟨hkeep p hk.ptr, hkeep _ hk.value, hk.ty, ?_⟩
    obtain ⟨a, hmem, hacc⟩ := hk.access
    refine ⟨a, hsub a hmem, fun ty hty => ?_⟩
    rw [← hacc ty hty]
    refine accessOf_congr (hearlier a (hsub a hmem)) ?_
    show m.code.operandTy = _
    rw [hcode, Code.operandTy_mapOperands]
  -- the requested deletions are loads it moves or stores that were superseded
  · intro r hr
    rcases List.mem_append.mp hr with hr | hr
    · obtain ⟨hmem, hcase⟩ := h.removed r hr
      refine ⟨hsub r hmem, hcase.imp_left fun hσ heq => ?_⟩
      by_cases hri : σ (.inst r) = .inst i
      · rw [replaceLoad_of_eq hri] at heq
        rw [← heq, hfix] at hσ
        exact hσ rfl
      · rw [replaceLoad_of_ne hri] at heq
        exact hσ heq
    · rw [List.mem_singleton] at hr
      subst hr
      refine ⟨(mem_take_succ ha.pos).mpr (Or.inr rfl), Or.inl ?_⟩
      rw [replaceLoad_of_eq hself]
      exact hne

theorem Forwarding.keep (h : Forwarding C l k σ st) (hl : BlockReady C l)
    (ha : AtStep C l k σ st i d) {ptr : ValueId} (hk : d.kind = .load ptr)
    {lastStore : HashMap ValueId StoreEntry}
    (hs : st.module.killAliasing st.lastStore ptr = some lastStore) :
    Forwarding C l (k + 1) σ
      { st with lastStore, lastLoad := st.lastLoad.insert ptr ⟨.inst i, d.ty⟩ } := by
  refine h.sameModule rfl (fun p e he => ?_) (fun p e he => ?_) fun r hr => Or.inl hr
  · have hold := h.stores p e (killAliasing_lookup hs he).1
    exact hold.later rfl hold.kept
  · rw [HashMap.lookup_insert_ite] at he
    split at he
    · next hp =>
      cases he
      subst hp
      have hp := ha.load_ptr hk
      have hdty : C.operandTy (.inst i) = some d.ty := ha.ty
      have hmem : i ∈ l.take (k + 1) := (mem_take_succ ha.pos).mpr (Or.inr rfl)
      refine ⟨⟨hp.1.mono k.le_succ, hp.2⟩, ⟨definedBefore_of_mem_take hl.nodup hmem, ?_⟩, hdty,
        i, hmem, fun ty hty => ?_⟩
      · by_contra hcontra
        obtain ⟨-, r, heq, hr, -⟩ := h.replaced _ hcontra
        cases heq
        exact notMem_take hl.nodup ha.pos hr
      · rw [hdty] at hty
        cases hty
        have hacc := Code.accessOf_load ha.code (show d.code.kind = .load p from hk)
        exact hacc
    · exact (h.loads p e he).later rfl

theorem Forwarding.store (h : Forwarding C l k σ st) (hl : BlockReady C l)
    (ha : AtStep C l k σ st i d) {value ptr : ValueId} {ty : Ty} (hk : d.kind = .store value ptr)
    (hty : st.module.valueTy value = some ty) {lastStore : HashMap ValueId StoreEntry}
    {lastLoad : HashMap ValueId LoadEntry} {toRemove : List InstRef}
    (hs : st.module.killAliasing st.lastStore ptr = some lastStore)
    (hload : st.module.killAliasing st.lastLoad ptr = some lastLoad)
    (hr : ∀ r, r ∈ toRemove ↔ r ∈ st.toRemove ∨
      ∃ prev, st.lastStore.lookup ptr = some prev ∧ prev.ty = ty ∧ prev.inst = r) :
    Forwarding C l (k + 1) σ ⟨st.module, lastStore.insert ptr ⟨i, value, ty⟩,
      lastLoad.insert ptr ⟨value, ty⟩, toRemove⟩ := by
  have hp := ha.store_ptr hk
  have hv := ha.store_value hk
  have hmem : i ∈ l.take (k + 1) := (mem_take_succ ha.pos).mpr (Or.inr rfl)
  have hi : i ∉ l.take k := notMem_take hl.nodup ha.pos
  rw [h.valueTy_eq] at hty
  have hstore : ∀ r, r ∈ toRemove → r ∈ st.toRemove ∨
      ∃ prev, st.lastStore.lookup ptr = some prev ∧ prev.inst = r := fun r hmem =>
    ((hr r).mp hmem).imp_right fun ⟨prev, hprev, _, heq⟩ => ⟨prev, hprev, heq⟩
  refine h.sameModule rfl (fun p e he => ?_)
    (fun p e he => ?_) fun r hmem => ?_
  -- the new entry of the table of stores, or an old one the alias test kept
  · replace he : (lastStore.insert ptr ⟨i, value, ty⟩).lookup p = some e := he
    rw [HashMap.lookup_insert_ite] at he
    split at he
    · next heq =>
      cases he
      subst heq
      refine ⟨⟨hp.1.mono k.le_succ, hp.2⟩, ⟨hv.1.mono k.le_succ, hv.2⟩, hty, hmem, fun hin => ?_,
        d.code, ha.code, hk⟩
      -- what is marked already stands before this store
      rcases hstore i hin with hold | ⟨prev, hprev, heq⟩
      · exact hi (h.removed i hold).1
      · exact hi (heq ▸ (h.stores _ prev hprev).mem)
    · next hne =>
      have hold := h.stores p e (killAliasing_lookup hs he).1
      refine hold.later rfl fun hin => ?_
      rcases hstore e.inst hin with hrem | ⟨prev, hprev, heq⟩
      · exact hold.kept hrem
      · -- the two entries are one store, so they stand under one pointer
        obtain ⟨d₁, hd₁, hk₁⟩ := hold.inst
        obtain ⟨d₂, hd₂, hk₂⟩ := (h.stores ptr prev hprev).inst
        rw [heq, hd₁] at hd₂
        cases hd₂
        exact hne (InstKind.store.inj (hk₁.symm.trans hk₂)).2
  -- the store is also what a load of the pointer now reads
  · replace he : (lastLoad.insert ptr ⟨value, ty⟩).lookup p = some e := he
    rw [HashMap.lookup_insert_ite] at he
    split at he
    · next heq =>
      cases he
      subst heq
      refine ⟨⟨hp.1.mono k.le_succ, hp.2⟩, ⟨hv.1.mono k.le_succ, hv.2⟩, hty, i, hmem,
        fun ty' hty' => ?_⟩
      refine Code.accessOf_store ha.code (show d.code.kind = .store value p from hk) ?_
      rw [h.operandTy_eq]
      exact hty'
    · exact (h.loads p e (killAliasing_lookup hload he).1).later rfl
  -- only a store to the same pointer is marked
  · rcases hstore r hmem with hold | ⟨prev, hprev, heq⟩
    · exact Or.inl hold
    · refine Or.inr ?_
      have hknown := h.stores ptr prev hprev
      obtain ⟨d₁, hd₁, hk₁⟩ := hknown.inst
      rw [h.code] at hd₁
      obtain ⟨d₀, hd₀, -, -, hkind⟩ := Code.inst_of_mapOperands hd₁
      subst heq
      refine ⟨(List.take_subset_take_left l k.le_succ) hknown.mem, d₀, ?_⟩
      rw [hk₁] at hkind
      split at hkind
      · obtain ⟨value', ptr', hk₀⟩ := InstKind.eq_store_of_mapOperands hkind.symm
        exact ⟨value', ptr', hd₀, hk₀⟩
      · exact ⟨_, _, hd₀, hkind.symm⟩

theorem Forwarding.call (h : Forwarding C l k σ st) :
    Forwarding C l (k + 1) σ { st with lastStore := ∅, lastLoad := ∅ } :=
  h.sameModule rfl (fun _ _ he => nomatch he) (fun _ _ he => nomatch he)
    fun _ hr => Or.inl hr

theorem Forwarding.other (h : Forwarding C l k σ st) : Forwarding C l (k + 1) σ st :=
  h.sameModule rfl (fun p e he => (h.stores p e he).later rfl (h.stores p e he).kept)
    (fun p e he => (h.loads p e he).later rfl) fun _ hr => Or.inl hr

/-! ## The loop -/

/-- What an arm adds to the requests and to the table of stores. -/
theorem Arm.requests (h : Arm st i d st') :
    (∀ r ∈ st.toRemove, r ∈ st'.toRemove) ∧
    (∀ r ∈ st'.toRemove, r ∈ st.toRemove ∨
      (∃ p e, st.lastStore.lookup p = some e ∧ e.inst = r) ∨ r = i) ∧
    ∀ p e, st'.lastStore.lookup p = some e → st.lastStore.lookup p = some e ∨ e.inst = i := by
  cases h with
  | replace hk he hty hm heq =>
    subst heq
    -- the arm marks the load itself
    refine ⟨fun r hr => List.mem_append_left _ hr, fun r hr => ?_, fun p e he => Or.inl he⟩
    rcases List.mem_append.mp hr with hr | hr
    · exact Or.inl hr
    · exact Or.inr (Or.inr (List.mem_singleton.mp hr))
  | keep hk he hs heq =>
    subst heq
    exact ⟨fun _ hr => hr, fun _ hr => Or.inl hr, fun p e he => Or.inl (killAliasing_lookup hs he).1⟩
  | @store value ptr ty lastStore lastLoad toRemove hk hty hs hl hr heq =>
    subst heq
    -- the arm marks the store it supersedes
    refine ⟨fun r hmem => (hr r).mpr (Or.inl hmem), fun r hmem => ?_, fun p e he => ?_⟩
    · rcases (hr r).mp hmem with hold | ⟨prev, hprev, -, hinst⟩
      · exact Or.inl hold
      · exact Or.inr (Or.inl ⟨ptr, prev, hprev, hinst⟩)
    · replace he : (lastStore.insert ptr ⟨i, value, ty⟩).lookup p = some e := he
      rw [HashMap.lookup_insert_ite] at he
      split at he
      · cases he
        exact Or.inr rfl
      · exact Or.inl (killAliasing_lookup hs he).1
  | call hk heq =>
    subst heq
    exact ⟨fun _ hr => hr, fun _ hr => Or.inl hr, fun p e he => nomatch he⟩
  | other hload hstore hcall heq =>
    subst heq
    exact ⟨fun _ hr => hr, fun _ hr => Or.inl hr, fun p e he => Or.inl he⟩

/-- A request comes from before, from the table of stores or from an instruction of the loop. -/
theorem mem_toRemove {rest : List InstRef} (hrun : rest.foldlM ForwardState.forward st = some st') :
    (∀ r ∈ st.toRemove, r ∈ st'.toRemove) ∧
    ∀ r ∈ st'.toRemove, r ∈ st.toRemove ∨
      (∃ p e, st.lastStore.lookup p = some e ∧ e.inst = r) ∨ r ∈ rest := by
  induction rest generalizing st with
  | nil => cases hrun; exact ⟨fun _ hr => hr, fun _ hr => Or.inl hr⟩
  | cons i rest ih =>
    obtain ⟨st₁, hstep, hrest⟩ := OptionFold.cons_eq_some.mp hrun
    obtain ⟨d, -, harm⟩ := forward_arm hstep
    obtain ⟨hsub, hnew, hstores⟩ := harm.requests
    obtain ⟨hsub', hnew'⟩ := ih hrest
    refine ⟨fun r hr => hsub' r (hsub r hr), fun r hr => ?_⟩
    rcases hnew' r hr with hr | ⟨p, e, he, hinst⟩ | hr
    · rcases hnew r hr with hr | hr | hr
      · exact Or.inl hr
      · exact Or.inr (Or.inl hr)
      · exact Or.inr (Or.inr (hr ▸ List.mem_cons_self))
    · rcases hstores p e he with he | hi
      · exact Or.inr (Or.inl ⟨p, e, he, hinst⟩)
      · exact Or.inr (Or.inr (hinst ▸ hi ▸ List.mem_cons_self))
    · exact Or.inr (Or.inr (List.mem_cons_of_mem _ hr))

/-- An arm leaves the code up to its instruction alone. -/
theorem Arm.inst_earlier (h : Arm st i d st') (hfw : Forwarding C l k σ st) (hi : l[k]? = some i)
    {r : InstRef} (hr : r ∈ l.take (k + 1)) : st'.module.code.inst r = st.module.code.inst r := by
  cases h with
  | @replace ptr e m hk he hty hm heq =>
    subst heq
    show m.code.inst r = st.module.code.inst r
    rw [replaceAllUsesWith_code hfw.indexed hm]
    exact mapOperands_inst_earlier hfw.defsFirst hi _ hr
  | keep hk he hs heq => rw [heq]
  | store hk hty hs hl hr heq => rw [heq]
  | call hk heq => rw [heq]
  | other hload hstore hcall heq => rw [heq]

end Loop

/-- The state of the loop before the instruction at position `k`. -/
def Reached (m : ModuleCore) (l : List InstRef) (k : Nat) (st : ForwardState) : Prop :=
  (l.take k).foldlM ForwardState.forward (.start m) = some st

theorem Reached.succ {m : ModuleCore} {l : List InstRef} {k : Nat} {i : InstRef}
    {st st' : ForwardState} (h : Reached m l k st) (hi : l[k]? = some i)
    (hstep : st.forward i = some st') : Reached m l (k + 1) st' := by
  unfold Reached
  rw [List.take_add_one, hi, Option.toList_some]
  refine OptionFold.append_eq_some.mpr ⟨st, h, ?_⟩
  exact OptionFold.cons_eq_some.mpr ⟨st', hstep, rfl⟩

/-- The condition under which the pass is right: at every access of the block, what the tables
know fits. -/
def TypesAgree (t : TargetDataLayout) (m : ModuleCore) (l : List InstRef) : Prop :=
  ∀ k i st, Reached m l k st → l[k]? = some i → StepAgrees t st i

/-- `TypesAgree`, computed by running the loop. -/
def typesAgreeFrom (t : TargetDataLayout) (st : ForwardState) : List InstRef → Bool
  | [] => true
  | i :: rest => stepAgrees t st i &&
      match st.forward i with
      | some st' => typesAgreeFrom t st' rest
      | none => true

theorem typesAgreeFrom_iff {t : TargetDataLayout} {st₀ : ForwardState} {l : List InstRef} :
    typesAgreeFrom t st₀ l = true ↔ ∀ k i st, (l.take k).foldlM ForwardState.forward st₀ = some st →
      l[k]? = some i → StepAgrees t st i := by
  induction l generalizing st₀ with
  | nil => simp [typesAgreeFrom]
  | cons i rest ih =>
    rw [typesAgreeFrom, Bool.and_eq_true, stepAgrees_iff]
    constructor
    · rintro ⟨hhere, hrest⟩ k j st hfold hj
      cases k with
      | zero =>
        cases hfold
        cases hj
        exact hhere
      | succ k =>
        obtain ⟨st₁, hstep, hfold⟩ := OptionFold.cons_eq_some.mp hfold
        rw [hstep] at hrest
        exact ih.mp hrest k j st hfold hj
    · intro h
      refine ⟨h 0 i st₀ rfl rfl, ?_⟩
      split
      · next st₁ hstep =>
        exact ih.mpr fun k j st hfold hj =>
          h (k + 1) j st (OptionFold.cons_eq_some.mpr ⟨st₁, hstep, hfold⟩) hj
      · rfl

instance (t : TargetDataLayout) (m : ModuleCore) (l : List InstRef) : Decidable (TypesAgree t m l) :=
  decidable_of_iff _ typesAgreeFrom_iff

/-- `DefsFirst`, over the positions of the block. -/
theorem defsFirst_iff {C : Code} {l : List InstRef} : DefsFirst C l ↔
    ∀ j : Fin l.length, ∀ op ∈ ((C.inst l[j]).map fun d => d.kind.valueOperands).getD [],
      ∀ j' : Fin l.length, op.1 = .inst l[j'] → j' < j := by
  constructor
  · intro h j op hop j' hv
    cases hd : C.inst l[j] with
    | none =>
      rw [hd] at hop
      exact absurd hop List.not_mem_nil
    | some d =>
      rw [hd] at hop
      exact h j l[j] d (List.getElem?_eq_getElem j.isLt) hd op hop j' l[j']
        (List.getElem?_eq_getElem j'.isLt) hv
  · intro h j r d hj hd op hop j' r' hj' hv
    obtain ⟨hlt, rfl⟩ := List.getElem?_eq_some_iff.mp hj
    obtain ⟨hlt', rfl⟩ := List.getElem?_eq_some_iff.mp hj'
    exact h ⟨j, hlt⟩ op (by rw [Fin.getElem_fin, hd]; exact hop) ⟨j', hlt'⟩ hv

instance (C : Code) (l : List InstRef) : Decidable (DefsFirst C l) :=
  decidable_of_iff _ defsFirst_iff.symm

end Ir
