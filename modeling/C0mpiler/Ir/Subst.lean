import C0mpiler.Ir.Operand
import Mathlib

/-!
# Substituting operands

`mapOperands f` rewrites every value operand of an instruction, `mapBlocks f` every block
operand. An instruction is determined by its operands and by what is left when they are blanked
out (`shape`, `blockShape`), and replacing the operand of one slot keeps the rest. So a sequence
of replacements is read off its effect on the operand lists alone.
-/

namespace HashMap

variable {κ ν : Type}

/-- Rewrite every value of a map. -/
def mapVal (g : ν → ν) (m : HashMap κ ν) : HashMap κ ν where
  entries := m.entries.map fun e => ⟨e.1, g e.2⟩
  nodupKeys := by
    have hkeys : (m.entries.map fun e => (⟨e.1, g e.2⟩ : Sigma fun _ : κ => ν)).keys =
        m.entries.keys := by
      rw [List.keys, List.map_map]
      rfl
    rw [List.NodupKeys, hkeys]
    exact m.nodupKeys

@[simp] theorem mapVal_entries (g : ν → ν) (m : HashMap κ ν) :
    (mapVal g m).entries = m.entries.map fun e => ⟨e.1, g e.2⟩ := rfl

/-- What is found in a map whose values have been replaced. -/
theorem lookup_mapVal [DecidableEq κ] (g : ν → ν) (m : HashMap κ ν) (k : κ) :
    (mapVal g m).lookup k = (m.lookup k).map g := by
  ext v
  rw [← Option.mem_def, AList.mem_lookup_iff, mapVal_entries, List.mem_map, Option.map_eq_some_iff]
  constructor
  · rintro ⟨⟨k', w⟩, hmem, heq⟩
    cases heq
    exact ⟨w, AList.mem_lookup_iff.mpr hmem, rfl⟩
  · rintro ⟨w, hw, rfl⟩
    exact ⟨⟨k, w⟩, AList.mem_lookup_iff.mp hw, rfl⟩

/-- A map is determined by two views of its values that together determine a value. -/
theorem ext_of_map {α β : Type} {m m' : HashMap κ ν} (f : κ → ν → α) (g : κ → ν → β)
    (hinj : ∀ a b a' b', f a b = f a' b' → g a b = g a' b' → a = a' ∧ b = b')
    (hf : m.entries.map (fun e => f e.1 e.2) = m'.entries.map fun e => f e.1 e.2)
    (hg : m.entries.map (fun e => g e.1 e.2) = m'.entries.map fun e => g e.1 e.2) : m = m' := by
  refine AList.ext (List.ext_getElem? fun i => ?_)
  have hfi := congrArg (·[i]?) hf
  have hgi := congrArg (·[i]?) hg
  simp only [List.getElem?_map] at hfi hgi
  cases hm : m.entries[i]? with
  | none =>
    rw [hm, Option.map_none] at hfi
    exact (Option.map_eq_none_iff.mp hfi.symm).symm
  | some e =>
    rw [hm, Option.map_some] at hfi hgi
    obtain ⟨e', he', hf'⟩ := Option.map_eq_some_iff.mp hfi.symm
    rw [he', Option.map_some] at hgi
    obtain ⟨hkey, hval⟩ := hinj _ _ _ _ hf' (Option.some.inj hgi).symm
    rw [he']
    exact congrArg some (Sigma.ext hkey.symm (heq_of_eq hval.symm))

end HashMap

namespace Ir

namespace InstKind

/-- Rewrite every value operand. -/
def mapOperands (f : ValueId → ValueId) : InstKind → InstKind
  | binary op lhs rhs => binary op (f lhs) (f rhs)
  | call func args => call func (args.map f)
  | branch thenBlock cond => branch thenBlock (cond.map fun c => { c with cond := f c.cond })
  | getElementPtr baseTy base indices => getElementPtr baseTy (f base) (indices.map f)
  | alloca ty => alloca ty
  | load ptr => load (f ptr)
  | ret value => ret (value.map f)
  | store value ptr => store (f value) (f ptr)
  | icmp op lhs rhs => icmp op (f lhs) (f rhs)
  | phi incomings idx => phi (incomings.mapVal fun p => { p with value := f p.value }) idx
  | select cond thenVal elseVal => select (f cond) (f thenVal) (f elseVal)
  | ptrToInt ptr => ptrToInt (f ptr)
  | trunc value => trunc (f value)
  | zext value => zext (f value)
  | sext value => sext (f value)
  | unreachable => unreachable

/-- Rewrite every block operand. -/
def mapBlocks (f : BlockId → BlockId) : InstKind → InstKind
  | branch thenBlock cond =>
      branch (f thenBlock) (cond.map fun c => { c with elseBlock := f c.elseBlock })
  | phi incomings idx => phi (incomings.mapVal fun p => { p with block := f p.block }) idx
  | k => k

/-- The instruction without its value operands. -/
def shape (k : InstKind) : InstKind := k.mapOperands fun _ => .const 0

/-- The instruction without its block operands. -/
def blockShape (k : InstKind) : InstKind := k.mapBlocks fun _ => 0

section Lists

variable {ν σ : Type}

/-- Replacing the values of a list of operands replaces the operands and keeps the slots. -/
theorem zipIdx_map_fst (l : List ν) (f : Nat → σ) (g : ν → ν) :
    ((l.map g).zipIdx.map fun a => (a.1, f a.2)) =
      (l.zipIdx.map fun a => (a.1, f a.2)).map (Prod.map g id) := by
  rw [List.zipIdx_map, List.map_map, List.map_map]
  rfl

/-- A list is determined by its numbered elements. -/
theorem eq_of_zipIdx {l l' : List ν} (f : Nat → σ)
    (h : (l.zipIdx.map fun a => (a.1, f a.2)) = l'.zipIdx.map fun a => (a.1, f a.2)) : l = l' := by
  have h' := congrArg (List.map Prod.fst) h
  simpa [List.map_map, Function.comp_def] using h'

end Lists

/-- The operands of an instruction whose operands have been replaced. -/
@[simp] theorem valueOperands_mapOperands (f : ValueId → ValueId) (k : InstKind) :
    (k.mapOperands f).valueOperands = k.valueOperands.map (Prod.map f id) := by
  cases k with
  | call func args => exact zipIdx_map_fst args _ f
  | getElementPtr baseTy base indices =>
    simp only [mapOperands, valueOperands, zipIdx_map_fst indices _ f, List.map_cons]
    rfl
  | phi incomings idx =>
    simp only [mapOperands, valueOperands, HashMap.mapVal_entries, List.map_map]
    rfl
  | branch thenBlock cond => cases cond <;> rfl
  | ret value => cases value <;> rfl
  | _ => rfl

@[simp] theorem blockOperands_mapOperands (f : ValueId → ValueId) (k : InstKind) :
    (k.mapOperands f).blockOperands = k.blockOperands := by
  cases k with
  | phi incomings idx =>
    simp only [mapOperands, blockOperands, HashMap.mapVal_entries, List.map_map]
    rfl
  | branch thenBlock cond => cases cond <;> rfl
  | _ => rfl

@[simp] theorem valueOperands_mapBlocks (f : BlockId → BlockId) (k : InstKind) :
    (k.mapBlocks f).valueOperands = k.valueOperands := by
  cases k with
  | phi incomings idx =>
    simp only [mapBlocks, valueOperands, HashMap.mapVal_entries, List.map_map]
    rfl
  | branch thenBlock cond => cases cond <;> rfl
  | _ => rfl

@[simp] theorem blockOperands_mapBlocks (f : BlockId → BlockId) (k : InstKind) :
    (k.mapBlocks f).blockOperands = k.blockOperands.map (Prod.map f id) := by
  cases k with
  | phi incomings idx =>
    simp only [mapBlocks, blockOperands, HashMap.mapVal_entries, List.map_map]
    rfl
  | branch thenBlock cond => cases cond <;> rfl
  | _ => rfl

@[simp] theorem isPhi_mapOperands (f : ValueId → ValueId) (k : InstKind) :
    (k.mapOperands f).isPhi = k.isPhi := by
  cases k <;> rfl

@[simp] theorem isTerminator_mapOperands (f : ValueId → ValueId) (k : InstKind) :
    (k.mapOperands f).isTerminator = k.isTerminator := by
  cases k <;> rfl

/-- Two replacements one after the other are one. -/
theorem mapOperands_comp (f g : ValueId → ValueId) (k : InstKind) :
    (k.mapOperands g).mapOperands f = k.mapOperands (f ∘ g) := by
  cases k with
  | phi incomings idx =>
    simp only [mapOperands, InstKind.phi.injEq, and_true]
    refine AList.ext ?_
    simp [List.map_map, Function.comp_def]
  | branch thenBlock cond => cases cond <;> rfl
  | ret value => cases value <;> rfl
  | _ => simp [mapOperands]

/-- Replacing operands keeps what is not an operand. -/
theorem shape_mapOperands (f : ValueId → ValueId) (k : InstKind) :
    (k.mapOperands f).shape = k.shape := by
  rw [shape, mapOperands_comp]
  rfl

/-- An instruction is determined by its shape and its value operands. -/
theorem ext_shape {k k' : InstKind} (hshape : k.shape = k'.shape)
    (hops : k.valueOperands = k'.valueOperands) : k = k' := by
  cases k <;> cases k' <;>
    simp only [shape, mapOperands, reduceCtorEq, binary.injEq, call.injEq, branch.injEq,
      getElementPtr.injEq, alloca.injEq, ret.injEq, icmp.injEq, phi.injEq] at hshape
  -- the operands of a call are a list, so lists with the same slots have to be the same
  case call.call func args func' args' =>
    rw [hshape.1, eq_of_zipIdx _ hops]
  case getElementPtr.getElementPtr ty base indices ty' base' indices' =>
    simp only [valueOperands, List.cons.injEq, Prod.mk.injEq, and_true] at hops
    rw [hshape.1, hops.1, eq_of_zipIdx _ hops.2]
  -- the incomings of a phi are a map: its keys are in the shape, its values in the operands
  case phi.phi incomings idx incomings' idx' =>
    have hblocks := congrArg AList.entries hshape.1
    simp only [HashMap.mapVal_entries] at hblocks
    have heq : incomings = incomings' :=
      HashMap.ext_of_map (fun i p => (⟨i, { p with value := .const 0 }⟩ : Sigma fun _ : Nat => PhiIncoming))
        (fun i p => (p.value, OperandSlot.phiIncomingVal i))
        (fun i p i' p' h h' => by cases p; cases p'; cases h; cases h'; exact ⟨rfl, rfl⟩)
        hblocks hops
    rw [heq, hshape.2]
  case branch.branch b c b' c' =>
    obtain ⟨rfl, hc⟩ := hshape
    cases c with
    | none => cases c' <;> simp_all
    | some c =>
      cases c' with
      | none => simp at hc
      | some c' =>
        cases c; cases c'
        simp_all [valueOperands]
  case ret.ret v v' =>
    cases v <;> cases v' <;> simp_all [valueOperands]
  all_goals
    simp only [valueOperands, List.cons.injEq, Prod.mk.injEq, and_true] at hops
    simp_all

/-- Only a store becomes a store. -/
theorem eq_store_of_mapOperands {f : ValueId → ValueId} {k : InstKind} {value ptr : ValueId}
    (h : k.mapOperands f = .store value ptr) : ∃ value' ptr', k = .store value' ptr' := by
  cases k with
  | store value' ptr' => exact ⟨value', ptr', rfl⟩
  | _ => cases h

/-- Only a load becomes a load. -/
theorem eq_load_of_mapOperands {f : ValueId → ValueId} {k : InstKind} {ptr : ValueId}
    (h : k.mapOperands f = .load ptr) : ∃ ptr', k = .load ptr' := by
  cases k with
  | load ptr' => exact ⟨ptr', rfl⟩
  | _ => cases h

/-- A substitution that fixes the operands changes nothing. -/
theorem mapOperands_of_fixed {f : ValueId → ValueId} {k : InstKind}
    (h : ∀ op ∈ k.valueOperands, f op.1 = op.1) : k.mapOperands f = k := by
  refine ext_shape (shape_mapOperands f k) ?_
  rw [valueOperands_mapOperands]
  refine (List.map_congr_left fun op hop => ?_).trans (List.map_id _)
  exact Prod.ext (h op hop) rfl

/-! ## Replacing the operand of one slot -/

/-- Replacing one operand keeps what is not an operand. -/
theorem replaceOperand_shape {k k' : InstKind} {s : OperandSlot} {v old : ValueId}
    (h : k.replaceOperand s v = some (old, k')) : k'.shape = k.shape := by
  unfold replaceOperand at h
  split at h
  case h_3 func args i =>
    obtain ⟨w, hw, h⟩ := Option.bind_eq_some_iff.mp h
    cases h
    simp only [shape, mapOperands, List.map_const', List.length_set]
  case h_6 baseTy base indices i =>
    obtain ⟨w, hw, h⟩ := Option.bind_eq_some_iff.mp h
    cases h
    simp only [shape, mapOperands, List.map_const', List.length_set]
  case h_13 incomings idx i =>
    obtain ⟨p, hp, h⟩ := Option.bind_eq_some_iff.mp h
    cases h
    simp only [shape, mapOperands, InstKind.phi.injEq, and_true]
    refine AList.ext ?_
    simp only [HashMap.mapVal_entries]
    rw [entries_modify_map incomings i _ fun i p =>
      (⟨i, { p with value := .const 0 }⟩ : Sigma fun _ : Nat => PhiIncoming)]
    refine List.map_congr_left fun e _ => ?_
    split <;> rfl
  case h_21 => cases h
  all_goals
    cases h
    rfl

end InstKind

end Ir
