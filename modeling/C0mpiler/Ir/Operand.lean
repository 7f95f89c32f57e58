import C0mpiler.Ir.CoreInst
import Mathlib

/-!
# What replacing an operand does

The slots of an instruction are pairwise different, and `replaceOperand` rewrites exactly the
entry of its slot in the list of operands. The same two facts hold for block operands.
-/

namespace Ir

namespace InstKind

/-- Rewrite the entry of slot `s` in a list of operands. -/
def setSlot {ν σ : Type} [DecidableEq σ] (ops : List (ν × σ)) (s : σ) (v : ν) : List (ν × σ) :=
  ops.map fun op => if op.2 = s then (v, s) else op

variable {ν σ : Type}

/-- What the slots hold after one of them has been set. -/
theorem mem_setSlot [DecidableEq σ] {ops : List (ν × σ)} {s : σ} {v old : ν} (hs : (old, s) ∈ ops)
    {w : ν} {t : σ} :
    (w, t) ∈ setSlot ops s v ↔ (t = s ∧ w = v) ∨ (t ≠ s ∧ (w, t) ∈ ops) := by
  simp only [setSlot, List.mem_map]
  constructor
  · rintro ⟨⟨x, r⟩, hmem, heq⟩
    split at heq
    · cases heq
      exact Or.inl ⟨rfl, rfl⟩
    · next hne =>
      cases heq
      exact Or.inr ⟨hne, hmem⟩
  · rintro (⟨rfl, rfl⟩ | ⟨hne, hmem⟩)
    · exact ⟨(old, t), hs, if_pos rfl⟩
    · exact ⟨(w, t), hmem, if_neg hne⟩

/-- An operand is determined by its slot. -/
theorem eq_of_mem_slot {ops : List (ν × σ)} (hnodup : (ops.map Prod.snd).Nodup) {s : σ} {v w : ν}
    (hv : (v, s) ∈ ops) (hw : (w, s) ∈ ops) : v = w := by
  have := List.inj_on_of_nodup_map hnodup hv hw rfl
  exact congrArg Prod.fst this

/-! ## Numbered operands -/

/-- Setting an element of a list of operands sets its slot. -/
theorem zipIdx_set [DecidableEq σ] (l : List ν) (f : Nat → σ) (hf : Function.Injective f) (i : Nat) (v : ν) :
    ((l.set i v).zipIdx.map fun a => (a.1, f a.2)) =
      setSlot (l.zipIdx.map fun a => (a.1, f a.2)) (f i) v := by
  refine List.ext_getElem? fun j => ?_
  simp only [setSlot, List.getElem?_map, List.getElem?_zipIdx, Option.map_map, List.getElem?_set,
    Nat.zero_add]
  by_cases hij : i = j
  · subst hij
    simp only [if_true]
    split
    · next hlt => simp [List.getElem?_eq_getElem hlt]
    · next hlt => simp [List.getElem?_eq_none (Nat.le_of_not_lt hlt)]
  · simp only [if_neg hij]
    cases l[j]? with
    | none => rfl
    | some x =>
      have : f j ≠ f i := fun h => hij (hf h).symm
      simp [this]

/-- An element of a list of operands is the operand in its slot. -/
theorem mem_zipIdx_of_getElem? {l : List ν} (f : Nat → σ) {i : Nat} {v : ν} (h : l[i]? = some v) :
    (v, f i) ∈ l.zipIdx.map fun a => (a.1, f a.2) :=
  List.mem_map.mpr ⟨(v, i), List.mem_zipIdx_iff_getElem?.mpr h, rfl⟩

/-- A list of operands has each slot once. -/
theorem zipIdx_slots_nodup (l : List ν) (f : Nat → σ) (hf : Function.Injective f) :
    ((l.zipIdx.map fun a => (a.1, f a.2)).map Prod.snd).Nodup := by
  rw [List.map_map]
  have h : (Prod.snd ∘ fun a : ν × Nat => (a.1, f a.2)) = f ∘ Prod.snd := rfl
  rw [h, ← List.map_map, List.zipIdx_map_snd]
  exact List.Nodup.map hf (List.nodup_range')

/-! ## Operands of a phi -/

/-- Changing an incoming changes its operand. -/
theorem entries_modify_map {τ : Type} (m : HashMap Nat PhiIncoming) (i : Nat)
    (g : PhiIncoming → PhiIncoming) (f : Nat → PhiIncoming → τ) :
    ((HashMap.modify m i g).entries.map fun e => f e.1 e.2) =
      m.entries.map fun e => if e.1 = i then f e.1 (g e.2) else f e.1 e.2 := by
  simp only [HashMap.modify, List.map_map]
  refine List.map_congr_left fun e _ => ?_
  simp only [Function.comp]
  split <;> rfl

/-- A phi has each slot once. -/
theorem phi_slots_nodup (m : HashMap Nat PhiIncoming) (g : PhiIncoming → ν) (f : Nat → σ)
    (hf : Function.Injective f) :
    ((m.entries.map fun e => (g e.2, f e.1)).map Prod.snd).Nodup := by
  rw [List.map_map]
  have h : (Prod.snd ∘ fun e : Sigma fun _ : Nat => PhiIncoming => (g e.2, f e.1)) =
      f ∘ Sigma.fst := rfl
  rw [h, ← List.map_map]
  exact List.Nodup.map hf m.nodupKeys

/-- An incoming is an operand in the slot of its number. -/
theorem mem_phi_operands {m : HashMap Nat PhiIncoming} (g : PhiIncoming → ν) (f : Nat → σ)
    {i : Nat} {p : PhiIncoming} (h : m.lookup i = some p) :
    (g p, f i) ∈ m.entries.map fun e => (g e.2, f e.1) :=
  List.mem_map.mpr ⟨⟨i, p⟩, AList.mem_lookup_iff.mp h, rfl⟩

/-! ## Value operands -/

/-- Different arguments have different slots. -/
theorem callArg_injective : Function.Injective OperandSlot.callArg := fun _ _ h => by
  cases h; rfl

/-- Different indices have different slots. -/
theorem gepIndex_injective : Function.Injective OperandSlot.gepIndex := fun _ _ h => by
  cases h; rfl

/-- Different incomings have different value slots. -/
theorem phiIncomingVal_injective : Function.Injective OperandSlot.phiIncomingVal := fun _ _ h => by
  cases h; rfl

/-- Different incomings have different block slots. -/
theorem phiIncomingBlock_injective :
    Function.Injective BlockOperandSlot.phiIncomingBlock := fun _ _ h => by
  cases h; rfl

/-- An instruction has each value slot once. -/
theorem valueOperands_nodup (k : InstKind) : (k.valueOperands.map Prod.snd).Nodup := by
  cases k with
  | call func args => exact zipIdx_slots_nodup args _ callArg_injective
  | getElementPtr baseTy base indices =>
    refine List.nodup_cons.mpr ⟨?_, zipIdx_slots_nodup indices _ gepIndex_injective⟩
    simp
  | phi incomings idx => exact phi_slots_nodup incomings _ _ phiIncomingVal_injective
  | branch thenBlock cond => cases cond <;> simp [valueOperands]
  | ret value => cases value <;> simp [valueOperands]
  | _ => simp [valueOperands]

/-- An instruction has each block slot once. -/
theorem blockOperands_nodup (k : InstKind) : (k.blockOperands.map Prod.snd).Nodup := by
  cases k with
  | phi incomings idx => exact phi_slots_nodup incomings _ _ phiIncomingBlock_injective
  | branch thenBlock cond => cases cond <;> simp [blockOperands]
  | _ => simp [blockOperands]

/-- What `replaceOperand` returns: the operand that stood in the slot, and a kind that differs
from the old one in that operand only. -/
structure ReplacedOperand (k : InstKind) (s : OperandSlot) (v old : ValueId) (k' : InstKind) :
    Prop where
  mem : (old, s) ∈ k.valueOperands
  values : k'.valueOperands = setSlot k.valueOperands s v
  blocks : k'.blockOperands = k.blockOperands
  isPhi : k'.isPhi = k.isPhi
  isTerminator : k'.isTerminator = k.isTerminator

theorem replaceOperand_spec {k k' : InstKind} {s : OperandSlot} {v old : ValueId}
    (h : k.replaceOperand s v = some (old, k')) : ReplacedOperand k s v old k' := by
  unfold replaceOperand at h
  split at h
  -- a call, a getelementptr and a phi have operands in a list; the others hold them in fields
  case h_3 func args i =>
    obtain ⟨w, hw, h⟩ := Option.bind_eq_some_iff.mp h
    cases h
    exact ⟨mem_zipIdx_of_getElem? _ hw, zipIdx_set args _ callArg_injective i v, rfl, rfl, rfl⟩
  case h_6 baseTy base indices i =>
    obtain ⟨w, hw, h⟩ := Option.bind_eq_some_iff.mp h
    cases h
    refine ⟨List.mem_cons_of_mem _ (mem_zipIdx_of_getElem? _ hw), ?_, rfl, rfl, rfl⟩
    simp only [valueOperands, zipIdx_set indices _ gepIndex_injective i v]
    simp [setSlot]
  case h_13 incomings idx i =>
    obtain ⟨p, hp, h⟩ := Option.bind_eq_some_iff.mp h
    cases h
    refine ⟨mem_phi_operands _ _ hp, ?_, ?_, rfl, rfl⟩
    · simp only [valueOperands, setSlot, List.map_map]
      rw [entries_modify_map incomings i _ fun i p => (p.value, OperandSlot.phiIncomingVal i)]
      refine List.map_congr_left fun e _ => ?_
      simp only [Function.comp, OperandSlot.phiIncomingVal.injEq]
      split
      · next hi => rw [hi]
      · rfl
    · simp only [blockOperands]
      rw [entries_modify_map incomings i _ fun i p => (p.block, BlockOperandSlot.phiIncomingBlock i)]
      refine List.map_congr_left fun e _ => ?_
      split <;> rfl
  case h_21 => cases h
  all_goals
    cases h
    constructor <;> simp [valueOperands, blockOperands, setSlot, InstKind.isPhi,
      InstKind.isTerminator]

/-- What `replaceBlockOperand` returns, in the same terms. -/
structure ReplacedBlockOperand (k : InstKind) (s : BlockOperandSlot) (b old : BlockId)
    (k' : InstKind) : Prop where
  mem : (old, s) ∈ k.blockOperands
  values : k'.valueOperands = k.valueOperands
  blocks : k'.blockOperands = setSlot k.blockOperands s b
  isPhi : k'.isPhi = k.isPhi
  isTerminator : k'.isTerminator = k.isTerminator

theorem replaceBlockOperand_spec {k k' : InstKind} {s : BlockOperandSlot} {b old : BlockId}
    (h : k.replaceBlockOperand s b = some (old, k')) : ReplacedBlockOperand k s b old k' := by
  unfold replaceBlockOperand at h
  split at h
  case h_1 thenBlock cond =>
    cases h
    cases cond <;> constructor <;> simp [valueOperands, blockOperands, setSlot, InstKind.isPhi,
      InstKind.isTerminator]
  case h_2 thenBlock c =>
    cases h
    constructor <;> simp [valueOperands, blockOperands, setSlot, InstKind.isPhi,
      InstKind.isTerminator]
  case h_3 incomings idx i =>
    obtain ⟨p, hp, h⟩ := Option.bind_eq_some_iff.mp h
    cases h
    refine ⟨mem_phi_operands _ _ hp, ?_, ?_, rfl, rfl⟩
    · simp only [valueOperands]
      rw [entries_modify_map incomings i _ fun i p => (p.value, OperandSlot.phiIncomingVal i)]
      refine List.map_congr_left fun e _ => ?_
      split <;> rfl
    · simp only [blockOperands, setSlot, List.map_map]
      rw [entries_modify_map incomings i _ fun i p => (p.block, BlockOperandSlot.phiIncomingBlock i)]
      refine List.map_congr_left fun e _ => ?_
      simp only [Function.comp, BlockOperandSlot.phiIncomingBlock.injEq]
      split
      · next hi => rw [hi]
      · rfl
  case h_4 => cases h

end InstKind

end Ir
