import C0mpiler.Mir.PhiSound
import Mathlib

/-!
# Parallel copies on the machine

The sequence of `resolve_parallel_copy` as the instructions it consists of. A register that is
written may be the one that always reads as zero: a move into it does nothing, and since no later
move of the sequence reads a destination, no other register sees the difference.
-/

namespace Mir.ParallelCopy

section

variable {R I : Type} {w : Nat} [DecidableEq R] [MachineSemantics R w I]

/-- The registers after moves that are carried out at once, the counter going from `c` to `c'`. -/
structure AtOnce (moves : List (CopyMove R)) (c c' : Nat) (ρ ρ' : Regs R I w) : Prop where
  dst : ∀ m ∈ moves, m.dst ≠ zeroOperand I → ρ'.get m.dst = ρ.get m.src
  other : ∀ x, x ∉ moves.map Move.dst → ¬ Allocated c c' x → ρ'.get x = ρ.get x

omit [DecidableEq R] in
/-- The zero register is no new one. -/
theorem not_allocated_zero (c c' : Nat) : ¬ Allocated c c' (zeroOperand I : Register R) := by
  rintro ⟨v, -, -, hv⟩
  cases hv

variable [LawfulMachine R w I]

/-- A resolution does on the machine what its moves would do at once. -/
theorem Resolves.runs {order : KeyOrder (Register R) (List (Register R))}
    {moves out : List (CopyMove R)} {c c' : Nat}
    (h : resolveParallelCopy order moves c = some (out, c')) (hr : Resolves moves out c c')
    (sym : SymbolId → BitVec w) (ρ : Regs R I w) :
    ∃ ρ', runInsts sym (out.map fun m => (mv m.dst m.src : I)) ρ = some (ρ', none) ∧
      AtOnce moves c c' ρ ρ' := by
  obtain ⟨ρ', hrun, hget⟩ := runInsts_mv sym out ρ
  have hreads := resolveParallelCopy_reads h (not_allocated_zero (I := I) c c')
  -- beside the zero register the run is that of all the moves
  have hrest : ∀ x, x ≠ zeroOperand I → ρ'.get x = Move.run out ρ.get x := by
    intro x hx
    rw [hget]
    exact Move.run_filter_dst hreads hx ρ.get
  refine ⟨ρ', hrun, ⟨fun m hm hne => ?_, fun x hx hnot => ?_⟩⟩
  · rw [hrest m.dst hne]
    exact hr.run_dst ρ.get m hm
  · by_cases hzero : x = zeroOperand I
    · rw [hzero, ρ'.get_zero, ρ.get_zero]
    · rw [hrest x hzero]
      exact hr.run_other ρ.get x hx hnot

/-- **A parallel copy carries out its moves at once**: every destination but the zero register
holds what its source held before the sequence, and beside the destinations and the newly
allocated virtual registers nothing changes. -/
theorem resolveParallelCopy_runs (order : KeyOrder (Register R) (List (Register R)))
    {moves : List (CopyMove R)} {c : Nat} (hnodup : (moves.map Move.dst).Nodup)
    (hbelow : Below c moves) :
    ∃ out c', resolveParallelCopy order moves c = some (out, c') ∧ c ≤ c' ∧
      ∀ (sym : SymbolId → BitVec w) (ρ : Regs R I w), ∃ ρ',
        runInsts sym (out.map fun m => (mv m.dst m.src : I)) ρ = some (ρ', none) ∧
          AtOnce moves c c' ρ ρ' := by
  obtain ⟨out, c', hout, hresolves⟩ := resolveParallelCopy_resolves order hnodup hbelow
  exact ⟨out, c', hout, hresolves.counter_le, hresolves.runs hout⟩

end

/-! ## A cycle, and the two ways to lose a value -/

/-- Two registers that change places, and a third one beside them. -/
def swapMoves : List (CopyMove RV64Reg) :=
  [⟨.virtual 0, .virtual 1⟩, ⟨.virtual 1, .virtual 0⟩, ⟨.physical .a0, .virtual 0⟩]

/-- The two registers of the example. -/
theorem virtual_ne_of_lt {n v : Nat} (h : n < v) :
    (.virtual n : Register RV64Reg) ≠ .virtual v := by
  intro heq
  cases heq
  exact lt_irrefl _ h

/-- The moves of the example. -/
theorem swapMoves_below : Below 2 swapMoves := by
  intro m hm v hv
  have h0 : (.virtual 0 : Register RV64Reg) ≠ .virtual v := virtual_ne_of_lt (by omega)
  have h1 : (.virtual 1 : Register RV64Reg) ≠ .virtual v := virtual_ne_of_lt (by omega)
  simp only [swapMoves, List.mem_cons, List.not_mem_nil, or_false] at hm
  rcases hm with rfl | rfl | rfl
  · exact ⟨h0, h1⟩
  · exact ⟨h1, h0⟩
  · exact ⟨by simp, h0⟩

theorem resolveParallelCopy_runs_swap :
    ∃ out c', resolveParallelCopy ConstPhi.entryOrder swapMoves 2 = some (out, c') ∧ 2 ≤ c' ∧
      ∀ (sym : SymbolId → BitVec 64) (ρ : Regs RV64Reg RV64Inst 64), ∃ ρ',
        runInsts sym (out.map fun m => (mv m.dst m.src : RV64Inst)) ρ = some (ρ', none) ∧
          AtOnce swapMoves 2 c' ρ ρ' :=
  resolveParallelCopy_runs ConstPhi.entryOrder (by decide) swapMoves_below

/-- The moves deliver their sources into all of their destinations. -/
def Delivers (moves : List (CopyMove RV64Reg)) (c : Nat) : Prop :=
  ∃ out c', resolveParallelCopy ConstPhi.entryOrder moves c = some (out, c') ∧
    ∀ (sym : SymbolId → BitVec 64) (ρ : Regs RV64Reg RV64Inst 64), ∃ ρ',
      runInsts sym (out.map fun m => (mv m.dst m.src : RV64Inst)) ρ = some (ρ', none) ∧
        ∀ m ∈ moves, ρ'.get m.dst = ρ.get m.src

/-- Registers that hold their own number. -/
def numbered : Regs RV64Reg RV64Inst 64 where
  get
    | .virtual v => .ofNat 64 (v + 1)
    | .physical _ => 0
  get_zero := rfl

/-- The zero register keeps its zero, and a register that the counter has not passed is taken for
the temporary of a cycle. -/
theorem not_delivers :
    ¬ Delivers [⟨.physical .zero, .virtual 0⟩] 1 ∧
      ¬ Delivers [⟨.virtual 0, .virtual 1⟩, ⟨.virtual 1, .virtual 0⟩] 0 := by
  constructor
  · rintro ⟨out, c', -, h⟩
    obtain ⟨ρ', -, hdst⟩ := h (fun _ => 0) numbered
    have hzero : ρ'.get (zeroOperand RV64Inst) = 1 := hdst _ List.mem_cons_self
    rw [ρ'.get_zero] at hzero
    exact absurd hzero (by decide)
  · rintro ⟨out, c', hout, h⟩
    obtain rfl : out = [⟨.virtual 0, .virtual 1⟩, ⟨.virtual 1, .virtual 0⟩,
        ⟨.virtual 0, .virtual 0⟩] := by
      cases hout
      rfl
    obtain ⟨ρ', hrun, hdst⟩ := h (fun _ => 0) numbered
    cases hrun
    exact absurd (hdst ⟨.virtual 1, .virtual 0⟩ (by simp)) (by decide)

end Mir.ParallelCopy
