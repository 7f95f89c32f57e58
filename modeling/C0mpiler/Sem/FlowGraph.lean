import C0mpiler.Ir.DomTree
import C0mpiler.Sem.WellFormed
import Mathlib

/-!
# The control flow graph of a well-formed function

`build_cfg` returns on a well-formed function, and the edges of its graph are the slots of the
terminators, so paths and dominance of the graph are those of the function.
-/

namespace Ir

open ControlFlowGraph Flow

/-- The targets of a terminator. -/
def InstKind.targets : InstKind → List BlockId
  | .branch thenBlock none => [thenBlock]
  | .branch thenBlock (some c) => [thenBlock, c.elseBlock]
  | _ => []

theorem InstKind.mem_targets {k : InstKind} (hk : k.isTerminator = true) {b : BlockId} :
    b ∈ k.targets ↔ ∃ slot, (b, slot) ∈ k.blockOperands := by
  cases k with
  | branch thenBlock cond => cases cond <;> simp [targets, blockOperands, exists_or]
  | ret | unreachable => simp [targets, blockOperands]
  | _ => cases hk

theorem ControlFlowGraph.edge_addEdge {cfg : ControlFlowGraph} {u v x y : CFGNode} :
    (cfg.addEdge u v).Edge x y ↔ cfg.Edge x y ∨ x = u ∧ y = v :=
  mem_getD_entryInsert

namespace ModuleCore

variable {m : ModuleCore} {f : FunctionId} {fd : FunctionData}

/-- One block adds the edges of its terminator. -/
theorem addBlockEdges_spec (cfg : ControlFlowGraph) {b : BlockId} {bd : BlockData} {t : InstId}
    {d : InstData} (hb : fd.blocks.get? b = some bd) (ht : bd.terminator = some t)
    (hd : fd.insts.get? t = some d) :
    ∃ cfg', addBlockEdges fd cfg b = some cfg' ∧ cfg'.entry = cfg.entry ∧
      ∀ x y, cfg'.Edge x y ↔ cfg.Edge x y ∨ x = .block b ∧ ∃ c ∈ d.kind.targets, y = .block c := by
  have hbase : ∀ x y, ControlFlowGraph.Edge { cfg with
      succs := HashMap.entryDefault cfg.succs (.block b)
      preds := HashMap.entryDefault cfg.preds (.block b) } x y ↔ cfg.Edge x y := by
    intro x y
    show y ∈ ((HashMap.entryDefault cfg.succs _).lookup x).getD [] ↔ y ∈ (cfg.succs.lookup x).getD []
    rw [getD_entryDefault]
  simp only [addBlockEdges, hb, ht, hd, Option.bind_eq_bind, Option.bind_some]
  cases hk : d.kind with
  | branch thenBlock cond =>
    cases cond with
    | none =>
      refine ⟨_, rfl, rfl, fun x y => ?_⟩
      rw [edge_addEdge, hbase]
      simp [InstKind.targets]
    | some c =>
      refine ⟨_, rfl, rfl, fun x y => ?_⟩
      rw [edge_addEdge, edge_addEdge, hbase, or_assoc]
      simp [InstKind.targets, and_or_left]
  | _ =>
    refine ⟨_, rfl, rfl, fun x y => ?_⟩
    rw [hbase]
    simp [InstKind.targets]

/-- A block of a well-formed function, with its terminator, in the records of the module. -/
theorem exists_terminator (hwf : m.code.WellFormed f fd.header) (hfd : m.func f = some fd)
    {b : BlockId} (hb : b ∈ fd.blocks.keys) :
    ∃ bd t d, fd.blocks.get? b = some bd ∧ bd.terminator = some t ∧ fd.insts.get? t = some d ∧
      ∀ c, c ∈ d.kind.targets ↔ m.code.Edge f b c := by
  have hblock : ∀ b, m.block ⟨f, b⟩ = fd.blocks.get? b := fun b => by rw [ModuleCore.block, hfd]; rfl
  have hinst : ∀ i, m.inst ⟨f, i⟩ = fd.insts.get? i := fun i => by rw [ModuleCore.inst, hfd]; rfl
  obtain ⟨bd, hbd⟩ := Option.isSome_iff_exists.mp (SlotMap.mem_keys.mp hb)
  have hcode : m.code.block ⟨f, b⟩ = some bd.code := code_block_of_block ((hblock b).trans hbd)
  obtain ⟨t, ht⟩ := hwf.terminated b bd.code hcode
  obtain ⟨d, hd, -, -, -, hterm⟩ := hwf.owned b bd.code t hcode (Or.inr (Or.inr ht))
  obtain ⟨d, hd', rfl⟩ := inst_of_code_inst hd
  have his : m.code.TerminatorIs f b d.kind := ⟨bd.code, t, d.code, hcode, ht, hd, rfl⟩
  refine ⟨bd, t, d, hbd, ht, (hinst t).symm.trans hd', fun c => ?_⟩
  have hkind : d.kind.isTerminator = true := hterm.mp ht
  rw [InstKind.mem_targets hkind]
  constructor
  · rintro ⟨slot, hslot⟩
    exact ⟨slot, d.kind, his, hslot⟩
  · rintro ⟨slot, k, hk, hslot⟩
    rw [his.unique hk] at hslot
    exact ⟨slot, hslot⟩

/-- `build_cfg` on a well-formed function. -/
theorem exists_buildCfg (hwf : m.code.WellFormed f fd) :
    ∃ cfg, m.buildCfg f = some cfg ∧ cfg.entry = .block fd.entry ∧
      ∀ x y, cfg.Edge x y ↔ ∃ p b, x = .block p ∧ y = .block b ∧ m.code.Edge f p b := by
  obtain ⟨fd, hfd, rfl⟩ := Option.map_eq_some_iff.mp hwf.func
  -- the loop of `build_cfg`, from any graph
  have hloop : ∀ (l : List BlockId) (cfg : ControlFlowGraph), (∀ b ∈ l, b ∈ fd.blocks.keys) →
      ∃ cfg', l.foldlM (addBlockEdges fd) cfg = some cfg' ∧ cfg'.entry = cfg.entry ∧
        ∀ x y, cfg'.Edge x y ↔ cfg.Edge x y ∨
          ∃ p ∈ l, ∃ b, x = .block p ∧ y = .block b ∧ m.code.Edge f p b := by
    intro l
    induction l with
    | nil => exact fun cfg _ => ⟨cfg, rfl, rfl, by simp⟩
    | cons b l ih =>
      intro cfg hl
      obtain ⟨bd, t, d, hbd, ht, hd, htargets⟩ :=
        exists_terminator hwf hfd (hl b List.mem_cons_self)
      obtain ⟨cfg₁, hrun₁, hentry₁, hedges₁⟩ := addBlockEdges_spec cfg hbd ht hd
      obtain ⟨cfg₂, hrun₂, hentry₂, hedges₂⟩ :=
        ih cfg₁ fun b' hb' => hl b' (List.mem_cons_of_mem _ hb')
      refine ⟨cfg₂, OptionFold.cons_eq_some.mpr ⟨_, hrun₁, hrun₂⟩, hentry₂.trans hentry₁,
        fun x y => ?_⟩
      rw [hedges₂, hedges₁, or_assoc]
      simp only [List.mem_cons, exists_eq_or_imp, htargets, exists_and_left, and_comm]
  obtain ⟨cfg, hrun, hentry, hedges⟩ :=
    hloop fd.blocks.keys ⟨.block fd.entry, ∅, ∅⟩ fun _ hb => hb
  refine ⟨cfg, by rw [buildCfg, hfd]; exact hrun, hentry, fun x y => ?_⟩
  -- it starts without edges
  have hempty : ¬ ControlFlowGraph.Edge ⟨.block fd.entry, ∅, ∅⟩ x y := List.not_mem_nil
  rw [hedges]
  constructor
  · rintro (h | ⟨p, -, h⟩)
    · exact absurd h hempty
    · exact ⟨p, h⟩
  · rintro ⟨p, b, rfl, rfl, hedge⟩
    refine Or.inr ⟨p, SlotMap.mem_keys.mpr ?_, b, rfl, rfl, hedge⟩
    obtain ⟨slot, k, ⟨bd, t, d, hb, -⟩, -⟩ := hedge
    obtain ⟨bd, hb', -⟩ := block_of_code_block hb
    rw [ModuleCore.block, hfd] at hb'
    exact Option.isSome_of_eq_some hb'

end ModuleCore

section

variable {cfg : ControlFlowGraph} {C : Code} {f : FunctionId}
  (hedges : ∀ x y, cfg.Edge x y ↔ ∃ p b, x = .block p ∧ y = .block b ∧ C.Edge f p b)
include hedges

theorem reach_block {a : BlockId} {n : CFGNode} (h : Reach cfg.Edge (.block a) n) :
    ∃ b, n = .block b ∧ Reach (C.Edge f) a b := by
  refine h.induct (P := fun n => ∃ b, n = .block b ∧ Reach (C.Edge f) a b) ⟨a, rfl, .refl a⟩ ?_
  rintro u v - ⟨b, rfl, hb⟩ he
  obtain ⟨p, c, hp, rfl, hedge⟩ := (hedges _ _).mp he
  cases hp
  exact ⟨c, rfl, hb.step hedge⟩

theorem dominates_of_cfg {r a b : BlockId}
    (h : Dominates cfg.Edge (.block r) (.block a) (.block b)) : Dominates (C.Edge f) r a b := by
  intro p hp
  have hpath := hp.map CFGNode.block fun x y hxy => (hedges _ _).mpr ⟨x, y, rfl, rfl, hxy⟩
  obtain ⟨c, hc, heq⟩ := List.mem_map.mp (h _ hpath)
  cases heq
  exact hc

end

end Ir
