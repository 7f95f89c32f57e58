import C0mpiler.Mir.Liveness
import Mathlib

/-!
# Register allocation

The allocator of `lower/regalloc.rs`: the interference graph with its forbidden physical
registers, the order in which the nodes are simplified, colouring in the reverse order, and the
rewriting of the registers that found no colour into loads and stores of stack slots, repeated
until every register has a colour.

Hash sets are finite sets and hash maps read through `entry(..).or_default` are functions; where
the source iterates over one of them the result does not depend on the order. Weights are natural
numbers (those of the source stay far below `2^63`), and an expression that panics is `none`.
-/

/-- `Iterator::min_by`: the first of the least elements. -/
def List.minBy? {α : Type} (cmp : α → α → Ordering) : List α → Option α
  | [] => none
  | x :: l => some (l.foldl (fun m y => if cmp m y = .gt then y else m) x)

namespace Mir

section Sets

variable {R : Type} [DecidableEq R]

/-- The virtual registers of a set. -/
def virtuals (regs : Finset (Register R)) : Finset VRegId :=
  regs.biUnion fun
    | .virtual v => {v}
    | .physical _ => ∅

/-- Its physical registers. -/
def physicals (regs : Finset (Register R)) : Finset R :=
  regs.biUnion fun
    | .virtual _ => ∅
    | .physical r => {r}

end Sets

variable {R I : Type} [DecidableEq R] [LoweringTarget R I]

/-! ## The interference graph -/

/-- `nodes` are the keys of `edges`. -/
structure InterferenceGraph (R : Type) where
  nodes : Finset VRegId
  edges : VRegId → Finset VRegId
  forbiddenPhys : VRegId → Finset R

/-- How often a virtual register is used, written, and live across a call, weighted by its blocks.
-/
structure VRegStats where
  useWeight : Nat
  defWeight : Nat
  callCrossWeight : Nat

namespace VRegStats

/-- The cost of spilling it. -/
def spillCost (s : VRegStats) : Nat :=
  s.useWeight * 4 + s.defWeight * 5 + s.callCrossWeight * 2 + 1

end VRegStats

namespace InterferenceGraph

/-- No register yet. -/
def empty : InterferenceGraph R where
  nodes := ∅
  edges := fun _ => ∅
  forbiddenPhys := fun _ => ∅

/-- `edges.entry(v).or_default()` for every virtual register of `defs`. -/
def addNodes (g : InterferenceGraph R) (defs : List (Register R)) : InterferenceGraph R :=
  { g with nodes := g.nodes ∪ virtuals defs.toFinset }

/-- One definition against the registers that are live after it or conflict with it. -/
def addConflicts (g : InterferenceGraph R) (d : Register R) (xs : Finset (Register R)) :
    InterferenceGraph R :=
  match d with
  | .virtual v1 =>
    let others := (virtuals xs).erase v1
    { nodes := g.nodes ∪ (if others = ∅ then ∅ else insert v1 others)
      edges := fun v =>
        if v = v1 then g.edges v1 ∪ others
        else if v ∈ others then insert v1 (g.edges v) else g.edges v
      forbiddenPhys := fun v =>
        if v = v1 then g.forbiddenPhys v1 ∪ physicals xs else g.forbiddenPhys v }
  | .physical phy =>
    { g with
      forbiddenPhys := fun v =>
        if v ∈ virtuals xs then insert phy (g.forbiddenPhys v) else g.forbiddenPhys v }

/-- The registers a definition of `inst` conflicts with. -/
def conflictsOf (inst : I) (liveAfter : Finset (Register R)) (d : Register R) :
    Finset (Register R) :=
  liveAfter ∪ (((defConflictRegs inst).lookup d).getD []).toFinset

/-- `add_inst`: each register that an instruction writes conflicts with what is live behind it. -/
def addInst (g : InterferenceGraph R) (inst : I) (liveAfter : Finset (Register R)) :
    InterferenceGraph R :=
  (defRegs inst).foldl (fun g d => g.addConflicts d (conflictsOf inst liveAfter d))
    (g.addNodes (defRegs inst))

/-- `build`. -/
def build (f : MachineFunction R I) (info : LivenessInfo R) : InterferenceGraph R :=
  (f.blocks.flatMap info.liveAfter).foldl (fun g p => g.addInst p.1 p.2) empty

variable (I) in
/-- The registers that a node may have. -/
def availableRegs (g : InterferenceGraph R) (v : VRegId) : List R :=
  (LoweringTarget.allocatableRegs I).filter (· ∉ g.forbiddenPhys v)

/-- A node that is still to be simplified: its degree among these nodes and the number of
physical registers it may have. -/
structure Degree where
  node : VRegId
  degree : Nat
  k : Nat

/-- `min_by_key(|(node, (degree, k))| (*degree, *k, node.0))` -/
def Degree.compareKey (a b : Degree) : Ordering :=
  (compare a.degree b.degree).then ((compare a.k b.k).then (compare a.node b.node))

/-- Cost for each interference edge, then the larger degree, then the id. -/
def Degree.compareSpill (stats : VRegId → VRegStats) (lhs rhs : Degree) : Ordering :=
  let lhsScaled := (stats lhs.node).spillCost * (rhs.degree + 1)
  let rhsScaled := (stats rhs.node).spillCost * (lhs.degree + 1)
  (compare lhsScaled rhsScaled).then
    ((compare (rhs.degree + 1) (lhs.degree + 1)).then (compare lhs.node rhs.node))

/-- `select_spill_candidate`. -/
def selectSpillCandidate (stats : VRegId → VRegStats) (degrees : List Degree) : Option Degree :=
  degrees.minBy? (Degree.compareSpill stats)

/-- The node simplified next. -/
def selectNode (stats : VRegId → VRegStats) (degrees : List Degree) : Option Degree :=
  match (degrees.filter fun d => d.degree < d.k).minBy? Degree.compareKey with
  | some d => some d
  | none => selectSpillCandidate stats degrees

/-- The degrees after the node has been taken out of the graph. -/
def removeNode (g : InterferenceGraph R) (node : VRegId) (degrees : List Degree) : List Degree :=
  (degrees.filter (·.node ≠ node)).map fun d =>
    if d.node ∈ g.edges node then { d with degree := d.degree - 1 } else d

/-- `while !degrees.is_empty()`, which takes one node out in each turn. -/
def simplifyLoop (g : InterferenceGraph R) (stats : VRegId → VRegStats) :
    Nat → List Degree → List VRegId
  | 0, _ => []
  | fuel + 1, degrees =>
    match selectNode stats degrees with
    | none => []
    | some d => d.node :: simplifyLoop g stats fuel (g.removeNode d.node degrees)

variable (I) in
/-- The nodes in the order in which they are pushed on the stack. -/
def simplify (g : InterferenceGraph R) (stats : VRegId → VRegStats) : List VRegId :=
  let degrees := (g.nodes.sort (· ≤ ·)).map fun v =>
    { node := v, degree := (g.edges v).card, k := (g.availableRegs I v).length }
  g.simplifyLoop stats degrees.length degrees

end InterferenceGraph

/-! ## Weights -/

/-- The blocks from which `worklist` is reached backwards, on top of `loopBlocks`. Every push is
an edge of the graph, so the edges bound the turns. -/
def loopBlocks (predecessors : BlockId → List BlockId) :
    Nat → Finset BlockId → List BlockId → Finset BlockId
  | 0, seen, _ => seen
  | _, seen, [] => seen
  | fuel + 1, seen, current :: worklist =>
    if current ∈ seen then loopBlocks predecessors fuel seen worklist
    else loopBlocks predecessors fuel (insert current seen) (predecessors current ++ worklist)

/-- `compute_block_weights`: the blocks between the ends of a back edge count ten times. -/
def computeBlockWeights (f : MachineFunction R I) : Option (BlockId → Nat) := do
  let cfg ← computeCfg f
  let ids := f.blocks.map (·.id)
  let predecessors := fun id => ids.filter fun p => id ∈ cfg.succs p
  let edgeCount := (ids.map fun id => (cfg.succs id).length).sum
  let backEdges ← ids.mapM fun id =>
    (cfg.succs id).filterMapM fun succ => do
      let succIndex ← ids.idxOf? succ
      let blockIndex ← ids.idxOf? id
      return if succIndex > blockIndex then none else some (id, succ)
  let loops := backEdges.flatten.map fun (id, succ) =>
    loopBlocks predecessors (edgeCount + 1) {succ} [id]
  return fun id => 10 ^ min (loops.filter (id ∈ ·)).length 4

/-- The instructions of the function with the weight of their block and the registers live after
them. -/
def weighted (f : MachineFunction R I) (info : LivenessInfo R) (weights : BlockId → Nat) :
    List (Nat × I × Finset (Register R)) :=
  f.blocks.flatMap fun block => (info.liveAfter block).map fun p => (weights block.id, p)

/-- `collect_vreg_stats`. -/
def collectVregStats (f : MachineFunction R I) (info : LivenessInfo R)
    (weights : BlockId → Nat) : VRegId → VRegStats :=
  fun v => (weighted f info weights).foldl
    (fun s (weight, inst, liveAfter) =>
      { useWeight := s.useWeight + weight * (useRegs inst).count (.virtual v)
        defWeight := s.defWeight + weight * (defRegs inst).count (.virtual v)
        callCrossWeight := s.callCrossWeight +
          if isCall inst ∧ .virtual v ∈ liveAfter then weight else 0 })
    ⟨0, 0, 0⟩

/-- `*entry(k).or_default() += weight` -/
def addWeight {κ : Type} [DecidableEq κ] (m : HashMap κ Nat) (k : κ) (weight : Nat) :
    HashMap κ Nat :=
  m.insert k ((m.lookup k).getD 0 + weight)

/-- For each register, those it is moved from or to, with their weights. -/
abbrev MovePairs (R : Type) := HashMap (Register R) (HashMap (Register R) Nat)

/-- `add_move_pair`, one way. -/
def addMovePair (m : MovePairs R) (a b : Register R) (weight : Nat) : MovePairs R :=
  m.insert a (addWeight ((m.lookup a).getD ∅) b weight)

/-- `collect_move_pairs`. -/
def collectMovePairs (f : MachineFunction R I) (weights : BlockId → Nat) : MovePairs R :=
  (f.blocks.flatMap fun block => block.instructions.map fun inst => (weights block.id, inst)).foldl
    (fun m (weight, inst) => match asMove inst with
      | some (src, dst) => addMovePair (addMovePair m src dst weight) dst src weight
      | none => m)
    ∅

/-! ## Colouring -/

/-- What the physical registers gain from moves to or from `v`. -/
def preferredWeights (v : VRegId) (assignedRegs : HashMap VRegId R) (movePairs : MovePairs R) :
    HashMap R Nat :=
  (((movePairs.lookup (.virtual v)).getD ∅).entries).foldl
    (fun m e => match e.1 with
      | .virtual other => match assignedRegs.lookup other with
        | some assigned => addWeight m assigned e.2
        | none => m
      | .physical phy => addWeight m phy e.2)
    ∅

variable (I) in
/-- The key of `reg` in `min_by_key`. -/
def regKey (preferred : HashMap R Nat) (usedCalleeSaved : Finset R) (reg : R) : Int × Nat × R :=
  let preferenceBonus : Int := ((preferred.lookup reg).getD 0) * 100
  let calleeSavedPenalty : Int :=
    if LoweringTarget.isCalleeSaved I reg then
      if reg ∈ usedCalleeSaved then 1000 else 10000
    else 0
  (calleeSavedPenalty - preferenceBonus,
    ((LoweringTarget.allocatableRegs I).idxOf? reg).getD (2 ^ 64 - 1), reg)

variable (I) in
/-- `choose_physical_reg`: the cheapest register that is free, by move weight, then callee-saved
cost. -/
def choosePhysicalReg [Ord R] (v : VRegId) (availableRegs : List R)
    (assignedRegs : HashMap VRegId R) (usedCalleeSaved : Finset R) (movePairs : MovePairs R) :
    Option R :=
  let key := regKey I (preferredWeights v assignedRegs movePairs) usedCalleeSaved
  availableRegs.minBy? fun a b =>
    (compare (key a).1 (key b).1).then
      ((compare (key a).2.1 (key b).2.1).then (compare (key a).2.2 (key b).2.2))

/-- What the loop over the stack has found so far. -/
structure Colouring (R : Type) where
  spillCandidates : List VRegId
  assignedRegs : HashMap VRegId R
  usedCalleeSaved : Finset R

variable (I) in
/-- The registers left for `v` by its neighbours. -/
def freeRegs (graph : InterferenceGraph R) (assignedRegs : HashMap VRegId R) (v : VRegId) :
    List R :=
  (graph.availableRegs I v).filter fun reg =>
    ∀ neighbor ∈ graph.edges v, assignedRegs.lookup neighbor ≠ some reg

variable (I) in
/-- One node of the stack: it gets a register or is a spill candidate. -/
def colourStep [Ord R] (graph : InterferenceGraph R) (movePairs : MovePairs R)
    (c : Colouring R) (v : VRegId) : Colouring R :=
  match choosePhysicalReg I v (freeRegs I graph c.assignedRegs v) c.assignedRegs
      c.usedCalleeSaved movePairs with
  | some reg =>
    { c with
      usedCalleeSaved :=
        if LoweringTarget.isCalleeSaved I reg then insert reg c.usedCalleeSaved
        else c.usedCalleeSaved
      assignedRegs := c.assignedRegs.insert v reg }
  | none => { c with spillCandidates := c.spillCandidates ++ [v] }

variable (I) in
/-- The nodes are coloured from the top of the stack. -/
def colour [Ord R] (graph : InterferenceGraph R) (movePairs : MovePairs R)
    (stack : List VRegId) : Colouring R :=
  stack.reverse.foldl (colourStep I graph movePairs) ⟨[], ∅, ∅⟩

/-- `compute_spill`. -/
def computeSpill [Ord R] (f : MachineFunction R I) :
    Option (List VRegId × HashMap VRegId R) := do
  let livenessInfo ← livenessAnalysis f
  let blockWeights ← computeBlockWeights f
  let vregStats := collectVregStats f livenessInfo blockWeights
  let graph := InterferenceGraph.build f livenessInfo
  let movePairs := collectMovePairs f blockWeights
  let c := colour I graph movePairs (graph.simplify I vregStats)
  return (c.spillCandidates, c.assignedRegs)

/-! ## Spilling -/

/-- `unique_spilled_vregs`. -/
def uniqueSpilledVregs (regs : List (Register R)) (spilled : List VRegId) : List VRegId :=
  (regs.filterMap fun
    | .virtual v => if v ∈ spilled then some v else none
    | .physical _ => none).reverse.dedup.reverse

/-- The instructions that replace `inst`, whose fresh registers are numbered from `counter`: one
for each spilled use, one for each spilled definition, and a scratch register for each store. -/
def spillInst (slots : HashMap VRegId StackSlotId) (spilled : List VRegId) (counter : Nat)
    (inst : I) : List I × Nat :=
  let usesSpilled := uniqueSpilledVregs (useRegs inst) spilled
  let defsSpilled := uniqueSpilledVregs (defRegs inst) spilled
  let tempIn := usesSpilled.zipIdx counter
  let tempOut := defsSpilled.zipIdx (counter + usesSpilled.length)
  let rts := defsSpilled.length + (counter + usesSpilled.length)
  let slot := fun v => (slots.lookup v).getD 0
  let useMap := HashMap.collect (tempIn.map fun p => (p.1, Register.virtual p.2))
  let defMap := HashMap.collect (tempOut.map fun p => (p.1, Register.virtual p.2))
  (tempIn.map (fun p => emitLoadStackSlot (.virtual p.2) (slot p.1)) ++
    rewriteVreg useMap defMap inst ::
    tempOut.map (fun p => emitStoreStackSlot (.virtual p.2) (slot p.1)
      (.virtual (p.2 + defsSpilled.length))),
   rts + defsSpilled.length)

/-- `spillInst` on the instructions of a block, one after the other. -/
def spillInsts (slots : HashMap VRegId StackSlotId) (spilled : List VRegId) :
    Nat → List I → List I × Nat
  | counter, [] => ([], counter)
  | counter, inst :: rest =>
    let here := spillInst slots spilled counter inst
    let there := spillInsts slots spilled here.2 rest
    (here.1 ++ there.1, there.2)

/-- `spill_vreg` over the blocks, with the counter of the function. -/
def spillBlocks (slots : HashMap VRegId StackSlotId) (spilled : List VRegId) :
    Nat → List (MachineBlock I) → List (MachineBlock I) × Nat
  | counter, [] => ([], counter)
  | counter, block :: rest =>
    let here := spillInsts slots spilled counter block.instructions
    let there := spillBlocks slots spilled here.2 rest
    ({ block with instructions := here.1 } :: there.1, there.2)

/-- A stack slot for every register to spill. -/
def spillSlots (f : MachineFunction R I) (vregIds : List VRegId) : MachineFunction R I :=
  vregIds.foldl
    (fun f _ => f.newStackSlot (LoweringTarget.wordSize I) (LoweringTarget.wordSize I) .spill) f

/-- `spill_vreg`. -/
def spillVreg (vregIds : List VRegId) (f : MachineFunction R I) : MachineFunction R I :=
  let slots := HashMap.collect (vregIds.zipIdx f.frameInfo.stackSlots.length)
  let f := spillSlots f vregIds
  let out := spillBlocks slots vregIds f.vregCounter f.blocks
  { f with blocks := out.1, vregCounter := out.2 }

/-- `while !spill.is_empty()`, for at most `fuel` rounds. -/
def spillLoop [Ord R] : Nat → MachineFunction R I →
    Option (MachineFunction R I × HashMap VRegId R)
  | 0, _ => none
  | fuel + 1, f => do
    let (spill, assignedRegs) ← computeSpill f
    if spill.isEmpty then return (f, assignedRegs) else spillLoop fuel (spillVreg spill f)

/-- `callee_saved_scan`. -/
def calleeSavedScan (f : MachineFunction R I) : MachineFunction R I :=
  { f with
    frameInfo :=
      { f.frameInfo with
        usedCalleeSaved := (f.insts.flatMap fun inst => (defRegs inst).filterMap fun
          | .physical r => if LoweringTarget.isCalleeSaved I r then some r else none
          | .virtual _ => none).dedup
        needSaveRa := f.insts.any isCall } }

/-- `none` when the spill loop has not ended after `fuel` rounds. -/
def registerAllocation [Ord R] (fuel : Nat) (f : MachineFunction R I) :
    Option (MachineFunction R I) := do
  let (f, assignedRegs) ← spillLoop fuel f
  let assigned : HashMap VRegId (Register R) :=
    HashMap.collect (assignedRegs.entries.map fun e => (e.1, .physical e.2))
  return calleeSavedScan
    { f with
      blocks := f.blocks.map fun block =>
        { block with instructions := block.instructions.map (rewriteVreg assigned assigned) } }

end Mir
