import C0mpiler.Ir.Core
import Mathlib

/-!
# Control-flow graphs and dominator trees

The graph of a function, its depth-first numbering, the dominator tree and the dominance
frontiers (`cfg.rs`), and the splitting of a block.

The source recurses and loops without a bound; here each recursion takes a `fuel` argument,
and each entry point passes one that its theorem shows to be enough. The order in which a
hash set is iterated is the order of the list that stands for it; the one set that is both
built and iterated inside `buildDomTree`, a bucket, is iterated in the order an arbitrary
`HashOrder` picks at each visit.
-/

namespace Ir

/-- The nodes of a graph: the blocks, and one node that is none. -/
inductive CFGNode where
  | block (b : BlockId)
  | fake
  deriving DecidableEq, Repr

/-- The block of a node that is one. -/
def CFGNode.asBlock : CFGNode → Option BlockId
  | .block b => some b
  | .fake => none

/-- A depth-first search: the nodes in preorder, their numbers and their parents in the tree. -/
structure DFSResult where
  order : List CFGNode
  dfn : HashMap CFGNode Nat
  parent : HashMap CFGNode CFGNode

/-- A graph with its edges in both directions. -/
structure ControlFlowGraph where
  entry : CFGNode
  succs : HashMap CFGNode (HashSet CFGNode)
  preds : HashMap CFGNode (HashSet CFGNode)

/-- The immediate dominators, and the tree that they make. -/
structure DominatorTree where
  root : CFGNode
  children : HashMap CFGNode (HashSet CFGNode)
  idom : HashMap CFGNode CFGNode

/-- The order in which the hash sets made during a computation are iterated: at every visit
some rearrangement of the elements. -/
structure HashOrder (κ : Type) where
  iter : κ → List κ → List κ
  perm : ∀ site l, (iter site l).Perm l

/-- Every set in the order of its list. -/
def HashOrder.asStored (κ : Type) : HashOrder κ := ⟨fun _ l => l, fun _ _ => .refl _⟩

namespace ControlFlowGraph

/-- `succs.get(n)` with the empty set for a missing node. -/
def succsOf (cfg : ControlFlowGraph) (n : CFGNode) : HashSet CFGNode := (cfg.succs.lookup n).getD []

/-- `preds.get(n)` with the empty set for a missing node. -/
def predsOf (cfg : ControlFlowGraph) (n : CFGNode) : HashSet CFGNode := (cfg.preds.lookup n).getD []

/-- Add an edge, in both directions. -/
def addEdge (cfg : ControlFlowGraph) (u v : CFGNode) : ControlFlowGraph :=
  { cfg with succs := HashMap.entryInsert cfg.succs u v, preds := HashMap.entryInsert cfg.preds v u }

/-- `reverse`: swap the edges and let a fake entry lead to every end. -/
def reverse (cfg : ControlFlowGraph) (ends : List BlockId) : ControlFlowGraph :=
  let cfg : ControlFlowGraph := ⟨.fake, cfg.preds, cfg.succs⟩
  let cfg : ControlFlowGraph :=
    { cfg with
      succs := HashMap.entryDefault cfg.succs cfg.entry
      preds := HashMap.entryDefault cfg.preds cfg.entry }
  ends.foldl (fun cfg e => cfg.addEdge .fake (.block e)) cfg

/-! ## Depth-first numbering -/

/-- The state of the search. -/
structure DfsState where
  visited : HashSet CFGNode
  order : List CFGNode
  parent : HashMap CFGNode CFGNode

/-- Visit a node and all that is reached from it and has not been visited. The fuel bounds the
depth. -/
def dfsVisit (cfg : ControlFlowGraph) :
    Nat → CFGNode → Option CFGNode → DfsState → Option DfsState
  | 0, _, _, _ => none
  | fuel + 1, block, src, st =>
    if block ∈ st.visited then some st
    else
      let parent := match src with
        | some p => st.parent.insert block p
        | none => st.parent
      (cfg.succsOf block).foldlM (fun st succ => dfsVisit cfg fuel succ (some block) st)
        ⟨block :: st.visited, st.order ++ [block], parent⟩

/-- `build_dfn`: search from the entry. Every node is a key of `succs` but the entry perhaps, so the
fuel is enough. -/
def buildDfn (cfg : ControlFlowGraph) : Option DFSResult := do
  let st ← cfg.dfsVisit (cfg.succs.keys.length + 2) cfg.entry none ⟨[], [], ∅⟩
  some ⟨st.order, HashMap.collect st.order.zipIdx, st.parent⟩

/-! ## The dominator tree -/

/-- The disjoint set, read and path-compressed by `find`. -/
structure FindState where
  disjointSet : HashMap CFGNode CFGNode
  best : HashMap CFGNode CFGNode

/-- `find`: the root of `v` in the disjoint set. Every node on the way is linked to the root,
and takes over the best vertex of its parent if that has the smaller semidominator. -/
def find (dfn : HashMap CFGNode Nat) (sdom : HashMap CFGNode CFGNode) :
    Nat → CFGNode → FindState → Option (CFGNode × FindState)
  | 0, _, _ => none
  | fuel + 1, v, st => do
    let parent ← st.disjointSet.lookup v
    if parent ≠ v then do
      let (root, st) ← find dfn sdom fuel parent st
      let bestParent ← st.best.lookup parent
      let bestV ← st.best.lookup v
      let dfnParent ← dfn.lookup (← sdom.lookup bestParent)
      let dfnV ← dfn.lookup (← sdom.lookup bestV)
      let best := if dfnParent < dfnV then st.best.insert v bestParent else st.best
      some (root, ⟨st.disjointSet.insert v root, best⟩)
    else some (v, st)

/-- The state of the main loop: semidominators, candidates, the forest of linked nodes and the
buckets. -/
structure DomState where
  sdom : HashMap CFGNode CFGNode
  idom : HashMap CFGNode CFGNode
  forest : FindState
  bucket : HashMap CFGNode (HashSet CFGNode)

/-- One predecessor of `node`: its root is a candidate for the semidominator of `node`. -/
def visitPred (dfn : HashMap CFGNode Nat) (fuel : Nat) (node : CFGNode) (st : DomState)
    (pred : CFGNode) : Option DomState :=
  match dfn.lookup pred with
  | none => some st
  | some _ => do
    let (candidate, forest) ← find dfn st.sdom fuel pred st.forest
    let st := { st with forest := forest }
    let dfnCandidate ← dfn.lookup (← st.sdom.lookup candidate)
    let dfnNode ← dfn.lookup (← st.sdom.lookup node)
    if dfnCandidate < dfnNode then some { st with sdom := st.sdom.insert node candidate }
    else some st

/-- One element `v` of the bucket of a parent: fix its immediate dominator. -/
def visitBucket (dfn : HashMap CFGNode Nat) (fuel : Nat) (st : DomState) (v : CFGNode) :
    Option DomState := do
  let (w, forest) ← find dfn st.sdom fuel v st.forest
  let st := { st with forest := forest }
  let sdomW ← st.sdom.lookup w
  let sdomV ← st.sdom.lookup v
  if sdomW = sdomV then some { st with idom := st.idom.insert v sdomV }
  else some { st with idom := st.idom.insert v w }

/-- The body of the main loop for one node other than the entry. -/
def visitNode (cfg : ControlFlowGraph) (o : HashOrder CFGNode) (dfs : DFSResult) (fuel : Nat)
    (st : DomState) (node : CFGNode) : Option DomState := do
  if node = cfg.entry then some st
  else do
    let st ← (← cfg.preds.lookup node).foldlM (visitPred dfs.dfn fuel node) st
    let sdomNode ← st.sdom.lookup node
    let parent ← dfs.parent.lookup node
    let st : DomState :=
      { st with
        bucket := HashMap.entryInsert st.bucket sdomNode node
        forest := { st.forest with disjointSet := st.forest.disjointSet.insert node parent } }
    let st ← (o.iter node ((st.bucket.lookup parent).getD [])).foldlM (visitBucket dfs.dfn fuel) st
    some { st with bucket := st.bucket.erase parent }

/-- The last pass: a node whose `idom` is not its semidominator takes the `idom` of that. -/
def fixIdom (sdom idom : HashMap CFGNode CFGNode) (node : CFGNode) :
    Option (HashMap CFGNode CFGNode) := do
  let d ← idom.lookup node
  let s ← sdom.lookup node
  if d ≠ s then do
    let dd ← idom.lookup d
    some (idom.insert node dd)
  else some idom

/-- `build_dom_tree`: nodes in reverse preorder, then the candidates that are not final yet are
corrected in preorder. -/
def buildDomTree (cfg : ControlFlowGraph) (o : HashOrder CFGNode) : Option DominatorTree := do
  let dfs ← cfg.buildDfn
  guard (!dfs.order.isEmpty)
  let self := HashMap.collect (dfs.order.map fun n => (n, n))
  let st ← dfs.order.reverse.foldlM (cfg.visitNode o dfs (dfs.order.length + 1))
    ⟨self, self, ⟨self, self⟩, ∅⟩
  let idom ← (dfs.order.drop 1).foldlM (fixIdom st.sdom) st.idom
  let idom := idom.insert cfg.entry cfg.entry
  let children : HashMap CFGNode (HashSet CFGNode) := HashMap.collect (idom.keys.map fun n => (n, []))
  let children := idom.entries.foldl (fun c (e : Sigma fun _ : CFGNode => CFGNode) =>
    if e.1 ≠ e.2 then HashMap.entryInsert c e.2 e.1 else c) children
  some ⟨cfg.entry, children, idom⟩

/-- The walk of `build_dom_frontier` from one predecessor up to the immediate dominator of
`block`, adding `block` to the frontier of every node passed. -/
def frontierWalk (idom : HashMap CFGNode CFGNode) (block stop : CFGNode) :
    Nat → CFGNode → HashMap CFGNode (HashSet CFGNode) → Option (HashMap CFGNode (HashSet CFGNode))
  | 0, _, _ => none
  | fuel + 1, runner, frontier =>
    if runner = stop then some frontier
    else
      let frontier := HashMap.entryInsert frontier runner block
      match idom.lookup runner with
      | some next => if next ≠ runner then frontierWalk idom block stop fuel next frontier else some frontier
      | none => some frontier

/-- `build_dom_frontier`: from every predecessor of a join walk up to the immediate dominator of the
join. -/
def buildDomFrontier (cfg : ControlFlowGraph) (domTree : DominatorTree) :
    Option (HashMap CFGNode (HashSet CFGNode)) :=
  domTree.idom.keys.foldlM (fun frontier block => do
    let preds ← cfg.preds.lookup block
    if 2 ≤ preds.length then
      preds.foldlM (fun frontier pred =>
        match domTree.idom.lookup pred with
        | none => some frontier
        | some _ => do
          let stop ← domTree.idom.lookup block
          frontierWalk domTree.idom block stop (domTree.idom.keys.length + 1) pred frontier) frontier
    else some frontier) ∅

end ControlFlowGraph

namespace DominatorTree

/-- The loop of `dominates`: climb from `current` until `a` or the root is met. -/
def dominatesLoop (t : DominatorTree) (a : CFGNode) : Nat → CFGNode → Option Bool
  | 0, _ => none
  | fuel + 1, current =>
    if current = t.root then some false
    else if current = a then some true
    else do
      let next ← t.idom.lookup current
      dominatesLoop t a fuel next

/-- `dominates`: walk up from `b` and look for `a`. -/
def dominates (t : DominatorTree) (a b : CFGNode) : Option Bool :=
  if a = t.root then some true else t.dominatesLoop a (t.idom.keys.length + 1) b

end DominatorTree

namespace ModuleCore

/-- `build_cfg`, for one block: the node of the block and the edges of its terminator. -/
def addBlockEdges (fd : FunctionData) (cfg : ControlFlowGraph) (b : BlockId) :
    Option ControlFlowGraph := do
  let data ← fd.blocks.get? b
  let node := CFGNode.block b
  let cfg : ControlFlowGraph :=
    { cfg with
      succs := HashMap.entryDefault cfg.succs node
      preds := HashMap.entryDefault cfg.preds node }
  match data.terminator with
  | none => some cfg
  | some term => do
    let d ← fd.insts.get? term
    match d.kind with
    | .branch thenBlock cond =>
      let cfg := cfg.addEdge node (.block thenBlock)
      match cond with
      | some c => some (cfg.addEdge node (.block c.elseBlock))
      | none => some cfg
    | _ => some cfg

/-- `build_cfg`: the edges of all blocks of the arena. -/
def buildCfg (m : ModuleCore) (f : FunctionId) : Option ControlFlowGraph := do
  let fd ← m.func f
  fd.blocks.keys.foldlM (addBlockEdges fd) ⟨.block fd.entry, ∅, ∅⟩

/-- `split_block_at`: move the instructions from `inst` on, and the terminator, to a new block;
the phis that named the old block name the new one. -/
def splitBlockAt (m : ModuleCore) (inst : InstRef) (addTerminator : Bool) :
    Option (BlockRef × ModuleCore) := do
  let parent ← (← m.inst inst).parent
  let b ← m.block parent
  let phiUses ← b.uses.filterM fun u => do
    let d ← m.inst u.user
    some d.kind.isPhi
  let position ← b.insts.findIdx? (· == inst.inst)
  let (newBlock, m) ← m.appendBlock inst.func none
  let m ← (b.insts.drop position).foldlM (fun m i => do
    let m ← m.detachInst ⟨inst.func, i⟩
    m.appendInst newBlock ⟨inst.func, i⟩) m
  let m ← match ← m.terminator parent with
    | some term => do
      let m ← m.detachInst term
      m.setTerminator newBlock term
    | none => some m
  let m ← phiUses.foldlM (fun m (u : BlockUse) => m.replaceBlockOperand u.user u.slot newBlock) m
  if addTerminator then do
    let (jump, m) ← m.newInst inst.func .void (.branch newBlock.block none) none
    let m ← m.setTerminator parent jump
    some (newBlock, m)
  else some (newBlock, m)

end ModuleCore

end Ir
