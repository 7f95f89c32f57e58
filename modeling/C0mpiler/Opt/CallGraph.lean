import C0mpiler.Ir.Cfg
import C0mpiler.Opt.Strength
import Mathlib

/-!
# The call graph and the calls to inline

`opt_function_inline` up to the edits: the graph of the direct calls, its strong components
(`build_scc`, two rounds of `dfs`), the order in which the components are visited
(`topological_sort`), and the calls that are inlined (`analyze_inlinability`).

The loops take their fuel as an argument. A call graph is iterated in the order of its lists, which is
any; the sets built on the way are iterated as a `HashOrder` says.
-/

namespace Ir

structure CallGraph where
  succs : HashMap FunctionId (HashSet FunctionId)
  preds : HashMap FunctionId (HashSet FunctionId)

structure SCCGraph where
  sccs : List (HashSet FunctionId)
  sccIdMap : HashMap FunctionId Nat
  succs : HashMap Nat (HashSet Nat)
  preds : HashMap Nat (HashSet Nat)

/-! ## Depth-first visits -/

/-- The state of the loop in `dfs`; the top of the stack comes first. -/
structure DfsLoop (τ : Type) where
  visited : HashSet τ
  stack : List (τ × Nat)
  o : List τ

section Dfs

variable {τ : Type} [DecidableEq τ] (succs : HashMap τ (HashSet τ))

def succsList (node : τ) : List τ := (succs.lookup node).getD []

def dfsLoop : Nat → DfsLoop τ → Option (DfsLoop τ)
  | 0, _ => none
  | fuel + 1, st =>
    match st.stack with
    | [] => some st
    | (node, idx) :: stack =>
      match (succsList succs node)[idx]? with
      | some succ =>
        if succ ∈ st.visited then dfsLoop fuel { st with stack := (node, idx + 1) :: stack }
        else
          dfsLoop fuel
            { st with visited := succ :: st.visited, stack := (succ, 0) :: (node, idx + 1) :: stack }
      | none => dfsLoop fuel { st with stack := stack, o := st.o ++ [node] }

/-- The loop over `dfs_order`. -/
def dfs (fuel : Nat) : List τ → HashSet τ → Option (List (List τ))
  | [], _ => some []
  | id :: dfsOrder, visited =>
    if id ∈ visited then dfs fuel dfsOrder visited
    else do
      let st ← dfsLoop succs fuel ⟨id :: visited, [(id, 0)], []⟩
      let order ← dfs fuel dfsOrder st.visited
      some (st.o :: order)

end Dfs

/-! ## Components -/

namespace CallGraph

variable (graph : CallGraph)

/-- One call, from a function of the component `sccId`. -/
def addSccEdge (sccIdMap : HashMap FunctionId Nat) (sccId : Nat) (g : SCCGraph) (called : FunctionId) :
    Option SCCGraph := do
  let calledSccId ← sccIdMap.lookup called
  if sccId ≠ calledSccId then do
    let succs ← g.succs.lookup sccId
    let preds ← g.preds.lookup calledSccId
    some { g with
      succs := g.succs.insert sccId (List.insert calledSccId succs)
      preds := g.preds.insert calledSccId (List.insert sccId preds) }
  else some g

def buildScc (hash : HashOrder Nat) (fuel : Nat) : Option SCCGraph := do
  let dfsOrder ← dfs graph.succs fuel graph.succs.keys []
  let sccs ← dfs graph.preds fuel dfsOrder.flatten.reverse []
  let sccs := sccs.zipIdx.map fun scc => hash.iter scc.2 scc.1
  let sccIdMap := HashMap.collect (sccs.zipIdx.flatMap fun scc => scc.1.map fun id => (id, scc.2))
  let empty := HashMap.collect ((List.range sccs.length).map fun i => (i, []))
  graph.succs.entries.foldlM (fun g e => do
    let sccId ← sccIdMap.lookup e.1
    e.2.foldlM (addSccEdge sccIdMap sccId) g) ⟨sccs, sccIdMap, empty, empty⟩

end CallGraph

/-! ## The order of the components -/

/-- The state of the loop in `topological_sort`; the end of the work list comes first. -/
structure SortState where
  degrees : HashMap Nat Nat
  workList : List Nat
  order : List Nat

namespace SCCGraph

variable (g : SCCGraph)

/-- One component less before `succ`; a degree below zero is a panic. -/
def lowerDegree (st : SortState) (succ : Nat) : Option SortState := do
  let degree ← st.degrees.lookup succ
  guard (0 < degree)
  let st := { st with degrees := st.degrees.insert succ (degree - 1) }
  if degree - 1 = 0 then some { st with workList := succ :: st.workList } else some st

def topologicalLoop (hash : HashOrder Nat) : Nat → SortState → Option (List Nat)
  | 0, _ => none
  | fuel + 1, st =>
    match st.workList with
    | [] => some st.order
    | sccId :: workList => do
      let succs ← g.succs.lookup sccId
      let st ← (hash.iter sccId succs).foldlM lowerDegree ⟨st.degrees, workList, st.order ++ [sccId]⟩
      topologicalLoop hash fuel st

/-- The number of predecessors of every component. -/
def degrees : HashMap Nat Nat := HashMap.collect (g.preds.entries.map fun e => (e.1, e.2.length))

/-- The state before the loop: the components without predecessors are on the work list. -/
def sortStart (hash : HashOrder Nat) : SortState :=
  let workList := (hash.iter 0 g.degrees.keys).filter fun sccId => g.degrees.lookup sccId = some 0
  ⟨g.degrees, workList.reverse, []⟩

def topologicalSort (hash : HashOrder Nat) (fuel : Nat) : Option (List Nat) :=
  g.topologicalLoop hash fuel (g.sortStart hash)

/-- The functions in the order in which the pass goes through them: from the end of the sorted
components, each in the order of its set. -/
def visitOrder (order : List Nat) : List FunctionId :=
  order.reverse.flatMap fun sccId => (g.sccs[sccId]?).getD []

end SCCGraph

/-! ## Calls -/

namespace ModuleCore

variable (m : ModuleCore)

/-- The instructions of the blocks of a function, in order. -/
def blockInsts (func : FunctionId) : Option (List InstId) := do
  let fd ← m.func func
  let blocks ← fd.blockOrder.mapM fun b => fd.blocks.get? b
  some (blocks.flatMap fun bd => bd.insts)

/-- The callee of an instruction, if it is a call, is noted. -/
def insertCalled (func : FunctionId) (called : HashSet FunctionId) (i : InstId) :
    Option (HashSet FunctionId) := do
  let d ← m.inst ⟨func, i⟩
  match d.kind.asCall with
  | some (callee, _) => some (List.insert callee called)
  | none => some called

def getCalledFunctions (func : FunctionId) : Option (HashSet FunctionId) := do
  let insts ← m.blockInsts func
  insts.foldlM (m.insertCalled func) []

def buildCallGraph : Option CallGraph :=
  m.functionsInOrder.foldlM (fun graph func => do
    let called ← m.getCalledFunctions func
    let preds := HashMap.entryDefault graph.preds func
    some ⟨graph.succs.insert func called,
      called.foldl (fun preds id => HashMap.entryInsert preds id func) preds⟩) ⟨∅, ∅⟩

/-- What a call costs its score; the terminators of the blocks do not count. -/
def inlineCost (kind : InstKind) : Int :=
  match kind with
  | .call _ _ => 10
  | .branch _ _ => 2
  | _ => 1

/-- The score of a call; those above zero are inlined. -/
def analyzeInlinability (inst : InstRef) (scc : SCCGraph) : Option Int := do
  let instData ← m.inst inst
  let (callee, args) ← instData.kind.asCall
  let callerScc ← scc.sccIdMap.lookup inst.func
  let calleeScc ← scc.sccIdMap.lookup callee
  if callerScc = calleeScc then some (-2 ^ 63)
  else do
    let calleeFunc ← m.func callee
    if calleeFunc.isDeclare then some (-2 ^ 63)
    else do
      let insts ← m.blockInsts callee
      let score ← insts.foldlM (fun score i => do
        let d ← m.inst ⟨callee, i⟩
        some (score - inlineCost d.kind)) (30 : Int)
      some (score + args.length)

/-- The calls of a function that are inlined. -/
def inlinableInsts (scc : SCCGraph) (func : FunctionId) : Option (List InstRef) := do
  let fd ← m.func func
  if fd.insts.keys.length > 2000 then some []
  else do
    let insts ← m.blockInsts func
    insts.foldlM (fun inlinable i => do
      let inst : InstRef := ⟨func, i⟩
      let d ← m.inst inst
      match d.kind.asCall with
      | some _ => do
        let score ← m.analyzeInlinability inst scc
        if score > 0 then some (inlinable ++ [inst]) else some inlinable
      | none => some inlinable) []

end ModuleCore

end Ir
