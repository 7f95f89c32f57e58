import C0mpiler.Opt.Gvn
import C0mpiler.Opt.Renaming
import C0mpiler.Ir.UseListRun
import C0mpiler.Sem.FlowGraph
import Mathlib

/-!
# Value numbering preserves behaviour

An entry of the table names an instruction that, once it has been computed, has the value and the
type of its key (`Numbered`), and that is available at every instruction that is still to be looked
up (`PlacedAt`). So a replacement is one of `Renaming`, and both passes leave a well-formed function
that behaves as before: the local one always (`funcLocalGvn_correct`), the global one whenever
`build_dom_tree` has found the dominator tree (`funcGlobalGvn_correct`).
-/

namespace Ir

open ModuleCore

/-! ## Keys over a renamed code -/

theorem CanonValue.eval_mapOperands (C : Code) (σ : ValueId → ValueId) (E : Env) (regs : Regs) :
    CanonValue.eval (C.mapOperands σ) E regs = CanonValue.eval C E regs := by
  funext c
  cases c with
  | value v => exact congrFun (C.evalOperand_mapOperands σ E regs) v
  | _ => rfl

theorem CanonValue.ty_mapOperands (C : Code) (σ : ValueId → ValueId) (c : CanonValue) :
    c.ty (C.mapOperands σ) = c.ty C := by
  cases c with
  | value v => exact congrFun (C.operandTy_mapOperands σ) v
  | _ => rfl

theorem ExprKey.eval_mapOperands (C : Code) (σ : ValueId → ValueId) (E : Env) (regs : Regs)
    (K : ExprKey) : K.eval (C.mapOperands σ) E regs = K.eval C E regs := by
  cases K <;> simp only [ExprKey.eval, CanonValue.eval_mapOperands]

theorem ExprKey.ty_mapOperands (C : Code) (σ : ValueId → ValueId) (K : ExprKey) :
    K.ty (C.mapOperands σ) = K.ty C := by
  cases K <;> simp only [ExprKey.ty, CanonValue.ty_mapOperands]

/-! ## The arms of a visit -/

namespace GvnState

variable {debug : ValueId → String} {st : GvnState} {i : InstRef} {d : InstData}
  (hd : st.module.inst i = some d)
include hd

theorem visit_of_none (hkey : st.module.exprKey debug d.ty d.kind = some none) :
    st.visit debug i = some st := by
  simp only [visit, hd, hkey, Option.bind_eq_bind, Option.bind_some]

variable {K : ExprKey} (hkey : st.module.exprKey debug d.ty d.kind = some (some K))
include hkey

theorem visit_of_new (hlookup : st.valueTable.lookup K = none) :
    st.visit debug i = some { st with valueTable := st.valueTable.insert K (.inst i) } := by
  simp only [visit, hd, hkey, hlookup, Option.bind_eq_bind, Option.bind_some]

theorem visit_of_found {prev : ValueId} {m : ModuleCore}
    (hlookup : st.valueTable.lookup K = some prev)
    (hrun : st.module.replaceAllUsesWith (.inst i) prev = some m) :
    st.visit debug i = some { st with module := m, toRemove := st.toRemove ++ [i] } := by
  simp only [visit, hd, hkey, hlookup, hrun, Option.bind_eq_bind, Option.bind_some]

end GvnState

namespace Code

/-! ## The table -/

/-- Once computed, `y` has the value of the key `K`, and it has its type. -/
structure Numbered (C : Code) (f : FunctionId) (entry : BlockId) (K : ExprKey) (y : InstRef) :
    Prop where
  ty : C.operandTy (.inst y) = K.ty C
  value : ∀ E c, C.Standing f entry E c → C.Computed f entry y c →
    ∃ v, c.regs y = some v ∧ K.eval C E c.regs = some v

/-- `y` is one of the instructions `before` of `b`, or is computed in a strict dominator of `b`. -/
def PlacedAt (C : Code) (f : FunctionId) (entry : BlockId) (b : BlockId) (before : List InstId)
    (y : InstRef) : Prop :=
  ∃ a, C.ComputedIn f y a ∧ (a = b ∧ y.inst ∈ before ∨
    a ≠ b ∧ Flow.Dominates (C.Edge f) entry a b ∧ Flow.Reach (C.Edge f) entry b)

/-- The table in front of the instructions of `b` that come after `before`. -/
def TableHolds (C : Code) (f : FunctionId) (entry : BlockId) (b : BlockId) (before : List InstId)
    (table : HashMap ExprKey ValueId) : Prop :=
  ∀ K v, table.lookup K = some v →
    ∃ y, v = .inst y ∧ C.Numbered f entry K y ∧ C.PlacedAt f entry b before y

section

variable {C : Code} {f : FunctionId} {fd : FunctionData} {entry : BlockId}

theorem tableHolds_empty (b : BlockId) (before : List InstId) :
    C.TableHolds f entry b before ∅ := fun K v h => by
  rw [AList.lookup_empty] at h
  cases h

theorem TableHolds.mono {b : BlockId} {before before' : List InstId}
    {table : HashMap ExprKey ValueId} (h : C.TableHolds f entry b before table)
    (hsub : ∀ i ∈ before, i ∈ before') : C.TableHolds f entry b before' table := by
  intro K v hv
  obtain ⟨y, rfl, hy, a, ha, hcase⟩ := h K v hv
  exact ⟨y, rfl, hy, a, ha, hcase.imp_left fun ⟨hab, hmem⟩ => ⟨hab, hsub _ hmem⟩⟩

/-- A block hands its table to the blocks that it strictly dominates. -/
theorem TableHolds.child {b b' : BlockId} {before : List InstId} {table : HashMap ExprKey ValueId}
    (h : C.TableHolds f entry b before table) (hne : b ≠ b')
    (hdom : Flow.Dominates (C.Edge f) entry b b') (hreach : Flow.Reach (C.Edge f) entry b') :
    C.TableHolds f entry b' [] table := by
  intro K v hv
  obtain ⟨y, rfl, hy, a, ha, hcase⟩ := h K v hv
  refine ⟨y, rfl, hy, a, ha, Or.inr ?_⟩
  rcases hcase with ⟨rfl, -⟩ | ⟨hab, hdom', -⟩
  · exact ⟨hne, hdom, hreach⟩
  · refine ⟨fun heq => ?_, hdom'.trans hdom, hreach⟩
    subst heq
    exact hne (hdom.antisymm hdom' hreach)

/-! ## One instruction -/

variable {removed : List InstRef} {σ : ValueId → ValueId} {m : ModuleCore}
  {debug : ValueId → String} {i : InstId} {d : InstData} {K : ExprKey}

/-- The key of an instruction computes what the instruction computes, where its operands have been
computed. -/
theorem Renaming.key_eval (h : C.Renaming f entry removed σ m)
    (hkey : m.exprKey debug d.ty (d.kind.mapOperands σ) = some (some K)) {E : Env} {c : FlowState}
    (hc : C.Standing f entry E c)
    (hops : ∀ op ∈ d.kind.valueOperands, C.ComputedValue f entry op.1 c) :
    K.eval C E c.regs = evalPure E d.ty d.kind (C.evalOperand E c.regs) := by
  have heval := exprKey_eval hkey E c.regs
  rw [h.code, ExprKey.eval_mapOperands, evalPure_mapOperands, evalOperand_mapOperands] at heval
  rw [heval]
  exact evalPure_congr fun op hop => (h.values E c op.1 hc (hops op hop)).2

variable (hwf : C.WellFormed f fd) (h : C.Renaming f fd.entry removed σ m)
  (hd : C.inst ⟨f, i⟩ = some d)
  (hkey : m.exprKey debug d.ty (d.kind.mapOperands σ) = some (some K))
include hkey

theorem isPure_of_key : d.kind.isPure = true := by
  have hpure := exprKey_isPure hkey
  cases hk : d.kind <;> rw [hk] at hpure <;> first | rfl | cases hpure

include h hd

theorem Renaming.key_ty (htyped : C.Typed f) (hparent : d.parent.isSome) :
    K.ty C = some d.ty := by
  rw [← ExprKey.ty_mapOperands C σ, ← h.code]
  refine exprKey_ty hkey ?_ ?_
  · rw [h.code]
    exact htyped.consts
  · rw [h.code, operandTy_mapOperands]
    exact (htyped.insts i d hd hparent).mapOperands fun op _ => h.types op.1

include hwf

/-- An instruction that is looked up is numbered by its key. -/
theorem Renaming.numbered (htyped : C.Typed f) (hparent : d.parent.isSome) :
    C.Numbered f fd.entry K ⟨f, i⟩ where
  ty := by
    rw [h.key_ty hd hkey htyped hparent]
    exact congrArg (Option.map InstData.ty) hd
  value E c hc hcomputed := by
    have hpure := isPure_of_key hkey
    obtain ⟨v, hv, heval⟩ := hc.settled _ d hd hpure hcomputed
    refine ⟨v, hv, ?_⟩
    rw [h.key_eval hkey hc fun op hop =>
      hwf.computed_operand hc.located hd (InstKind.isPhi_of_isPure hpure) hcomputed hop, heval]

/-- An instruction whose key is in the table can be replaced by the one that is there. -/
theorem Renaming.replaceable (htyped : C.Typed f) {b : BlockId} (hparent : d.parent = some ⟨f, b⟩)
    {y : InstRef} (hy : C.Numbered f fd.entry K y) {before : List InstId}
    (hplaced : C.PlacedAt f fd.entry b before y)
    (hbefore : ∀ bd, C.block ⟨f, b⟩ = some bd → ∀ j ∈ before, [j, i].Sublist bd.insts) :
    C.Replaceable f fd.entry b i (.inst y) := by
  have hpure := isPure_of_key hkey
  have hphi := InstKind.isPhi_of_isPure hpure
  have hty : C.operandTy (.inst y) = some d.ty :=
    hy.ty.trans (h.key_ty hd hkey htyped (Option.isSome_of_eq_some hparent))
  have hin : C.ComputedIn f ⟨f, i⟩ b := ⟨rfl, d, hd, hparent⟩
  obtain ⟨-, bd, hb, -⟩ := hwf.placed i d _ hd hparent
  obtain ⟨a, ha, hcase⟩ := hplaced
  -- an earlier computation in the block, or one in a block that dominates
  have havail : C.AvailableAt f fd.entry (.inst y) b i := by
    intro j hj
    cases hj
    refine ⟨a, ha, hcase.imp ?_ fun hstrict => ⟨hstrict.1, hstrict.2.1⟩⟩
    exact fun ⟨hab, hmem⟩ => ⟨hab, bd, hb, Or.inr (Or.inl (hbefore bd hb _ hmem))⟩
  constructor
  -- `Replaceable`: the instruction, where the value is available, where it stands, its value, its
  -- progress
  · exact ⟨d, hd, hparent, hpure, hty, hty⟩
  · exact havail
  · rcases hcase with ⟨rfl, -⟩ | ⟨-, -, hreach⟩
    · refine Or.inr fun j hj => ?_
      cases hj
      exact ha
    · exact Or.inl hreach
  -- both instructions evaluate the same key
  · intro E c hc hcomputed
    have hyc : C.Computed f fd.entry y c :=
      AvailableAt.computed hwf hc.located hd hphi hcomputed fun a' ha' => by
        rw [ha'.unique hin]
        exact havail
    obtain ⟨v, hv, heval⟩ := hy.value E c hc hyc
    obtain ⟨v', hv', heval'⟩ := (h.numbered hwf hd hkey htyped
      (Option.isSome_of_eq_some hparent)).value E c hc hcomputed
    rw [heval] at heval'
    cases heval'
    exact hv.trans hv'.symm
  -- the step of `i` computes what `y` computed
  · intro E b' rest s hc
    obtain ⟨-, bd', front, hb', hinsts⟩ := hc.located
    have hmem : i ∈ bd'.insts := by rw [hinsts]; simp
    obtain rfl : b' = b := (hwf.computedIn hb' (Or.inr (Or.inl hmem))).unique hin
    have hyc := havail.computedValue hwf hc.located (Or.inl rfl) y rfl
    obtain ⟨v, -, heval⟩ := hy.value E _ hc hyc
    have hkeyEval := h.key_eval hkey hc fun op hop => hwf.computed_next hc.located hd hop
    exact ⟨d, v, hd, hkeyEval.symm.trans heval⟩

end

section

variable {C : Code} {f : FunctionId} {fd : FunctionData} (debug : ValueId → String) {b : BlockId}
  {bd : BlockData} (hwf : C.WellFormed f fd) (htyped : C.Typed f)
  (hb : C.block ⟨f, b⟩ = some bd)
include hwf htyped hb

/-- One visit. -/
theorem Renaming.visit {removed : List InstRef} {σ : ValueId → ValueId} {m : ModuleCore}
    (h : C.Renaming f fd.entry removed σ m) {before rest : List InstId} {i : InstId}
    (hinsts : bd.insts = before ++ i :: rest) {table : HashMap ExprKey ValueId}
    (htable : C.TableHolds f fd.entry b before table) :
    ∃ st σ', GvnState.visit debug ⟨m, table, removed⟩ ⟨f, i⟩ = some st ∧
      C.Renaming f fd.entry st.toRemove σ' st.module ∧
      C.TableHolds f fd.entry b (before ++ [i]) st.valueTable := by
  have hmem : i ∈ bd.insts := by rw [hinsts]; simp
  obtain ⟨d, hd, hparent, -⟩ := hwf.owned b bd i hb (Or.inr (Or.inl hmem))
  have hinserted := Option.isSome_of_eq_some hparent
  -- operands of the instruction have types, so they are defined
  have hdefined : ∀ op ∈ (d.kind.mapOperands σ).valueOperands, m.Defined op.1 := by
    intro op hop
    rw [InstKind.valueOperands_mapOperands] at hop
    obtain ⟨op', hop', rfl⟩ := List.mem_map.mp hop
    obtain ⟨ty, hty, -⟩ := hwf.operands i d hd hinserted op' hop'
    show (m.code.valueTy (σ op'.1)).isSome
    rw [h.code, valueTy_mapOperands, h.ssa.types, hty]
    rfl
  -- the instruction as the pass finds it
  obtain ⟨d', hd', hkind, hty⟩ : ∃ d', m.inst ⟨f, i⟩ = some d' ∧
      d'.kind = d.kind.mapOperands σ ∧ d'.ty = d.ty := by
    have hcode : m.code.inst ⟨f, i⟩ = some { d with kind := d.kind.mapOperands σ } := by
      rw [h.code, mapOperands_inst, hd, Option.map_some, if_pos hinserted]
    obtain ⟨d', hd', heq⟩ := inst_of_code_inst hcode
    have hfields := InstData.mk.inj heq
    exact ⟨d', hd', hfields.2.2.1, hfields.2.1⟩
  -- the key of the renamed instruction
  obtain ⟨key, hkey⟩ := exprKey_total debug d.ty hdefined
  have hkey' : m.exprKey debug d'.ty d'.kind = some key := by rw [hkind, hty, hkey]
  have hgrow : C.TableHolds f fd.entry b (before ++ [i]) table :=
    htable.mono fun j hj => List.mem_append_left _ hj
  -- without a key the table grows by nothing
  cases key with
  | none => exact ⟨_, σ, GvnState.visit_of_none hd' hkey', h, hgrow⟩
  | some K =>
    cases hlookup : table.lookup K with
    -- the first instruction with the key goes to the table
    | none =>
      refine ⟨_, σ, GvnState.visit_of_new hd' hkey' hlookup, h, fun K' v hv => ?_⟩
      -- the new entry
      by_cases hK : K' = K
      · subst hK
        rw [AList.lookup_insert] at hv
        cases hv
        exact ⟨_, rfl, h.numbered hwf hd hkey htyped hinserted, b, ⟨rfl, d, hd, hparent⟩,
          Or.inl ⟨rfl, by simp⟩⟩
      · rw [AList.lookup_insert_ne hK] at hv
        exact hgrow K' v hv
    -- a later one is replaced by the value of the table
    | some prev =>
      obtain ⟨y, rfl, hy, hplaced⟩ := htable K prev hlookup
      have hreplaceable := h.replaceable hwf hd hkey htyped hparent hy hplaced fun bd' hb' j hj => by
        rw [hb] at hb'
        cases hb'
        rw [hinsts]
        exact List.Sublist.append (List.singleton_sublist.mpr hj)
          (List.singleton_sublist.mpr List.mem_cons_self)
      -- an instruction is not the value of its own key
      have hne : (ValueId.inst ⟨f, i⟩) ≠ .inst y := by
        intro heq
        cases heq
        obtain ⟨a, ha, ⟨-, hfront⟩ | ⟨hab, -⟩⟩ := hplaced
        · have hnodup := (hwf.distinct b bd hb).2
          rw [hinsts] at hnodup
          exact (List.nodup_append.mp hnodup).2.2 i hfront i List.mem_cons_self rfl
        · exact hab (ha.unique ⟨rfl, d, hd, hparent⟩)
      obtain ⟨_, -, -, -, htyw, -⟩ := hreplaceable.inst
      have hdef : ∀ {w : ValueId} {ty : Ty}, C.valueTy w = some ty → m.Defined w := fun hw => by
        rw [Defined, h.code, valueTy_mapOperands, hw]
        rfl
      obtain ⟨m', hrun⟩ := replaceAllUsesWith_total h.indexed hne
        (hdef (congrArg (Option.map InstData.ty) hd)) (hdef htyw)
      exact ⟨_, _, GvnState.visit_of_found hd' hkey' hlookup hrun, h.replace hwf hreplaceable hrun,
        hgrow⟩

/-- The instructions of a block, or what is left of them. -/
theorem Renaming.visits {removed : List InstRef} {σ : ValueId → ValueId} {m : ModuleCore}
    (h : C.Renaming f fd.entry removed σ m) {before rest : List InstId}
    (hinsts : bd.insts = before ++ rest) {table : HashMap ExprKey ValueId}
    (htable : C.TableHolds f fd.entry b before table) :
    ∃ st σ', (rest.map (InstRef.mk f)).foldlM (GvnState.visit debug) ⟨m, table, removed⟩ = some st ∧
      C.Renaming f fd.entry st.toRemove σ' st.module ∧
      C.TableHolds f fd.entry b bd.insts st.valueTable := by
  induction rest generalizing removed σ m before table with
  | nil =>
    rw [List.append_nil] at hinsts
    exact ⟨_, σ, rfl, h, hinsts ▸ htable⟩
  | cons i rest ih =>
    obtain ⟨st, σ₁, hrun, h₁, htable₁⟩ := h.visit debug hwf htyped hb hinsts htable
    obtain ⟨st', σ', hrest, h', htable'⟩ :=
      ih h₁ (by rw [hinsts, List.append_cons]) htable₁
    exact ⟨st', σ', OptionFold.cons_eq_some.mpr ⟨st, hrun, hrest⟩, h', htable'⟩

omit debug hwf htyped in
/-- The instructions that the pass finds in a block are those of the code. -/
theorem Renaming.instsInOrder {removed : List InstRef} {σ : ValueId → ValueId} {m : ModuleCore}
    (h : C.Renaming f fd.entry removed σ m) :
    m.instsInOrder ⟨f, b⟩ = some (bd.insts.map (InstRef.mk f)) ∧
      m.phisInOrder ⟨f, b⟩ = some (bd.phis.map (InstRef.mk f)) := by
  have hcode : m.code.block ⟨f, b⟩ = some bd := by
    rw [h.code]
    exact hb
  obtain ⟨bd', hb', rfl⟩ := block_of_code_block hcode
  rw [ModuleCore.instsInOrder, ModuleCore.phisInOrder, hb']
  exact ⟨rfl, rfl⟩

end

/-! ## The dominator tree -/

section

variable {C : Code} {f : FunctionId} {fd : FunctionData}
  {cfg : ControlFlowGraph} {dfs : DFSResult} {t : DominatorTree}

/-- A child in the dominator tree is strictly dominated by its parent and numbered after it. -/
theorem child_spec (hdfs : ControlFlowGraph.DFSResult.Spec cfg dfs) (ht : ControlFlowGraph.MeetTree cfg dfs t)
    (hid : cfg.IdomCorrect t) (hentry : cfg.entry = .block fd.entry)
    (hedges : ∀ x y, cfg.Edge x y ↔ ∃ p b, x = .block p ∧ y = .block b ∧ C.Edge f p b)
    {b : BlockId} {child : CFGNode}
    (hchild : child ∈ (t.children.lookup (.block b)).getD []) :
    ∃ b', child = .block b' ∧ child ∈ dfs.order ∧ b ≠ b' ∧
      Flow.Dominates (C.Edge f) fd.entry b b' ∧ Flow.Reach (C.Edge f) fd.entry b' ∧
      dfs.order.idxOf (.block b) < dfs.order.idxOf child := by
  obtain ⟨hidom, hne⟩ := (ht.mem_children _ _).mp hchild
  have hmem : child ∈ dfs.order := (ht.keys child).mp (Option.isSome_of_eq_some hidom)
  have hreach := (hdfs.tree.mem_iff child).mp hmem
  have hroot : child ≠ cfg.entry := by
    intro heq
    rw [heq, ht.entry] at hidom
    exact hne (heq.trans (Option.some.inj hidom))
  obtain ⟨d, hd, hclosest⟩ := hid child hreach hroot
  rw [hidom] at hd
  cases hd
  have hlt := hdfs.tree.anc_lt (hdfs.tree.anc_of_dominates hmem hclosest.1.1) hclosest.1.2
  rw [hentry] at hreach hclosest
  obtain ⟨b', rfl, hreach'⟩ := reach_block hedges hreach
  exact ⟨b', rfl, hmem, fun heq => hne (congrArg CFGNode.block heq.symm),
    dominates_of_cfg hedges hclosest.1.1, hreach', hlt⟩

/-- The walk from a block. The induction is on the fuel, which the numbers of the blocks below
never exceed. -/
theorem Renaming.walk (debug : ValueId → String) (hwf : C.WellFormed f fd) (htyped : C.Typed f)
    (hdfs : ControlFlowGraph.DFSResult.Spec cfg dfs) (ht : ControlFlowGraph.MeetTree cfg dfs t)
    (hid : cfg.IdomCorrect t) (hentry : cfg.entry = .block fd.entry)
    (hedges : ∀ x y, cfg.Edge x y ↔ ∃ p b, x = .block p ∧ y = .block b ∧ C.Edge f p b)
    (order : HashOrder CFGNode) (fuel : Nat) {b : BlockId} (hb : .block b ∈ dfs.order)
    (hfuel : dfs.order.length ≤ dfs.order.idxOf (.block b) + fuel)
    {table : HashMap ExprKey ValueId} (htable : C.TableHolds f fd.entry b [] table)
    {removed : List InstRef} {σ : ValueId → ValueId} {m : ModuleCore}
    (h : C.Renaming f fd.entry removed σ m) :
    ∃ acc σ', gvnDomWalk debug order f t fuel (.block b) table (m, removed) = some acc ∧
      C.Renaming f fd.entry acc.2 σ' acc.1 := by
  -- on the fuel: a child comes after its parent in the order
  induction fuel generalizing b table removed σ m with
  | zero =>
    have hlt : dfs.order.idxOf (.block b) < dfs.order.length := List.idxOf_lt_length_iff.mpr hb
    omega
  | succ fuel ih =>
    -- the blocks of the walk are reached
    have hreach : Flow.Reach (C.Edge f) fd.entry b := by
      have hcfg := (hdfs.tree.mem_iff _).mp hb
      rw [hentry] at hcfg
      obtain ⟨b', heq, hreach⟩ := reach_block hedges hcfg
      cases heq
      exact hreach
    -- so the block is there
    have hblock : (C.block ⟨f, b⟩).isSome := by
      refine hreach.induct (P := fun b => (C.block ⟨f, b⟩).isSome) ((hwf.blocks _).mp hwf.entry) ?_
      rintro u v - - ⟨slot, k, ⟨bd, i, d, hbu, hi, hd, rfl⟩, hslot⟩
      obtain ⟨d', hd', hparent, -⟩ := hwf.owned u bd i hbu (Or.inr (Or.inr hi))
      rw [hd] at hd'
      cases hd'
      exact hwf.targets i d hd (Option.isSome_of_eq_some hparent) _ hslot
    obtain ⟨bd, hbd⟩ := Option.isSome_iff_exists.mp hblock
    obtain ⟨hinsts, hphis⟩ := h.instsInOrder hbd
    -- the instructions of the block
    obtain ⟨st, σ₁, hrun, h₁, htable₁⟩ :=
      h.visits debug hwf htyped hbd (show bd.insts = [] ++ bd.insts from rfl) htable
    -- then the children, each with the table of the block
    obtain ⟨acc, hchildren, hacc⟩ := OptionFold.total_of_relates
      (fun acc child => gvnDomWalk debug order f t fuel child st.valueTable acc)
      (Q := fun x y => (∃ σ, C.Renaming f fd.entry x.2 σ x.1) → ∃ σ, C.Renaming f fd.entry y.2 σ y.1)
      (fun _ hx => hx) (fun _ _ _ hxy hyz hx => hyz (hxy hx))
      (l := order.iter (.block b) ((t.children.lookup (.block b)).getD []))
      (s := (st.module, st.toRemove))
      (fun child hchild s hs => by
        obtain ⟨σ₂, h₂⟩ := hs ⟨σ₁, h₁⟩
        -- a child of `b` is dominated by it
        obtain ⟨b', rfl, hmem, hne, hdom, hreach', hlt⟩ :=
          child_spec hdfs ht hid hentry hedges ((order.perm _ _).mem_iff.mp hchild)
        obtain ⟨acc, σ₃, hwalk, h₃⟩ := ih hmem (by omega) (htable₁.child hne hdom hreach') h₂
        exact ⟨acc, hwalk, fun _ => ⟨σ₃, h₃⟩⟩)
    obtain ⟨σ', h'⟩ := hacc ⟨σ₁, h₁⟩
    refine ⟨acc, σ', ?_, h'⟩
    simp only [gvnDomWalk, hphis, hinsts, hrun, Option.bind_eq_bind, Option.bind_some]
    exact hchildren

end

/-! ## Modules -/

/-- A typed function is typed after the substitution. -/
theorem Substitutes.typed {C : Code} {f : FunctionId} {fd : FunctionData} {σ : ValueId → ValueId}
    {erased : List InstRef} (h : C.Substitutes f fd.entry σ erased) (htyped : C.Typed f) :
    ((C.mapOperands σ).withoutInsts erased).Typed f where
  consts := htyped.consts
  insts i d' hd' hparent' := by
    obtain ⟨hi, d, hd, hty, hp, hk⟩ := of_inst_substituted hd'
    rw [hp] at hparent'
    rw [hk, if_pos hparent', hty]
    exact (htyped.insts i d hd hparent').mapOperands fun op hop => h.operandTy hd hparent' hi hop

end Code

namespace ModuleCore

/-- The use lists are exact, and every function with a body is well formed and typed. -/
structure Sound (m : ModuleCore) : Prop where
  indexed : m.Indexed
  functions : ∀ f fd, m.code.func f = some fd → fd.isDeclare = false →
    m.code.WellFormed f fd ∧ m.code.Typed f

/-- The module is sound, has the functions of before, and each of them behaves as before. -/
structure Preserves (m m' : ModuleCore) : Prop where
  sound : m'.Sound
  func : m'.code.func = m.code.func
  behaviour : ∀ f fd, m.code.func f = some fd → fd.isDeclare = false →
    m.code.BehavesAs m'.code f fd.entry

variable {m m' m'' : ModuleCore} (debug : ValueId → String) {f : FunctionId} {fd : FunctionData}

theorem Sound.preserves (h : m.Sound) : m.Preserves m :=
  ⟨h, rfl, fun f fd _ _ => .refl m.code f fd.entry⟩

theorem Preserves.trans (h : m.Preserves m') (h' : m'.Preserves m'') : m.Preserves m'' where
  sound := h'.sound
  func := h'.func.trans h.func
  behaviour f fd hf hdef :=
    (h.behaviour f fd hf hdef).trans (h'.behaviour f fd (by rw [h.func]; exact hf) hdef)

/-- After the deletions the module is as good as before the first replacement. -/
theorem preserves_of_renaming (hm : m.Sound) (hf : m.code.func f = some fd)
    (hdef : fd.isDeclare = false) {removed : List InstRef} {σ : ValueId → ValueId}
    (h : m.code.Renaming f fd.entry removed σ m') :
    ∃ m'', removed.foldlM eraseIfUnused m' = some m'' ∧ m.Preserves m'' := by
  obtain ⟨m'', erased, hrun, hindexed, hcode, hall⟩ := h.eraseUnused (hm.functions f fd hf hdef).1
  have hsubst : ∀ g fdg, m.code.func g = some fdg →
      m.code.Substitutes g fdg.entry σ erased ∧ m.code.KeepsSsa g fdg.entry σ := by
    intro g fdg hg
    refine hall g fdg.entry fun heq => ?_
    rw [heq, hf] at hg
    cases hg
    rfl
  refine ⟨m'', hrun, ⟨hindexed, fun g fdg hg hdefg => ?_⟩, ?_, fun g fdg hg hdefg => ?_⟩
  · rw [hcode] at hg ⊢
    obtain ⟨hwf, htyped⟩ := hm.functions g fdg hg hdefg
    obtain ⟨hsub, hssa⟩ := hsubst g fdg hg
    exact ⟨hsub.wellFormed hwf hssa, hsub.typed htyped⟩
  · rw [hcode]
    rfl
  · rw [hcode]
    exact (hsubst g fdg hg).1.behavesAs (hm.functions g fdg hg hdefg).1

theorem blockLocalCse_preserves (hm : m.Sound) (hf : m.code.func f = some fd)
    (hdef : fd.isDeclare = false) {b : BlockId} (hb : b ∈ fd.blockOrder) :
    ∃ m', m.blockLocalCse debug ⟨f, b⟩ = some m' ∧ m.Preserves m' := by
  obtain ⟨hwf, htyped⟩ := hm.functions f fd hf hdef
  obtain ⟨bd, hbd⟩ := Option.isSome_iff_exists.mp ((hwf.blocks b).mp hb)
  have hstart := Code.renaming_id hm.indexed f fd.entry
  obtain ⟨st, σ, hrun, h, -⟩ := hstart.visits debug hwf htyped hbd
    (show bd.insts = [] ++ bd.insts from rfl) (Code.tableHolds_empty b [])
  obtain ⟨m', herase, hpres⟩ := preserves_of_renaming hm hf hdef h
  refine ⟨m', ?_, hpres⟩
  simp only [blockLocalCse, (hstart.instsInOrder hbd).1, hrun, Option.bind_eq_bind, Option.bind_some]
  exact herase

theorem funcLocalGvn_preserves (hm : m.Sound) (hf : (m.func f).isSome) :
    ∃ m', m.funcLocalGvn debug f = some m' ∧ m.Preserves m' := by
  obtain ⟨fd, hfd⟩ := Option.isSome_iff_exists.mp hf
  have hcode : m.code.func f = some fd.header := by
    show Option.map FunctionData.header (m.func f) = _
    rw [hfd]
    rfl
  cases hdef : fd.isDeclare with
  | true =>
    refine ⟨m, ?_, hm.preserves⟩
    simp only [funcLocalGvn, hfd, hdef, Option.bind_eq_bind, Option.bind_some, if_true]
  | false =>
    obtain ⟨m', hrun, hpres⟩ := OptionFold.total_of_relates
      (fun m block => blockLocalCse m debug block)
      (Q := fun a b => a.Sound → a.Preserves b) (fun _ ha => ha.preserves)
      (fun _ _ _ hab hbc ha => (hab ha).trans (hbc (hab ha).sound))
      (l := fd.blockOrder.map (BlockRef.mk f)) (s := m)
      (fun b hb s hs => by
        obtain ⟨b, hmem, rfl⟩ := List.mem_map.mp hb
        have hpres := hs hm
        obtain ⟨s', hs', hpres'⟩ := blockLocalCse_preserves debug hpres.sound
          (show s.code.func f = some fd.header by rw [hpres.func]; exact hcode) hdef hmem
        exact ⟨s', hs', fun _ => hpres'⟩)
    refine ⟨m', ?_, hpres hm⟩
    simp only [funcLocalGvn, blocksInOrder, hfd, hdef, Option.bind_eq_bind, Option.bind_some,
      Bool.false_eq_true, if_false]
    exact hrun

/-- **Local value numbering preserves behaviour**: on a module of well-formed functions the pass
returns, the functions are well formed again, and each shows what it showed before. -/
theorem optLocalGvn_correct (hm : m.Sound) :
    ∃ m', m.optLocalGvn debug = some m' ∧ m.Preserves m' := by
  obtain ⟨m', hrun, hpres⟩ := OptionFold.total_of_relates
    (fun m id => funcLocalGvn m debug id)
    (Q := fun a b => a.Sound → a.Preserves b) (fun _ ha => ha.preserves)
    (fun _ _ _ hab hbc ha => (hab ha).trans (hbc (hab ha).sound))
    (l := m.functionsInOrder) (s := m)
    (fun f hf s hs => by
      have hpres := hs hm
      have hsome : (s.func f).isSome := by
        have hfunc := congrArg Option.isSome (congrFun hpres.func f)
        rw [show s.code.func f = (s.func f).map FunctionData.header from rfl,
          show m.code.func f = (m.func f).map FunctionData.header from rfl, Option.isSome_map,
          Option.isSome_map] at hfunc
        rw [hfunc]
        exact mem_functionsInOrder.mp hf
      obtain ⟨s', hs', hpres'⟩ := funcLocalGvn_preserves debug hpres.sound hsome
      exact ⟨s', hs', fun _ => hpres'⟩)
  exact ⟨m', hrun, hpres hm⟩

/-- **Global value numbering preserves behaviour** where `build_dom_tree` has found the dominator
tree: the pass over a function returns, every function is well formed again and shows what it
showed before. -/
theorem funcGlobalGvn_correct (domOrder order : HashOrder CFGNode) (hm : m.Sound) (hf : m.code.func f = some fd)
    (hdef : fd.isDeclare = false)
    (htree : ∀ cfg t, m.buildCfg f = some cfg → cfg.buildDomTree domOrder = some t →
      cfg.IdomCorrect t) :
    ∃ m', m.funcGlobalGvn debug domOrder order f = some m' ∧ m.Preserves m' := by
  obtain ⟨hwf, htyped⟩ := hm.functions f fd hf hdef
  obtain ⟨cfg, hcfg, hentry, hedges⟩ := exists_buildCfg hwf
  obtain ⟨dfs, hdfs, hspec⟩ := cfg.buildDfn_spec
  obtain ⟨t, htrun, ht⟩ :=
    ControlFlowGraph.buildDomTree_spec (ControlFlowGraph.mirrored_buildCfg hcfg) domOrder hdfs hspec
  have hlen : dfs.order.length ≤ t.idom.keys.length := by
    refine (hspec.tree.nodup.subperm fun v hv => ?_).length_le
    exact AList.mem_keys.mp (AList.lookup_isSome.mp ((ht.keys v).mpr hv))
  have hroot : .block fd.entry ∈ dfs.order := by
    rw [← hentry]
    exact (hspec.tree.mem_iff _).mpr (.refl _)
  obtain ⟨acc, σ, hwalk, h⟩ := (Code.renaming_id hm.indexed f fd.entry).walk debug hwf htyped hspec ht
    (htree cfg t hcfg htrun) hentry hedges order (t.idom.keys.length + 1) hroot (by omega)
    (Code.tableHolds_empty fd.entry [])
  obtain ⟨m', herase, hpres⟩ := preserves_of_renaming hm hf hdef h
  refine ⟨m', ?_, hpres⟩
  obtain ⟨fd, hfd, rfl⟩ := Option.map_eq_some_iff.mp hf
  have hdef : fd.isDeclare = false := hdef
  simp only [funcGlobalGvn, hfd, hdef, hcfg, htrun, Option.bind_eq_bind, Option.bind_some,
    Bool.false_eq_true, if_false]
  rw [show fd.entry = fd.header.entry from rfl, hwalk]
  exact herase

/-! ## A sum that two blocks compute -/

/-- A sum in the entry block and, its operands swapped and not, in the block that follows. -/
def sharedSumEdits : List Edit :=
  [.createFunction "f" ⟨.int 32, []⟩, .appendBlock 1 none,
    .addConst (.int 32) (.int ⟨1, 32⟩), .addConst (.int 32) (.int ⟨2, 32⟩),
    .newInst 1 (.int 32) (.binary .add (.const 1) (.const 2)) none, .appendInst ⟨1, 1⟩ ⟨1, 1⟩,
    .newInst 1 .void (.branch 2 none) none, .setTerminator ⟨1, 1⟩ ⟨1, 2⟩,
    .newInst 1 (.int 32) (.binary .add (.const 2) (.const 1)) none, .appendInst ⟨1, 2⟩ ⟨1, 3⟩,
    .newInst 1 (.int 32) (.binary .add (.const 1) (.const 2)) none, .appendInst ⟨1, 2⟩ ⟨1, 4⟩,
    .newInst 1 .void (.ret (some (.inst ⟨1, 4⟩))) none, .setTerminator ⟨1, 2⟩ ⟨1, 5⟩]

def sharedSum : ModuleCore := (runEdits sharedSumEdits).getD .new

theorem sharedSum_inst {i : InstId} {d : InstData} (hd : sharedSum.code.inst ⟨1, i⟩ = some d) :
    i = 1 ∧ d = ⟨some ⟨1, 1⟩, .int 32, .binary .add (.const 1) (.const 2), [], none⟩ ∨
    i = 2 ∧ d = ⟨some ⟨1, 1⟩, .void, .branch 2 none, [], none⟩ ∨
    i = 3 ∧ d = ⟨some ⟨1, 2⟩, .int 32, .binary .add (.const 2) (.const 1), [], none⟩ ∨
    i = 4 ∧ d = ⟨some ⟨1, 2⟩, .int 32, .binary .add (.const 1) (.const 2), [], none⟩ ∨
    i = 5 ∧ d = ⟨some ⟨1, 2⟩, .void, .ret (some (.inst ⟨1, 4⟩)), [], none⟩ := by
  rcases i with _ | _ | _ | _ | _ | _ | i
  · cases hd
  · cases hd
    exact Or.inl ⟨rfl, rfl⟩
  · cases hd
    exact Or.inr (Or.inl ⟨rfl, rfl⟩)
  · cases hd
    exact Or.inr (Or.inr (Or.inl ⟨rfl, rfl⟩))
  · cases hd
    exact Or.inr (Or.inr (Or.inr (Or.inl ⟨rfl, rfl⟩)))
  · cases hd
    exact Or.inr (Or.inr (Or.inr (Or.inr ⟨rfl, rfl⟩)))
  · cases hd

theorem sharedSum_block {b : BlockId} {bd : BlockData}
    (hb : sharedSum.code.block ⟨1, b⟩ = some bd) :
    b = 1 ∧ bd.phis = [] ∧ bd.insts = [1] ∧ bd.terminator = some 2 ∨
    b = 2 ∧ bd.phis = [] ∧ bd.insts = [3, 4] ∧ bd.terminator = some 5 := by
  rcases b with _ | _ | _ | b
  · cases hb
  · cases hb
    exact Or.inl ⟨rfl, rfl, rfl, rfl⟩
  · cases hb
    exact Or.inr ⟨rfl, rfl, rfl, rfl⟩
  · cases hb

theorem sharedSum_holdsAs {b : BlockId} {bd : BlockData} {i : InstId} {d : InstData}
    (hb : sharedSum.code.block ⟨1, b⟩ = some bd) (hd : sharedSum.code.inst ⟨1, i⟩ = some d)
    (hparent : d.parent = some ⟨1, b⟩) : bd.HoldsAs i d.kind := by
  rcases sharedSum_inst hd with ⟨rfl, rfl⟩ | ⟨rfl, rfl⟩ | ⟨rfl, rfl⟩ | ⟨rfl, rfl⟩ |
      ⟨rfl, rfl⟩ <;> cases hparent <;>
    rcases sharedSum_block hb with ⟨hb', hphis, hinsts, hterm⟩ | ⟨hb', hphis, hinsts, hterm⟩ <;>
    first
    | exact absurd hb' (by decide)
    | simp [BlockData.HoldsAs, hphis, hinsts, hterm, InstKind.isPhi, InstKind.isTerminator]

theorem sharedSum_func {f : FunctionId} {fd : FunctionData}
    (hf : sharedSum.code.func f = some fd) :
    f = 1 ∧ fd = ⟨"f", ⟨.int 32, []⟩, .empty, .empty, .empty, [1, 2], 1, false⟩ := by
  rcases f with _ | _ | f
  · cases hf
  · cases hf
    exact ⟨rfl, rfl⟩
  · cases hf

theorem sharedSum_runs : runEdits sharedSumEdits = some sharedSum := rfl

theorem sharedSum_edge {p b : BlockId} (h : sharedSum.code.Edge 1 p b) : p = 1 ∧ b = 2 := by
  obtain ⟨slot, k, ⟨bd, t, d, hb, ht, hd, rfl⟩, hslot⟩ := h
  rcases sharedSum_block hb with ⟨rfl, -, -, hterm⟩ | ⟨rfl, -, -, hterm⟩
  · rw [hterm] at ht
    cases ht
    cases hd
    cases List.mem_singleton.mp hslot
    exact ⟨rfl, rfl⟩
  · rw [hterm] at ht
    cases ht
    cases hd
    cases hslot

theorem wellFormed_sharedSum : sharedSum.code.WellFormed 1
    ⟨"f", ⟨.int 32, []⟩, .empty, .empty, .empty, [1, 2], 1, false⟩ where
  func := rfl
  isDefined := rfl
  nodup := by decide
  entry := by decide
  blocks b := by
    refine ⟨fun hb => ?_, fun hb => ?_⟩
    · simp only [List.mem_cons, List.not_mem_nil, or_false] at hb
      rcases hb with rfl | rfl <;> rfl
    · obtain ⟨bd, hbd⟩ := Option.isSome_iff_exists.mp hb
      rcases sharedSum_block hbd with ⟨rfl, -⟩ | ⟨rfl, -⟩ <;> decide
  terminated b bd hb := by
    rcases sharedSum_block hb with ⟨-, -, -, hterm⟩ | ⟨-, -, -, hterm⟩ <;> exact ⟨_, hterm⟩
  distinct b bd hb := by
    rcases sharedSum_block hb with ⟨-, hphis, hinsts, -⟩ | ⟨-, hphis, hinsts, -⟩ <;>
      rw [hphis, hinsts] <;> decide
  owned b bd i hb hholds := by
    rcases sharedSum_block hb with ⟨rfl, hphis, hinsts, hterm⟩ | ⟨rfl, hphis, hinsts, hterm⟩ <;>
      rw [BlockData.Holds, hphis, hinsts, hterm] at hholds <;>
      simp only [List.not_mem_nil, List.mem_cons, or_false, Option.some.injEq, false_or] at hholds
    · rcases hholds with rfl | rfl <;> exact ⟨_, rfl, rfl, sharedSum_holdsAs hb rfl rfl⟩
    · rcases hholds with (rfl | rfl) | rfl <;> exact ⟨_, rfl, rfl, sharedSum_holdsAs hb rfl rfl⟩
  placed i d b hd hparent := by
    rcases sharedSum_inst hd with ⟨rfl, rfl⟩ | ⟨rfl, rfl⟩ | ⟨rfl, rfl⟩ | ⟨rfl, rfl⟩ |
      ⟨rfl, rfl⟩ <;> cases hparent <;>
      exact ⟨rfl, _, rfl, sharedSum_holdsAs rfl hd rfl⟩
  targets i d hd _ op hop := by
    rcases sharedSum_inst hd with ⟨rfl, rfl⟩ | ⟨rfl, rfl⟩ | ⟨rfl, rfl⟩ | ⟨rfl, rfl⟩ |
      ⟨rfl, rfl⟩
    · cases hop
    · cases List.mem_singleton.mp hop
      rfl
    · cases hop
    · cases hop
    · cases hop
  operands i d hd _ op hop := by
    rcases sharedSum_inst hd with ⟨rfl, rfl⟩ | ⟨rfl, rfl⟩ | ⟨rfl, rfl⟩ | ⟨rfl, rfl⟩ |
      ⟨rfl, rfl⟩ <;>
      simp only [InstKind.valueOperands, List.mem_cons, List.not_mem_nil, or_false] at hop
    · rcases hop with rfl | rfl <;> exact ⟨.int 32, rfl, Ty.noConfusion⟩
    · rcases hop with rfl | rfl <;> exact ⟨.int 32, rfl, Ty.noConfusion⟩
    · rcases hop with rfl | rfl <;> exact ⟨.int 32, rfl, Ty.noConfusion⟩
    · cases hop
      exact ⟨.int 32, rfl, Ty.noConfusion⟩
  available i d b hd hparent _ op hop := by
    rcases sharedSum_inst hd with ⟨rfl, rfl⟩ | ⟨rfl, rfl⟩ | ⟨rfl, rfl⟩ | ⟨rfl, rfl⟩ |
      ⟨rfl, rfl⟩ <;>
      simp only [InstKind.valueOperands, List.mem_cons, List.not_mem_nil, or_false] at hop
    · rcases hop with rfl | rfl <;> exact fun j hj => by cases hj
    · rcases hop with rfl | rfl <;> exact fun j hj => by cases hj
    · rcases hop with rfl | rfl <;> exact fun j hj => by cases hj
    · cases hop
      cases hparent
      intro j hj
      cases hj
      have hmem : 4 ∈ [3, 4] := by decide
      exact ⟨2, ⟨rfl, _, rfl, rfl⟩, Or.inl ⟨rfl, _, rfl, Or.inr (Or.inr ⟨rfl, Or.inr hmem⟩)⟩⟩
  incoming i d incomings idx hd _ hk := by
    rcases sharedSum_inst hd with ⟨rfl, rfl⟩ | ⟨rfl, rfl⟩ | ⟨rfl, rfl⟩ | ⟨rfl, rfl⟩ |
      ⟨rfl, rfl⟩ <;> cases hk
  returns i d value hd _ hk := by
    rcases sharedSum_inst hd with ⟨rfl, rfl⟩ | ⟨rfl, rfl⟩ | ⟨rfl, rfl⟩ | ⟨rfl, rfl⟩ |
      ⟨rfl, rfl⟩ <;> cases hk
    exact ⟨rfl, rfl⟩

theorem typed_sharedSum : sharedSum.code.Typed 1 where
  consts c d hd := by
    rcases c with _ | _ | _ | c
    · cases hd
    · cases hd
      exact ⟨fun ci hk => by cases hk; rfl, fun hk => by cases hk⟩
    · cases hd
      exact ⟨fun ci hk => by cases hk; rfl, fun hk => by cases hk⟩
    · cases hd
  insts i d hd _ := by
    rcases sharedSum_inst hd with ⟨rfl, rfl⟩ | ⟨rfl, rfl⟩ | ⟨rfl, rfl⟩ | ⟨rfl, rfl⟩ |
      ⟨rfl, rfl⟩
    · exact ⟨rfl, fun _ => rfl⟩
    · trivial
    · exact ⟨rfl, fun _ => rfl⟩
    · exact ⟨rfl, fun _ => rfl⟩
    · trivial

theorem sound_sharedSum : sharedSum.Sound where
  indexed := (reachable_of_plain (by simp [sharedSumEdits, Edit.plain]) sharedSum_runs).indexed
  functions f fd hf _ := by
    obtain ⟨rfl, rfl⟩ := sharedSum_func hf
    exact ⟨wellFormed_sharedSum, typed_sharedSum⟩

/-- The sum in the second block is replaced by the first one and erased. -/
theorem funcGlobalGvn_sharedSum : ∃ m',
    sharedSum.funcGlobalGvn (fun _ => "") (.asStored _) (.asStored _) 1 = some m' ∧
      sharedSum.Preserves m' ∧ m'.inst ⟨1, 3⟩ = none := by
  have hidom : (sharedSum.buildCfg 1).bind (fun cfg => (cfg.buildDomTree (.asStored _)).map fun t =>
      t.idom.lookup (.block 2)) = some (some (.block 1)) := by decide
  have herased : (sharedSum.funcGlobalGvn (fun _ => "") (.asStored _) (.asStored _) 1).bind
      (fun m => m.inst ⟨1, 3⟩) = none := rfl
  obtain ⟨cfg, hcfg, hentry, hedges⟩ := exists_buildCfg wellFormed_sharedSum
  obtain ⟨m', hrun, hpres⟩ := funcGlobalGvn_correct (fun _ => "") (.asStored _)
    (.asStored _) sound_sharedSum rfl rfl fun cfg' t hcfg' ht b hreach hne => by
      rw [hcfg] at hcfg'
      cases hcfg'
      rw [hcfg, Option.bind_some, ht, Option.map_some] at hidom
      rw [hentry] at hreach hne
      obtain ⟨b, rfl, hreach'⟩ := reach_block hedges hreach
      have htwo : b ≠ 1 → b = 2 := hreach'.induct (P := fun b => b ≠ 1 → b = 2)
        (fun h => absurd rfl h) fun u v _ _ he _ => (sharedSum_edge he).2
      -- the only other block
      obtain rfl : b = 2 := htwo fun heq => hne (congrArg CFGNode.block heq)
      refine ⟨.block 1, Option.some.inj hidom, ⟨?_, by simp⟩, fun a ha => ?_⟩
      · rw [hentry]
        exact .root _ _
      · rw [hentry] at ha ⊢
        -- a path to it
        have hpath : Flow.Path cfg.Edge (.block 1) (.block 2) [.block 1, .block 2] :=
          .snoc .nil ((hedges _ _).mpr ⟨1, 2, rfl, rfl, .branchThen, _, ⟨_, _, _, rfl, rfl, rfl, rfl⟩,
            List.mem_singleton_self _⟩)
        have hmem := ha.1 _ hpath
        simp only [List.mem_cons, List.not_mem_nil, or_false, ha.2] at hmem
        rw [hmem]
        exact .refl _ _
  refine ⟨m', hrun, hpres, ?_⟩
  rw [hrun] at herased
  exact herased

/-- The second sum of the second block is replaced by the one before it and erased. -/
theorem optLocalGvn_sharedSum :
    ∃ m', sharedSum.optLocalGvn (fun _ => "") = some m' ∧ sharedSum.Preserves m' ∧
      (m'.inst ⟨1, 3⟩).isSome ∧ m'.inst ⟨1, 4⟩ = none := by
  obtain ⟨m', hrun, hpres⟩ := optLocalGvn_correct (fun _ => "") sound_sharedSum
  have horder : sharedSum.functionsInOrder = [1] :=
    List.perm_singleton.mp (List.mergeSort_perm [1] _)
  have hkept : (sharedSum.optLocalGvn (fun _ => "")).map (fun m =>
      ((m.inst ⟨1, 3⟩).isSome, (m.inst ⟨1, 4⟩).isNone)) = some (true, true) := by
    rw [optLocalGvn, horder]
    rfl
  rw [hrun, Option.map_some, Option.some.injEq, Prod.mk.injEq] at hkept
  exact ⟨m', hrun, hpres, hkept.1, Option.isNone_iff_eq_none.mp hkept.2⟩

end ModuleCore

end Ir
