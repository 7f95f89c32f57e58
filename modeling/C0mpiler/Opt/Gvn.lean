import C0mpiler.Ir.Cfg
import C0mpiler.Ir.EditsTotal
import C0mpiler.Opt.LocalMemory
import C0mpiler.Opt.Strength
import C0mpiler.Sem.Ssa
import Mathlib

/-!
# Value numbering

The two value numbering passes, `gvn.rs` within a block and `global_gvn.rs` along the dominator
tree. Both key an instruction that only computes a value by its operation and its operands
(`exprKey`), look the key up in a table of the instructions seen before, and replace the
instruction by the one they find. Equal keys mean equal values (`exprKey_eval`) and equal types
(`exprKey_ty`).

The order of two values in a key of a commutative operation is by `format!("{:?}")`, which is the
parameter `debug` here: any rendering will do.
-/

namespace Ir

/-- A value as it stands in a key: integer constants by what they are, not by their key. -/
inductive CanonValue where
  | const (bitWidth value : Nat)
  | null
  | undef (ty : Ty)
  | value (v : ValueId)
  deriving DecidableEq

inductive ExprKey where
  | binary (op : BinaryOpcode) (lhs rhs : CanonValue)
  | icmp (op : ICmpCode) (lhs rhs : CanonValue)
  | trunc (value : CanonValue) (ty : Ty)
  | zext (value : CanonValue) (ty : Ty)
  | sext (value : CanonValue) (ty : Ty)
  | ptrToInt (ptr : CanonValue) (ty : Ty)
  | gep (baseTy : Ty) (base : CanonValue) (indices : List CanonValue)
  | select (cond thenVal elseVal : CanonValue)
  deriving DecidableEq

def CanonValue.rank : CanonValue → Nat
  | .const _ _ => 0
  | .null => 1
  | .undef _ => 2
  | .value _ => 3

/-- `cmp_canon_gvn`. -/
def cmpCanonGvn (debug : ValueId → String) (a b : CanonValue) : Bool :=
  if a.rank ≠ b.rank then decide (a.rank ≤ b.rank)
  else match a, b with
    | .const w₁ v₁, .const w₂ v₂ => decide (w₁ < w₂ ∨ w₁ = w₂ ∧ v₁ ≤ v₂)
    | .value v₁, .value v₂ => decide (debug v₁ ≤ debug v₂)
    | _, _ => true

/-- The operations whose operands are put in order. -/
def BinaryOpcode.commutes : BinaryOpcode → Bool
  | .add | .mul | .and | .or | .xor => true
  | _ => false

def ICmpCode.commutes : ICmpCode → Bool
  | .eq | .ne => true
  | _ => false

/-- Two operands in the order of a key. -/
def canonPair (debug : ValueId → String) (commutes : Bool) (lk rk : CanonValue) :
    CanonValue × CanonValue :=
  if commutes then
    if cmpCanonGvn debug lk rk then (lk, rk) else (rk, lk)
  else (lk, rk)

namespace ModuleCore

/-- `canon_gvn`. -/
def canonGvn (m : ModuleCore) : ValueId → Option CanonValue
  | .const c => do
    let data ← m.constData c
    match data.kind with
    | .int ci => some (.const ci.bitWidth ci.value)
    | .null => some .null
    | .undef => some (.undef data.ty)
    | _ => some (.value (.const c))
  | v => some (.value v)

/-- The key of an instruction of type `ty`, for those that have one. -/
def exprKey (m : ModuleCore) (debug : ValueId → String) (ty : Ty) :
    InstKind → Option (Option ExprKey)
  | .binary op lhs rhs => do
    let lk ← m.canonGvn lhs
    let rk ← m.canonGvn rhs
    let (lk, rk) := canonPair debug op.commutes lk rk
    some (some (.binary op lk rk))
  | .icmp op lhs rhs => do
    let lk ← m.canonGvn lhs
    let rk ← m.canonGvn rhs
    let (lk, rk) := canonPair debug op.commutes lk rk
    some (some (.icmp op lk rk))
  | .trunc value => do
    some (some (.trunc (← m.canonGvn value) ty))
  | .zext value => do
    some (some (.zext (← m.canonGvn value) ty))
  | .sext value => do
    some (some (.sext (← m.canonGvn value) ty))
  | .ptrToInt ptr => do
    some (some (.ptrToInt (← m.canonGvn ptr) ty))
  | .getElementPtr baseTy base indices => do
    let baseK ← m.canonGvn base
    let idxK ← indices.mapM m.canonGvn
    some (some (.gep baseTy baseK idxK))
  | .select cond thenVal elseVal => do
    some (some (.select (← m.canonGvn cond) (← m.canonGvn thenVal) (← m.canonGvn elseVal)))
  | _ => some none

end ModuleCore

/-! ## The passes -/

structure GvnState where
  module : ModuleCore
  valueTable : HashMap ExprKey ValueId
  toRemove : List InstRef

/-- One instruction of a block. -/
def GvnState.visit (debug : ValueId → String) (st : GvnState) (inst : InstRef) :
    Option GvnState := do
  let d ← st.module.inst inst
  match ← st.module.exprKey debug d.ty d.kind with
  | none => some st
  | some k =>
    match st.valueTable.lookup k with
    | some prev => do
      let m ← st.module.replaceAllUsesWith (.inst inst) prev
      some { st with module := m, toRemove := st.toRemove ++ [inst] }
    | none => some { st with valueTable := st.valueTable.insert k (.inst inst) }

namespace ModuleCore

/-- `gvn_dom_walk`; `fuel` bounds the depth of the tree, and `order` is the order in which the
children of a block are visited. -/
def gvnDomWalk (debug : ValueId → String) (order : HashOrder CFGNode) (func : FunctionId)
    (domTree : DominatorTree) :
    Nat → CFGNode → HashMap ExprKey ValueId → ModuleCore × List InstRef →
      Option (ModuleCore × List InstRef)
  | 0, _, _, _ => none
  | fuel + 1, node, parentTable, (m, toRemove) =>
    let children := order.iter node ((domTree.children.lookup node).getD [])
    match node with
    | .block block => do
      let _ ← m.phisInOrder ⟨func, block⟩
      let insts ← m.instsInOrder ⟨func, block⟩
      let st ← insts.foldlM (GvnState.visit debug) ⟨m, parentTable, toRemove⟩
      children.foldlM (fun acc child =>
        gvnDomWalk debug order func domTree fuel child st.valueTable acc) (st.module, st.toRemove)
    | _ =>
      children.foldlM (fun acc child =>
        gvnDomWalk debug order func domTree fuel child parentTable acc) (m, toRemove)

/-- `func_global_gvn`; `domOrder` is the order in which `build_dom_tree` visits its sets. -/
def funcGlobalGvn (m : ModuleCore) (debug : ValueId → String) (domOrder order : HashOrder CFGNode)
    (id : FunctionId) : Option ModuleCore := do
  let fd ← m.func id
  if fd.isDeclare then some m
  else do
    let cfg ← m.buildCfg id
    let domTree ← cfg.buildDomTree domOrder
    let (m, toRemove) ← gvnDomWalk debug order id domTree (domTree.idom.keys.length + 1)
      (.block fd.entry) ∅ (m, [])
    toRemove.foldlM eraseIfUnused m

/-- `opt_global_gvn`. -/
def optGlobalGvn (m : ModuleCore) (debug : ValueId → String) (domOrder order : HashOrder CFGNode) :
    Option ModuleCore :=
  m.functionsInOrder.foldlM (fun m id => m.funcGlobalGvn debug domOrder order id) m

/-- `block_local_cse`; its keys are those of the global pass. -/
def blockLocalCse (m : ModuleCore) (debug : ValueId → String) (block : BlockRef) :
    Option ModuleCore := do
  let insts ← m.instsInOrder block
  let st ← insts.foldlM (GvnState.visit debug) ⟨m, ∅, []⟩
  st.toRemove.foldlM eraseIfUnused st.module

/-- `func_local_gvn`. -/
def funcLocalGvn (m : ModuleCore) (debug : ValueId → String) (id : FunctionId) :
    Option ModuleCore := do
  let fd ← m.func id
  if fd.isDeclare then some m
  else do
    let blocks ← m.blocksInOrder id
    blocks.foldlM (fun m block => m.blockLocalCse debug block) m

/-- `opt_local_gvn`. -/
def optLocalGvn (m : ModuleCore) (debug : ValueId → String) : Option ModuleCore :=
  m.functionsInOrder.foldlM (fun m id => m.funcLocalGvn debug id) m

end ModuleCore

/-! ## What a key computes -/

def CanonValue.eval (C : Code) (E : Env) (regs : Regs) : CanonValue → Option Val
  | .const w n => some (.int w n)
  | .null => some (.ptr .null 0)
  | .undef _ => some .undef
  | .value v => C.evalOperand E regs v

/-- The value of the instructions with this key, from the values of the operands in it. -/
def ExprKey.eval (C : Code) (E : Env) (regs : Regs) : ExprKey → Option Val
  | .binary op lhs rhs => do
    some (.binary op (← lhs.eval C E regs) (← rhs.eval C E regs))
  | .icmp op lhs rhs => do
    some (.icmp E.addr op (← lhs.eval C E regs) (← rhs.eval C E regs))
  | .trunc value ty => do
    some (.trunc (widthOf ty) (← value.eval C E regs))
  | .zext value ty => do
    some (.zext (widthOf ty) (← value.eval C E regs))
  | .sext value ty => do
    some (.sext (widthOf ty) (← value.eval C E regs))
  | .ptrToInt ptr ty => do
    some (.ptrToInt E.addr (widthOf ty) (← ptr.eval C E regs))
  | .gep baseTy base indices => do
    let base ← base.eval C E regs
    let indices ← indices.mapM (CanonValue.eval C E regs)
    some (.gep E.target baseTy base indices)
  | .select cond thenVal elseVal => do
    some (.select (← cond.eval C E regs) (← thenVal.eval C E regs) (← elseVal.eval C E regs))

def CanonValue.ty (C : Code) : CanonValue → Option Ty
  | .const w _ => some (.int w)
  | .null => some .ptr
  | .undef ty => some ty
  | .value v => C.operandTy v

/-- The type of the instructions with this key. -/
def ExprKey.ty (C : Code) : ExprKey → Option Ty
  | .binary _ lhs _ => lhs.ty C
  | .icmp _ _ _ => some (.int 1)
  | .trunc _ ty | .zext _ ty | .sext _ ty | .ptrToInt _ ty => some ty
  | .gep _ _ _ => some .ptr
  | .select _ thenVal _ => thenVal.ty C

/-- The type `ty` of an instruction is the one its operands give it. -/
def InstKind.Typed (valTy : ValueId → Option Ty) (ty : Ty) : InstKind → Prop
  | .binary op lhs rhs => valTy lhs = some ty ∧ (op.commutes = true → valTy rhs = some ty)
  | .icmp _ _ _ => ty = .int 1
  | .getElementPtr _ _ _ => ty = .ptr
  | .select _ thenVal _ => valTy thenVal = some ty
  | _ => True

/-- The type of an integer or of a null pointer is its own. -/
def ConstData.Typed (d : ConstData) : Prop :=
  (∀ ci, d.kind = .int ci → d.ty = .int ci.bitWidth) ∧ (d.kind = .null → d.ty = .ptr)

/-- The constants, and the instructions of `f` that have a key, are typed. -/
structure Code.Typed (C : Code) (f : FunctionId) : Prop where
  consts : ∀ c d, C.constData c = some d → d.Typed
  insts : ∀ i d, C.inst ⟨f, i⟩ = some d → d.parent.isSome → d.kind.Typed C.operandTy d.ty

theorem InstKind.Typed.mapOperands {valTy valTy' : ValueId → Option Ty} {ty : Ty} {k : InstKind}
    (h : k.Typed valTy ty) {σ : ValueId → ValueId}
    (hσ : ∀ op ∈ k.valueOperands, valTy' (σ op.1) = valTy op.1) :
    (k.mapOperands σ).Typed valTy' ty := by
  cases k with
  | binary op lhs rhs =>
    refine ⟨(hσ (lhs, .binaryLhs) List.mem_cons_self).trans h.1, fun hop => ?_⟩
    exact (hσ (rhs, .binaryRhs) (by simp [valueOperands])).trans (h.2 hop)
  | select cond thenVal elseVal =>
    exact (hσ (thenVal, .selectThenVal) (by simp [valueOperands])).trans h
  | _ => exact h

theorem Val.binary_comm {op : BinaryOpcode} (h : op.commutes = true) (v w : Val) :
    Val.binary op v w = Val.binary op w v := by
  cases v <;> cases w <;> try rfl
  case int.int bits a bits' b =>
    simp only [binary]
    by_cases heq : bits = bits'
    · subst heq
      cases op <;> simp only [BinaryOpcode.commutes, Bool.false_eq_true] at h <;>
        simp [evalBinary, Nat.add_comm, Nat.mul_comm, Nat.and_comm, Nat.or_comm, Nat.xor_comm]
    · rw [if_neg heq, if_neg (Ne.symm heq)]

theorem Val.icmp_comm {op : ICmpCode} (h : op.commutes = true) (addr : Obj → Int) (v w : Val) :
    Val.icmp addr op v w = Val.icmp addr op w v := by
  cases v <;> cases w <;> try rfl
  case int.int bits a bits' b =>
    simp only [icmp]
    by_cases heq : bits = bits'
    · subst heq
      cases op <;> simp only [ICmpCode.commutes, Bool.false_eq_true] at h <;>
        simp [evalICmp, eq_comm]
    · rw [if_neg heq, if_neg (Ne.symm heq)]
  case ptr.ptr o off o' off' =>
    cases op <;> simp only [ICmpCode.commutes, Bool.false_eq_true] at h <;>
      simp [icmp, evalICmp, eq_comm]

namespace ModuleCore

variable {m : ModuleCore} {debug : ValueId → String} {ty : Ty} {k : InstKind}

theorem canonGvn_eval {v : ValueId} {c : CanonValue} (h : m.canonGvn v = some c) (E : Env)
    (regs : Regs) : c.eval m.code E regs = m.code.evalOperand E regs v := by
  cases v with
  | const i =>
    obtain ⟨d, hd, h⟩ := Option.bind_eq_some_iff.mp h
    have heval : m.code.evalOperand E regs (.const i) = evalConst d := by
      show Option.bind (Option.map ConstData.code (m.constData i)) evalConst = _
      rw [hd]
      rfl
    rw [heval]
    cases hk : d.kind with
    | int | null | undef =>
      rw [hk] at h
      cases h
      rw [evalConst, hk]
      rfl
    | _ =>
      rw [hk] at h
      cases h
      exact heval
  | _ =>
    cases h
    rfl

theorem mapM_canonGvn_eval {vs : List ValueId} {cs : List CanonValue}
    (h : vs.mapM m.canonGvn = some cs) (E : Env) (regs : Regs) :
    cs.mapM (CanonValue.eval m.code E regs) = vs.mapM (m.code.evalOperand E regs) := by
  have hall := OptionFold.mapM_eq_some h
  clear h
  induction hall with
  | nil => rfl
  | cons hv _ ih => rw [List.mapM_cons, List.mapM_cons, canonGvn_eval hv, ih]

theorem canonGvn_ty (hconsts : ∀ c d, m.code.constData c = some d → d.Typed) {v : ValueId}
    {c : CanonValue} (h : m.canonGvn v = some c) : c.ty m.code = m.code.operandTy v := by
  -- only constants are looked up
  cases v with
  | const i =>
    obtain ⟨d, hd, h⟩ := Option.bind_eq_some_iff.mp h
    have hcode : m.code.constData i = some d.code := by
      show Option.map ConstData.code (m.constData i) = _
      rw [hd]
      rfl
    have hty : m.code.operandTy (.const i) = some d.ty := by
      show Option.map ConstData.ty (m.code.constData i) = _
      rw [hcode]
      rfl
    -- the kinds of constants
    obtain ⟨hint, hnull⟩ := hconsts i _ hcode
    rw [hty]
    cases hk : d.kind with
    | int ci =>
      rw [hk] at h
      cases h
      exact congrArg some (hint ci hk).symm
    | null =>
      rw [hk] at h
      cases h
      exact congrArg some (hnull hk).symm
    | undef =>
      rw [hk] at h
      cases h
      rfl
    | _ =>
      rw [hk] at h
      cases h
      exact hty
  | _ =>
    cases h
    rfl

theorem canonGvn_total {v : ValueId} (h : m.Defined v) : ∃ c, m.canonGvn v = some c := by
  cases v with
  | const i =>
    have hsome : (m.constData i).isSome := by
      have := defined_iff.mp h
      rwa [valueUses, Option.isSome_map] at this
    obtain ⟨d, hd⟩ := Option.isSome_iff_exists.mp hsome
    rw [canonGvn, hd, Option.bind_eq_bind, Option.bind_some]
    split <;> exact ⟨_, rfl⟩
  | _ => exact ⟨_, rfl⟩

/-- Putting the operands of a commutative operation in order keeps what it computes. -/
theorem canonPair_eval {commutes : Bool} {g : Val → Val → Val}
    (hg : commutes = true → ∀ v w, g v w = g w v) (C : Code) (E : Env) (regs : Regs)
    (lk rk : CanonValue) :
    (do some (g (← (canonPair debug commutes lk rk).1.eval C E regs)
      (← (canonPair debug commutes lk rk).2.eval C E regs))) =
      (do some (g (← lk.eval C E regs) (← rk.eval C E regs)) : Option Val) := by
  unfold canonPair
  split
  · next hc =>
    split
    · rfl
    · show (rk.eval C E regs).bind _ = (lk.eval C E regs).bind _
      cases lk.eval C E regs <;> cases rk.eval C E regs <;> simp [hg hc]
  · rfl

/-- The key of an instruction computes what the instruction computes. -/
theorem exprKey_eval {K : ExprKey} (h : m.exprKey debug ty k = some (some K)) (E : Env)
    (regs : Regs) : K.eval m.code E regs = evalPure E ty k (m.code.evalOperand E regs) := by
  -- the kinds that have a key; operands that commute are in order
  cases k with
  | binary op lhs rhs =>
    obtain ⟨lk, hl, h⟩ := Option.bind_eq_some_iff.mp h
    obtain ⟨rk, hr, h⟩ := Option.bind_eq_some_iff.mp h
    cases h
    rw [evalPure, ← canonGvn_eval hl, ← canonGvn_eval hr]
    exact canonPair_eval (fun hc => Val.binary_comm hc) _ _ _ lk rk
  | icmp op lhs rhs =>
    obtain ⟨lk, hl, h⟩ := Option.bind_eq_some_iff.mp h
    obtain ⟨rk, hr, h⟩ := Option.bind_eq_some_iff.mp h
    cases h
    rw [evalPure, ← canonGvn_eval hl, ← canonGvn_eval hr]
    exact canonPair_eval (fun hc => Val.icmp_comm hc E.addr) _ _ _ lk rk
  | getElementPtr baseTy base indices =>
    obtain ⟨baseK, hbase, h⟩ := Option.bind_eq_some_iff.mp h
    obtain ⟨idxK, hidx, h⟩ := Option.bind_eq_some_iff.mp h
    cases h
    rw [evalPure, ExprKey.eval, canonGvn_eval hbase, mapM_canonGvn_eval hidx]
  | select cond thenVal elseVal =>
    obtain ⟨ck, hc, h⟩ := Option.bind_eq_some_iff.mp h
    obtain ⟨tk, ht, h⟩ := Option.bind_eq_some_iff.mp h
    obtain ⟨ek, he, h⟩ := Option.bind_eq_some_iff.mp h
    cases h
    rw [evalPure, ExprKey.eval, canonGvn_eval hc, canonGvn_eval ht, canonGvn_eval he]
  | trunc value | zext value | sext value | ptrToInt value =>
    obtain ⟨vk, hv, h⟩ := Option.bind_eq_some_iff.mp h
    cases h
    rw [evalPure, ExprKey.eval, canonGvn_eval hv]
  -- the other kinds have none
  | _ => cases h

theorem exprKey_isPure {K : ExprKey} (h : m.exprKey debug ty k = some (some K)) :
    k.isPure = true := by
  cases k <;> first | rfl | cases h

/-- The key of a typed instruction tells its type. -/
theorem exprKey_ty {K : ExprKey} (h : m.exprKey debug ty k = some (some K))
    (hconsts : ∀ c d, m.code.constData c = some d → d.Typed) (hk : k.Typed m.code.operandTy ty) :
    K.ty m.code = some ty := by
  cases k with
  | binary op lhs rhs =>
    obtain ⟨lk, hl, h⟩ := Option.bind_eq_some_iff.mp h
    obtain ⟨rk, hr, h⟩ := Option.bind_eq_some_iff.mp h
    cases h
    have hlhs := (canonGvn_ty hconsts hl).trans hk.1
    show (canonPair debug op.commutes lk rk).1.ty m.code = some ty
    unfold canonPair
    -- the two orders of the operands
    split
    · next hc =>
      split
      · exact hlhs
      · exact (canonGvn_ty hconsts hr).trans (hk.2 hc)
    · exact hlhs
  | icmp op lhs rhs =>
    obtain ⟨lk, -, h⟩ := Option.bind_eq_some_iff.mp h
    obtain ⟨rk, -, h⟩ := Option.bind_eq_some_iff.mp h
    cases h
    exact congrArg some (Eq.symm hk)
  | getElementPtr baseTy base indices =>
    obtain ⟨baseK, -, h⟩ := Option.bind_eq_some_iff.mp h
    obtain ⟨idxK, -, h⟩ := Option.bind_eq_some_iff.mp h
    cases h
    exact congrArg some (Eq.symm hk)
  | select cond thenVal elseVal =>
    obtain ⟨ck, -, h⟩ := Option.bind_eq_some_iff.mp h
    obtain ⟨tk, ht, h⟩ := Option.bind_eq_some_iff.mp h
    obtain ⟨ek, -, h⟩ := Option.bind_eq_some_iff.mp h
    cases h
    exact (canonGvn_ty hconsts ht).trans hk
  | trunc value | zext value | sext value | ptrToInt value =>
    obtain ⟨vk, -, h⟩ := Option.bind_eq_some_iff.mp h
    cases h
    rfl
  | _ => cases h

theorem exprKey_total (debug : ValueId → String) (ty : Ty) (hops : ∀ op ∈ k.valueOperands, m.Defined op.1) :
    ∃ key, m.exprKey debug ty k = some key := by
  have hcanon : ∀ op ∈ k.valueOperands, ∃ c, m.canonGvn op.1 = some c := fun op hop =>
    canonGvn_total (hops op hop)
  cases k with
  | binary op lhs rhs | icmp op lhs rhs =>
    obtain ⟨lk, hl⟩ := hcanon (lhs, _) List.mem_cons_self
    obtain ⟨rk, hr⟩ := hcanon (rhs, _) (List.mem_cons_of_mem _ List.mem_cons_self)
    exact ⟨_, by simp only [exprKey, hl, hr, Option.bind_eq_bind, Option.bind_some]; rfl⟩
  | getElementPtr baseTy base indices =>
    obtain ⟨baseK, hbase⟩ := hcanon (base, _) List.mem_cons_self
    obtain ⟨idxK, hidx⟩ := OptionFold.exists_mapM (f := m.canonGvn) (l := indices) fun v hv => by
      obtain ⟨i, hi⟩ := List.mem_iff_getElem?.mp hv
      exact hcanon (v, .gepIndex i) (List.mem_cons_of_mem _ (InstKind.mem_zipIdx_of_getElem? _ hi))
    exact ⟨_, by simp only [exprKey, hbase, hidx, Option.bind_eq_bind, Option.bind_some]; rfl⟩
  | select cond thenVal elseVal =>
    obtain ⟨ck, hc⟩ := hcanon (cond, _) List.mem_cons_self
    obtain ⟨tk, ht⟩ := hcanon (thenVal, _) (List.mem_cons_of_mem _ List.mem_cons_self)
    obtain ⟨ek, he⟩ := hcanon (elseVal, .selectElseVal) (by simp [InstKind.valueOperands])
    exact ⟨_, by simp only [exprKey, hc, ht, he, Option.bind_eq_bind, Option.bind_some]; rfl⟩
  | trunc value | zext value | sext value | ptrToInt value =>
    obtain ⟨vk, hv⟩ := hcanon (value, _) List.mem_cons_self
    exact ⟨_, by simp only [exprKey, hv, Option.bind_eq_bind, Option.bind_some]; rfl⟩
  | _ => exact ⟨none, rfl⟩

end ModuleCore

end Ir
