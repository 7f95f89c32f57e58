import C0mpiler.Mir.BranchRelax
import C0mpiler.Mir.PhiElim
import C0mpiler.Ir.CoreIntValue
import Mathlib

/-!
# What phi elimination preserves

The contract of the lowered branches: on arrival at a block, every phi's register holds what its
incoming value was at the end of the predecessor, and the registers of all other values are as they
were. The copies meet it but for one thing: a constant is loaded through `i32`, so an incoming
constant of more than 32 bits arrives truncated if it is out of that range.
-/

namespace Mir

open Ir (ModuleCore ValueId BlockRef InstRef FunctionId InstKind CondBranch CoreInt)

variable {R I : Type} {w : Nat} [DecidableEq R] [MachineSemantics R w I]

/-! ## Constants -/

/-- A register of at least 32 bits holds the `i32` it is loaded with. -/
theorem toInt_ofInt_asI32 (hw : 32 ≤ w) (x : Int) : (BitVec.ofInt w (asI32 x)).toInt = asI32 x := by
  obtain ⟨hlo, hhi⟩ := asI32_bounds x
  have hpow : (2 : Int) ^ 31 ≤ 2 ^ (w - 1) := pow_le_pow_right₀ (by decide) (by omega)
  refine BitVec.toInt_ofInt_eq_self (by omega) ?_ ?_
  · linarith
  · linarith

/-- The constant is what `as i32` leaves of it. -/
def FitsI32 (number : CoreInt) : Prop :=
  number.bitWidth ≤ 32 ∨ -2 ^ 31 ≤ number.asI64 ∧ number.asI64 < 2 ^ 31

/-- The `i32` of a constant stands for the same number exactly if the constant fits. -/
theorem asI32_asI64_modEq_iff {number : CoreInt} (h : number.Wf) :
    asI32 number.asI64 ≡ number.value [ZMOD 2 ^ number.bitWidth] ↔ FitsI32 number := by
  constructor
  · intro hmod
    by_cases hw : number.bitWidth ≤ 32
    · exact Or.inl hw
    · refine Or.inr ?_
      have hsame := hmod.trans h.asI64_modEq.symm
      obtain ⟨hlo, hhi⟩ := asI32_bounds number.asI64
      obtain ⟨hlo', hhi'⟩ := h.asI64_bounds (by omega)
      have hpow : (2 : Int) ^ 32 ≤ 2 ^ (number.bitWidth - 1) :=
        pow_le_pow_right₀ (by decide) (by omega)
      have htwo : (2 : Int) ^ number.bitWidth = 2 * 2 ^ (number.bitWidth - 1) := by
        exact_mod_cast h.two_pow
      -- two numbers of the same class that are less than the modulus apart
      have hzero : number.asI64 - asI32 number.asI64 = 0 := by
        refine Int.eq_zero_of_abs_lt_dvd hsame.dvd ?_
        rw [abs_lt, htwo]
        constructor <;> linarith
      have heq : number.asI64 = asI32 number.asI64 := by linarith
      rw [heq]
      exact ⟨hlo, hhi⟩
  · rintro (hw | hb)
    · have hdvd : (2 : Int) ^ number.bitWidth ∣ 2 ^ 32 := pow_dvd_pow 2 hw
      exact ((asI32_modEq _).of_dvd hdvd).trans h.asI64_modEq
    · rw [asI32_of_bounds hb]
      exact h.asI64_modEq

/-! ## The contract -/

/-- The phi has the value `v` for the predecessor `p`. -/
def Incoming (m : ModuleCore) (phi : InstRef) (p : Ir.BlockId) (v : ValueId) : Prop :=
  ∃ d incomings idx, m.inst phi = some d ∧ d.kind = .phi incomings idx ∧
    ∃ e ∈ incomings.entries, e.2.block = p ∧ e.2.value = v

/-- A register that holds `x` holds the value `v` has when the registers are `ρ`: an integer
constant up to its width, an undefined value as anything. -/
def Holds (m : ModuleCore) (symbols : HashMap String SymbolId) (S : FunctionLoweringState)
    (sym : SymbolId → BitVec w) (ρ : Regs R I w) (v : ValueId) (x : BitVec w) : Prop :=
  match v with
  | .global g => ∃ d symbol, m.global g = some d ∧ symbols.lookup d.name = some symbol ∧
      x = sym symbol
  | .const c => ∃ d, m.constData c = some d ∧
      match d.kind with
      | .int number => x.toInt ≡ number.value [ZMOD 2 ^ number.bitWidth]
      | .null => x = 0
      | .undef => True
      | _ => False
  | v => ∃ r, S.vregForValue v = some r ∧ x = ρ.get (.virtual r)

/-- If the value is an integer constant, it fits. -/
def ConstFits (m : ModuleCore) (v : ValueId) : Prop :=
  ∀ c d number, v = .const c → m.constData c = some d → d.kind = .int number → FitsI32 number

/-- The edge from `p` to `b`, which started with the registers `ρ`, has eliminated the phis of `b`:
each of them holds its value for `p`, and the other values keep their registers. -/
structure PhisEliminated (m : ModuleCore) (symbols : HashMap String SymbolId)
    (S : FunctionLoweringState) (sym : SymbolId → BitVec w) (p b : BlockRef) (ρ ρ' : Regs R I w) :
    Prop where
  phis : ∀ phi ∈ blockPhis m b, ∀ v, Incoming m phi p.block v →
    ∃ r, S.vregForValue (.inst phi) = some r ∧ Holds m symbols S sym ρ v (ρ'.get (.virtual r))
  others : ∀ v r, S.vregForValue v = some r → (∀ phi ∈ blockPhis m b, v ≠ .inst phi) →
    ρ'.get (.virtual r) = ρ.get (.virtual r)

/-- Functions in SSA form, as far as the phis are concerned: blocks and phis are listed once, a
phi has one value for a predecessor, integers have at least one bit and constants their width. -/
structure WfFunction (m : ModuleCore) (f : FunctionId) : Prop where
  blocks_nodup : ∀ blocks, m.blocksInOrder f = some blocks → blocks.Nodup
  phis_nodup : ∀ blocks, m.blocksInOrder f = some blocks → (blocks.flatMap (blockPhis m)).Nodup
  incoming_unique : ∀ phi p v v', Incoming m phi p v → Incoming m phi p v' → v = v'
  intTypes : IntTypesWf m
  consts : ∀ c d number, m.constData c = some d → d.kind = .int number → number.Wf

section

variable {m : ModuleCore} {symbols : HashMap String SymbolId} {S : FunctionLoweringState}
  {sym : SymbolId → BitVec w} {blocks : List BlockRef} {F F' : MachineFunction R I}
  {order : KeyOrder (Register R) (List (Register R))} {others : OtherLowering R I}

omit [DecidableEq R] in
/-- The register of a lowered operand holds the operand's value, if that is no constant too big. -/
theorem holds_iff [LawfulMachine R w I] {f : FunctionId} (hwf : WfFunction m f)
    {ρ : Regs R I w} {v : ValueId} {x : BitVec w}
    (hx : operandValue m symbols S sym ρ v = some x) :
    Holds m symbols S sym ρ v x ↔ ConstFits m v := by
  cases v with
  -- an address or a register holds what it stands for; only a constant can be cut short
  | global g =>
    obtain ⟨d, hd, hx⟩ := Option.bind_eq_some_iff.mp hx
    obtain ⟨symbol, hsymbol, hx⟩ := Option.bind_eq_some_iff.mp hx
    cases hx
    exact iff_of_true ⟨d, symbol, hd, hsymbol, rfl⟩ (fun c d number h => by cases h)
  | const c =>
    obtain ⟨d, hd, hx⟩ := Option.bind_eq_some_iff.mp hx
    have hfits : ConstFits m (.const c) ↔ ∀ number, d.kind = .int number → FitsI32 number := by
      constructor
      · exact fun h number hk => h c d number rfl hd hk
      · intro h c' d' number hc hd' hk
        cases hc
        rw [hd] at hd'
        cases hd'
        exact h number hk
    have hholds : Holds m symbols S sym ρ (.const c) x ↔
        (match d.kind with
          | .int number => x.toInt ≡ number.value [ZMOD 2 ^ number.bitWidth]
          | .null => x = 0
          | .undef => True
          | _ => False) := by
      constructor
      · rintro ⟨d', hd', h⟩
        rw [hd] at hd'
        cases hd'
        exact h
      · exact fun h => ⟨d, hd, h⟩
    rw [hfits, hholds]
    cases hk : d.kind with
    -- a number is loaded as an `i32`
    | int number =>
      have hnumber := hwf.consts c d number hd hk
      simp only [hk, Option.some.injEq] at hx
      simp only [Ir.ConstKind.int.injEq, forall_eq']
      rw [← asI32_asI64_modEq_iff hnumber]
      split at hx
      · next hzero =>
        have hasI32 : asI32 number.asI64 = 0 := by
          rw [hnumber.asI64_zero hzero]
          exact asI32_of_bounds (by decide)
        have hxzero : x.toInt = 0 := by rw [← hx]; exact BitVec.toInt_zero
        rw [hxzero, hasI32]
      · rw [← hx, toInt_ofInt_asI32 (LawfulMachine.width_le I)]
    | null =>
      simp only [hk] at hx
      cases hx
      simp
    | undef => simp
    | array _ | struct _ | string _ =>
      simp only [hk] at hx
      cases hx
  | inst i | arg i =>
    obtain ⟨r, hr, hx⟩ := Option.bind_eq_some_iff.mp hx
    cases hx
    exact iff_of_true ⟨r, hr, rfl⟩ (fun c d number h => by cases h)

/-- The value recorded for the predecessor `p` is an incoming value for `p`, and there is one if
the phi has one. -/
theorem filterPred_iff {f : FunctionId} (hwf : WfFunction m f) (hnum : S.Numbers blocks)
    {phi : InstRef} {info : PhiInfo} (hinfo : InfoOf m S phi info) {p : BlockRef} {pid : BlockId}
    (hid : S.blockId p = some pid) (hfunc : phi.func = p.func) (v : ValueId) :
    info.filterPred pid = some v ↔ Incoming m phi p.block v := by
  obtain ⟨d, hd, hinc⟩ := Option.bind_eq_some_iff.mp hinfo.2
  obtain ⟨⟨incomings, idx⟩, hphi, hinc⟩ := Option.bind_eq_some_iff.mp hinc
  have hkind : d.kind = .phi incomings idx := by
    cases hk : d.kind with
    | phi incomings' idx' =>
      rw [hk] at hphi
      cases hphi
      rfl
    | _ => rw [hk] at hphi; cases hphi
  have hall := OptionFold.mapM_eq_some hinc
  -- a record is for `pid` exactly if its entry is for `p`
  have hentry : ∀ (e : Sigma fun _ : Nat => Ir.PhiIncoming) (inc : PhiIncoming), (do
      let pred ← S.blockId ⟨phi.func, e.2.block⟩
      some (⟨pred, e.2.value⟩ : PhiIncoming)) = some inc →
      inc.value = e.2.value ∧ (inc.pred = pid ↔ e.2.block = p.block) := by
    intro e inc h
    obtain ⟨pred, hpred, h⟩ := Option.bind_eq_some_iff.mp h
    cases h
    refine ⟨rfl, fun heq => ?_, fun heq => ?_⟩
    · cases heq
      exact congrArg BlockRef.block (hnum.inj hpred hid)
    · have hsame : (⟨phi.func, e.2.block⟩ : BlockRef) = p := by rw [hfunc, heq]
      rw [hsame, hid] at hpred
      exact (Option.some.inj hpred).symm
  have hsound : ∀ v, info.filterPred pid = some v → Incoming m phi p.block v := by
    intro v h
    obtain ⟨inc, hmem, hval⟩ := List.exists_of_findSome?_eq_some h
    split at hval
    · next hpred =>
      cases hval
      obtain ⟨e, he, hstep⟩ := hall.exists_left hmem
      obtain ⟨hvalue, hiff⟩ := hentry e inc hstep
      exact ⟨d, incomings, idx, hd, hkind, e, he, hiff.mp hpred, hvalue.symm⟩
    · cases hval
  refine ⟨hsound v, fun hin => ?_⟩
  have hentries := hin
  obtain ⟨d', incomings', idx', hd', hkind', e, he, hblock, -⟩ := hentries
  rw [hd] at hd'
  cases hd'
  rw [hkind] at hkind'
  cases hkind'
  obtain ⟨inc, hmem, hstep⟩ := hall.exists_right he
  obtain ⟨-, hiff⟩ := hentry e inc hstep
  cases hfound : info.filterPred pid with
  | some v' =>
    rw [hwf.incoming_unique phi p.block v' v (hsound v' hfound) hin]
  | none =>
    have hnone := List.findSome?_eq_none_iff.mp hfound inc hmem
    rw [if_pos (hiff.mpr hblock)] at hnone
    cases hnone

/-- The phis of a block belong to its function. -/
theorem func_of_mem_blockPhis {b : BlockRef} {phi : InstRef} (h : phi ∈ blockPhis m b) :
    phi.func = b.func := by
  unfold blockPhis ModuleCore.phisInOrder at h
  cases hb : m.block b with
  | none =>
    rw [hb] at h
    cases h
  | some d =>
    rw [hb] at h
    obtain ⟨i, -, rfl⟩ := List.mem_map.mp h
    rfl

omit [DecidableEq R] in
/-- From the copies of an edge to the phis of its target. -/
theorem EdgeEffect.phisEliminated_iff [LawfulMachine R w I] {f : FunctionId}
    (hwf : WfFunction m f) (hP : Prepared m blocks S F) {p b : BlockRef} {pid t : BlockId}
    (hid : S.blockId p = some pid) (ht : S.blockId b = some t) (hfunc : b.func = p.func)
    {c c' : Nat} (hc : F.vregCounter ≤ c) {ρ ρ' : Regs R I w}
    (h : EdgeEffect m symbols S sym (edgePhis S pid t) c c' ρ ρ') :
    PhisEliminated m symbols S sym p b ρ ρ' ↔
      ∀ phi ∈ blockPhis m b, ∀ v, Incoming m phi p.block v → ConstFits m v := by
  obtain ⟨t', phis, infos, ht', hphis, hinfos, hall⟩ := hP.infos b (hP.numbers.mem ht)
  obtain rfl : t = t' := Option.some.inj (ht.symm.trans ht')
  have hblock : blockPhis m b = phis := by rw [blockPhis, hphis]; rfl
  -- the copy of a phi for one of its values
  have hcopy : ∀ phi ∈ phis, ∀ v, Incoming m phi p.block v → ∃ r,
      S.vregForValue (.inst phi) = some r ∧
      operandValue m symbols S sym ρ v = some (ρ'.get (.virtual r)) := by
    intro phi hphi v hin
    obtain ⟨info, hmem, hinfo⟩ := hall.exists_right hphi
    have hpfunc : phi.func = p.func := (func_of_mem_blockPhis (hblock ▸ hphi)).trans hfunc
    have hpred := (filterPred_iff hwf hP.numbers hinfo hid hpfunc v).mpr hin
    exact ⟨info.dst, hinfo.1, h.copied (info.dst, v) ((mem_edgePhis hinfos).mpr
      ⟨info, hmem, rfl, hpred⟩)⟩
  rw [hblock]
  constructor
  · intro helim phi hphi v hin
    obtain ⟨r, hr, hvalue⟩ := hcopy phi hphi v hin
    obtain ⟨r', hr', hholds⟩ := helim.phis phi (hblock ▸ hphi) v hin
    obtain rfl : r = r' := Option.some.inj (hr.symm.trans hr')
    exact (holds_iff hwf hvalue).mp hholds
  · intro hfits
    refine ⟨fun phi hphi v hin => ?_, fun v r hr hv => ?_⟩
    · rw [hblock] at hphi
      obtain ⟨r, hr, hvalue⟩ := hcopy phi hphi v hin
      exact ⟨r, hr, (holds_iff hwf hvalue).mpr (hfits phi hphi v hin)⟩
    · refine h.frame _ (fun hmem => ?_) ?_
      · obtain ⟨q, hq, heq⟩ := List.mem_map.mp hmem
        cases heq
        obtain ⟨info, hinfo, hdst, -⟩ := (mem_edgePhis hinfos).mp hq
        obtain ⟨phi, hphi, hvreg, -⟩ := hall.exists_left hinfo
        exact hv phi (hblock ▸ hphi) (hP.vregs.inj _ _ _ hr (hdst ▸ hvreg))
      · rintro ⟨r', hle, -, heq⟩
        cases heq
        exact absurd ((hP.vregs.below v r hr).trans_le (hc.trans hle)) (Nat.lt_irrefl r)

/-- So do the targets of a branch. -/
theorem func_of_mem_branchTargets {p b : BlockRef} {thenBlock : Ir.BlockId}
    {cond : Option CondBranch} (h : b ∈ branchTargets p thenBlock cond) : b.func = p.func := by
  rcases List.mem_cons.mp h with rfl | h
  · rfl
  · obtain ⟨c, -, rfl⟩ := List.mem_map.mp h
    rfl

/-- Where a function has been lowered, the code of every branch, from any registers, arrives at
one of its targets; there the phis are eliminated if and only if every constant among their values
for the predecessor fits, and nothing but their registers and those allocated for the branch has
changed. -/
theorem lowerFunction_eliminates_phis_iff [LawfulMachine R w I] {f : FunctionId}
    (hwf : WfFunction m f) (hblocks : m.blocksInOrder f = some blocks)
    (h : lowerFunction m symbols order others f = some (S, F)) {p : BlockRef} (hp : p ∈ blocks)
    {inst : InstRef} (hterm : m.terminator p = some (some inst)) {d : Ir.InstData}
    (hd : m.inst inst = some d) {thenBlock : Ir.BlockId} {cond : Option CondBranch}
    (hkind : d.kind = .branch thenBlock cond) :
    ∃ pid block before code F₁ F₂, S.blockId p = some pid ∧ F.getBlock pid = some block ∧
      block.instructions = before ++ code ∧
      lowerBranch m symbols order S p pid thenBlock cond F₁ = some (code, F₂) ∧
      ∀ (sym : SymbolId → BitVec w) (ρ : Regs R I w), (∃ t ρ', Arrives F S sym code ρ t ρ') ∧
        ∀ t ρ', Arrives F S sym code ρ t ρ' →
          ∃ b ∈ branchTargets p thenBlock cond, S.blockId b = some t ∧
            (PhisEliminated m symbols S sym p b ρ ρ' ↔
              ∀ phi ∈ blockPhis m b, ∀ v, Incoming m phi p.block v → ConstFits m v) ∧
            ∀ x, (∀ phi ∈ blockPhis m b, ∀ r, S.vregForValue (.inst phi) = some r →
              x ≠ .virtual r) → ¬ Allocated F₁.vregCounter F₂.vregCounter x → ρ'.get x = ρ.get x := by
  obtain ⟨pid, code, F₁, F₂, hid, hP₁, hlower, hP, hnew, block, before, hblock, hinsts⟩ :=
    lowerFunction_branch hblocks (hwf.blocks_nodup _ hblocks) (hwf.phis_nodup _ hblocks)
      hwf.intTypes h hp hterm hd hkind
  refine ⟨pid, block, before, code, F₁, F₂, hid, hblock, hinsts, hlower, fun sym ρ => ?_⟩
  obtain ⟨b, hb, t, ρ', ht, harrives, heff⟩ :=
    (lowerBranch_effect sym hP₁ (hwf.phis_nodup _ hblocks) hwf.intTypes hlower).2 F hP.indexed
      hnew ρ
  refine ⟨⟨t, ρ', harrives⟩, fun t' ρ'' harrives' => ?_⟩
  obtain ⟨rfl, rfl⟩ := harrives.unique harrives'
  refine ⟨b, hb, ht,
    heff.phisEliminated_iff hwf hP₁ hid ht (func_of_mem_branchTargets hb) le_rfl, ?_⟩
  intro x hx hnot
  refine heff.frame x (fun hmem => ?_) hnot
  obtain ⟨q, hq, rfl⟩ := List.mem_map.mp hmem
  obtain ⟨t'', phis, infos, ht'', hphis, hinfos, hall⟩ := hP₁.infos b (hP₁.numbers.mem ht)
  obtain rfl := Option.some.inj (ht.symm.trans ht'')
  obtain ⟨info, hinfo, hdst, -⟩ := (mem_edgePhis hinfos).mp hq
  obtain ⟨phi, hphi, hvreg, -⟩ := hall.exists_left hinfo
  have hblockPhis : blockPhis m b = phis := by rw [blockPhis, hphis]; rfl
  exact hx phi (hblockPhis ▸ hphi) info.dst hvreg (congrArg Register.virtual hdst)

end

/-! ## A constant that does not fit -/

namespace ConstPhi

/-- The order of the entries. -/
def entryOrder : KeyOrder (Register RV64Reg) (List (Register RV64Reg)) :=
  ⟨AList.keys, fun _ => List.Perm.refl _⟩

/-- Whatever is no branch becomes a return. -/
def retLowering : OtherLowering RV64Reg RV64Inst :=
  fun _ _ _ frameInfo => some ⟨[.ret], 0, frameInfo⟩

/-- The phi of the example: it takes the constant 1 from block 1. -/
def phiInst : Ir.InstData :=
  ⟨some ⟨1, 2⟩, .int 64, .phi (HashMap.collect [(0, ⟨1, .const 1⟩)]) 1, [], none⟩

/-- The entry block goes on to a block whose phi takes the 64-bit constant `n`. -/
def constPhi (n : Nat) : ModuleCore where
  functions := SlotMap.empty.insert
    { name := "main", ty := ⟨.void, []⟩, args := .empty
      blocks := (SlotMap.empty.insert ⟨none, [], [], some 1, 1, []⟩).insert
        ⟨none, [2], [], some 3, 1, []⟩
      insts := ((SlotMap.empty.insert ⟨some ⟨1, 1⟩, .void, .branch 2 none, [], none⟩).insert
        phiInst).insert ⟨some ⟨1, 2⟩, .void, .ret none, [], none⟩
      blockOrder := [1, 2], entry := 1, isDeclare := false }
  globals := .empty
  consts := SlotMap.empty.insert ⟨.int 64, .int ⟨n, 64⟩, []⟩
  functionGlobals := ∅

/-- The instructions of the example. -/
theorem inst_cases {n : Nat} {i : InstRef} {d : Ir.InstData} (h : (constPhi n).inst i = some d) :
    d = phiInst ∨ d.ty = .void ∧ ¬ d.kind.isPhi := by
  obtain ⟨fd, hfd, hd⟩ := Option.bind_eq_some_iff.mp h
  simp only [ModuleCore.func, constPhi, SlotMap.get?_insert, SlotMap.get?_empty] at hfd
  split at hfd
  · cases hfd
    simp only [SlotMap.get?_insert, SlotMap.get?_empty] at hd
    repeat' split at hd
    all_goals first
      | (cases hd; first | exact Or.inl rfl | exact Or.inr ⟨rfl, by simp [InstKind.isPhi]⟩)
      | cases hd
  · cases hfd

/-- Its constant. -/
theorem constData_cases {n : Nat} {c : Ir.ConstId} {d : Ir.ConstData}
    (h : (constPhi n).constData c = some d) : d = ⟨.int 64, .int ⟨n, 64⟩, []⟩ := by
  simp only [ModuleCore.constData, constPhi, SlotMap.get?_insert, SlotMap.get?_empty] at h
  split at h
  · cases h
    rfl
  · cases h

/-- What its phi takes. -/
theorem incoming_cases {n : Nat} {phi : InstRef} {p : Ir.BlockId} {v : ValueId}
    (h : Incoming (constPhi n) phi p v) : v = .const 1 := by
  obtain ⟨d, incomings, idx, hd, hkind, e, he, -, rfl⟩ := h
  rcases inst_cases hd with rfl | ⟨-, hphi⟩
  · cases hkind
    have hentries : (HashMap.collect [(0, (⟨1, .const 1⟩ : Ir.PhiIncoming))]).entries =
        [⟨0, ⟨1, .const 1⟩⟩] := rfl
    rw [hentries, List.mem_singleton] at he
    rw [he]
  · rw [hkind] at hphi
    exact absurd rfl hphi

/-- The example is well formed. -/
theorem wfFunction {n : Nat} (hn : n < 2 ^ 64) : WfFunction (constPhi n) 1 where
  blocks_nodup := by
    intro blocks h
    cases h
    decide
  phis_nodup := by
    intro blocks h
    cases h
    have : ([⟨1, 1⟩, ⟨1, 2⟩] : List BlockRef).flatMap (blockPhis (constPhi n)) = [⟨1, 2⟩] := rfl
    exact this ▸ List.nodup_singleton _
  incoming_unique := fun _ _ _ _ h h' => (incoming_cases h).trans (incoming_cases h').symm
  intTypes := by
    intro v bits h
    cases v with
    | inst i =>
      obtain ⟨d, hd, hty⟩ := Option.map_eq_some_iff.mp h
      rcases inst_cases hd with rfl | ⟨hvoid, -⟩
      · cases hty
        decide
      · rw [hvoid] at hty
        cases hty
    | arg a =>
      obtain ⟨d, hd, -⟩ := Option.map_eq_some_iff.mp h
      obtain ⟨fd, hfd, hd⟩ := Option.bind_eq_some_iff.mp hd
      simp only [ModuleCore.func, constPhi, SlotMap.get?_insert, SlotMap.get?_empty] at hfd
      split at hfd
      · cases hfd
        cases hd
      · cases hfd
    | global g => cases h
    | const c =>
      obtain ⟨d, hd, hty⟩ := Option.map_eq_some_iff.mp h
      rw [constData_cases hd] at hty
      cases hty
      decide
  consts := by
    intro c d number hd hk
    rw [constData_cases hd] at hk
    cases hk
    exact ⟨Nat.le_of_ble_eq_true rfl, Nat.le_refl 64, hn⟩

theorem lowerFunction_eliminates_phis_iff_seven :
    ∃ S F, lowerFunction (constPhi 7) ∅ entryOrder retLowering 1 = some (S, F) ∧
      ∃ pid block before code, S.blockId ⟨1, 1⟩ = some pid ∧ F.getBlock pid = some block ∧
        block.instructions = before ++ code ∧
        ∀ (sym : SymbolId → BitVec 64) (ρ : Regs RV64Reg RV64Inst 64), ∃ t ρ',
          Arrives F S sym code ρ t ρ' ∧
            PhisEliminated (constPhi 7) ∅ S sym ⟨1, 1⟩ ⟨1, 2⟩ ρ ρ' := by
  obtain ⟨⟨S, F⟩, h⟩ := Option.isSome_iff_exists.mp
    (rfl : (lowerFunction (constPhi 7) ∅ entryOrder retLowering 1).isSome = true)
  obtain ⟨pid, block, before, code, F₁, F₂, hid, hblock, hinsts, -, hrun⟩ :=
    lowerFunction_eliminates_phis_iff (wfFunction (by decide)) rfl h
      (p := ⟨1, 1⟩) List.mem_cons_self rfl rfl rfl
  refine ⟨S, F, h, pid, block, before, code, hid, hblock, hinsts, fun sym ρ => ?_⟩
  obtain ⟨⟨t, ρ', harrives⟩, hall⟩ := hrun sym ρ
  obtain ⟨b, hb, -, hiff, -⟩ := hall t ρ' harrives
  obtain rfl : b = ⟨1, 2⟩ := by simpa [branchTargets] using hb
  refine ⟨t, ρ', harrives, hiff.mpr fun phi _ v hin c d number hv hd hk => ?_⟩
  rw [constData_cases hd] at hk
  cases hk
  exact Or.inr ⟨by decide, by decide⟩

/-- The phi of the 64-bit constant `2 ^ 32` arrives as zero. -/
theorem phis_not_eliminated :
    WfFunction (constPhi (2 ^ 32)) 1 ∧
      ∃ S F block, lowerFunction (constPhi (2 ^ 32)) ∅ entryOrder retLowering 1 = some (S, F) ∧
        S.blockId ⟨1, 1⟩ = some 0 ∧ S.blockId ⟨1, 2⟩ = some 1 ∧ F.getBlock 0 = some block ∧
        ∀ (sym : SymbolId → BitVec 64) (ρ : Regs RV64Reg RV64Inst 64), ∃ ρ',
          Arrives F S sym block.instructions ρ 1 ρ' ∧
            ¬ PhisEliminated (constPhi (2 ^ 32)) ∅ S sym ⟨1, 1⟩ ⟨1, 2⟩ ρ ρ' := by
  refine ⟨wfFunction (by decide), ?_⟩
  have hlower : (lowerFunction (constPhi (2 ^ 32)) ∅ entryOrder retLowering 1).map (fun p =>
      (p.1.blockId ⟨1, 1⟩, p.1.blockId ⟨1, 2⟩, p.1.vregForValue (.inst ⟨1, 2⟩),
        (p.2.getBlock 0).map (·.instructions))) =
      some (some 0, some 1, some 0, some [.li (.virtual 1) 0, .mv (.virtual 0) (.virtual 1),
        .jal (.physical .zero) 1]) := rfl
  obtain ⟨⟨S, F⟩, h, hparts⟩ := Option.map_eq_some_iff.mp hlower
  simp only [Prod.mk.injEq] at hparts
  obtain ⟨hentry, hexit, hphi, hcode⟩ := hparts
  obtain ⟨block, hblock, hinsts⟩ := Option.map_eq_some_iff.mp hcode
  refine ⟨S, F, block, h, hentry, hexit, hblock, fun sym ρ => ?_⟩
  rw [hinsts]
  refine ⟨(ρ.set (.virtual 1) 0).set (.virtual 0) 0, ⟨1, _, rfl, .here ⟨⟨1, 2⟩, hexit⟩⟩, ?_⟩
  intro helim
  have hin : Incoming (constPhi (2 ^ 32)) ⟨1, 2⟩ 1 (.const 1) :=
    ⟨phiInst, _, _, rfl, rfl, ⟨0, ⟨1, .const 1⟩⟩, List.mem_cons_self, rfl, rfl⟩
  obtain ⟨r, hr, d, hd, hholds⟩ := helim.phis ⟨1, 2⟩ List.mem_cons_self (.const 1) hin
  rw [hphi] at hr
  cases hr
  rw [constData_cases hd, RegFile.get_set_virtual] at hholds
  exact absurd hholds (by decide)

end ConstPhi

end Mir
