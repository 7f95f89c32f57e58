import C0mpiler.Data.ReverseIndex
import C0mpiler.Ir.Operand
import C0mpiler.Ir.UseFrame
import Mathlib

/-!
# Use lists as a reverse index

`UseListsExact m`: the use lists of `m` hold, for every live value and every live block, each
operand slot of an inserted instruction it stands in, once, and nothing else.

The proofs carry the invariant relative to a set `P` of registered instructions
(`Registered m P`), because in the middle of an edit the registered instructions are not the
inserted ones: an instruction is registered after it gets its parent and unregistered before it
loses it. `Indexed m` is the invariant between edits, where the two agree. Each edit has one
lemma here that says what it does to `Registered` and to the parents and kinds of the
instructions (`parentOf`, `kindOf`).
-/

namespace Ir

namespace ModuleCore

/-! ## The invariant -/

/-- The instruction stands in a block. -/
def Inserted (m : ModuleCore) (r : InstRef) : Prop := ∃ d, m.inst r = some d ∧ d.parent.isSome

/-- The operand of `u.user` in the slot `u.slot` is `v`. -/
def OperandOf (m : ModuleCore) (u : Use) (v : ValueId) : Prop :=
  ∃ d, m.inst u.user = some d ∧ (v, u.slot) ∈ d.kind.valueOperands

/-- The operand of `u.user` in the slot `u.slot` is the block `b`. -/
def BlockOperandOf (m : ModuleCore) (u : BlockUse) (b : BlockRef) : Prop :=
  ∃ d, m.inst u.user = some d ∧ b.func = u.user.func ∧ (b.block, u.slot) ∈ d.kind.blockOperands

/-- Every use list is the list of the inserted instructions' slots that hold the value or the
block, without repetition. -/
structure UseListsExact (m : ModuleCore) : Prop where
  values : ∀ v l, m.valueUses v = some l →
    ListsExactly l fun u => m.Inserted u.user ∧ m.OperandOf u v
  blocks : ∀ b l, m.blockUses b = some l →
    ListsExactly l fun u => m.Inserted u.user ∧ m.BlockOperandOf u b

/-- The use lists are those of the instructions in `P`, and what these use is live. -/
structure Registered (m : ModuleCore) (P : InstRef → Prop) : Prop where
  values : ReverseIndex m.valueUses fun u v => P u.user ∧ m.OperandOf u v
  blocks : ReverseIndex m.blockUses fun u b => P u.user ∧ m.BlockOperandOf u b

/-- The invariant between edits. -/
def Indexed (m : ModuleCore) : Prop := m.Registered m.Inserted

/-- An indexed module has exact use lists. -/
theorem Indexed.exact {m : ModuleCore} (h : m.Indexed) : m.UseListsExact :=
  ⟨h.values.lists, h.blocks.lists⟩

/-- Where an instruction stands. -/
def parentOf (m : ModuleCore) (r : InstRef) : Option BlockRef := (m.inst r).bind InstData.parent

/-- What an instruction is. -/
def kindOf (m : ModuleCore) (r : InstRef) : Option InstKind := (m.inst r).map InstData.kind

section Views

variable {m m' : ModuleCore} {r : InstRef}

/-- The kind of an instruction that exists. -/
theorem kindOf_of_inst {d : InstData} (h : m.inst r = some d) : m.kindOf r = some d.kind := by
  rw [kindOf, h, Option.map_some]

/-- The parent of an instruction that exists. -/
theorem parentOf_of_inst {d : InstData} (h : m.inst r = some d) : m.parentOf r = d.parent := by
  rw [parentOf, h, Option.bind_some]

/-- An instruction is inserted if it has a parent. -/
theorem inserted_iff : m.Inserted r ↔ (m.parentOf r).isSome := by
  rw [Inserted, parentOf]
  cases m.inst r <;> simp

/-- Operands are read off the kind of the user. -/
theorem operandOf_iff {u : Use} {v : ValueId} :
    m.OperandOf u v ↔ ∃ k, m.kindOf u.user = some k ∧ (v, u.slot) ∈ k.valueOperands := by
  rw [OperandOf, kindOf]
  cases m.inst u.user <;> simp

/-- Block operands are read off the kind of the user. -/
theorem blockOperandOf_iff {u : BlockUse} {b : BlockRef} :
    m.BlockOperandOf u b ↔ ∃ k, m.kindOf u.user = some k ∧ b.func = u.user.func ∧
      (b.block, u.slot) ∈ k.blockOperands := by
  rw [BlockOperandOf, kindOf]
  cases m.inst u.user <;> simp

/-- Modules of the same code have the same kinds. -/
theorem SameCode.kindOf (h : SameCode m m') : m'.kindOf = m.kindOf := by
  funext r
  have hr := congrArg (Option.map InstData.kind) (h.inst r)
  simpa [ModuleCore.kindOf, Option.map_map, Function.comp_def, InstData.code] using hr

/-- Modules of the same code have the same parents. -/
theorem SameCode.parentOf (h : SameCode m m') : m'.parentOf = m.parentOf := by
  funext r
  have hr := congrArg (Option.bind · InstData.parent) (h.inst r)
  simpa [ModuleCore.parentOf, Option.bind_map, Function.comp_def, InstData.code] using hr

@[simp] theorem kindOf_updBlock (b : BlockRef) (g : BlockData → BlockData) :
    (m.updBlock b g).kindOf = m.kindOf := by
  funext r
  simp [kindOf]

@[simp] theorem parentOf_updBlock (b : BlockRef) (g : BlockData → BlockData) :
    (m.updBlock b g).parentOf = m.parentOf := by
  funext r
  simp [parentOf]

/-- An update that keeps the kind of an instruction keeps all kinds. -/
theorem kindOf_updInst {i : InstRef} {g : InstData → InstData} (hg : ∀ d, (g d).kind = d.kind) :
    (m.updInst i g).kindOf = m.kindOf := by
  funext r
  rw [kindOf, inst_updInst]
  exact map_ite_map m.inst g hg

/-- A change of an instruction that keeps its parent keeps all parents. -/
theorem parentOf_updInst {i : InstRef} {g : InstData → InstData} (hg : ∀ d, (g d).parent = d.parent) :
    (m.updInst i g).parentOf = m.parentOf := by
  funext r
  rw [parentOf, inst_updInst]
  split
  · next h => subst h; simp [Option.bind_map, hg, parentOf]
  · rfl

/-- Writing the kind of an instruction. -/
theorem kindOf_setKind {i : InstRef} {d : InstData} (hd : m.inst i = some d) (k : InstKind) :
    (m.updInst i fun d => { d with kind := k }).kindOf = Function.update m.kindOf i (some k) := by
  funext r
  rw [kindOf, inst_updInst]
  by_cases h : r = i
  · subst h; simp [hd]
  · rw [if_neg h, Function.update_of_ne h]; rfl

/-- Writing the parent of an instruction. -/
theorem parentOf_setParent {i : InstRef} {d : InstData} (hd : m.inst i = some d)
    (b : Option BlockRef) :
    (m.updInst i fun d => { d with parent := b }).parentOf = Function.update m.parentOf i b := by
  funext r
  rw [parentOf, inst_updInst]
  by_cases h : r = i
  · subst h; simp [hd]
  · rw [if_neg h, Function.update_of_ne h]; rfl

/-- A change of an instruction that keeps its use list keeps the use lists of values. -/
theorem valueUses_updInst {i : InstRef} {g : InstData → InstData} (hg : ∀ d, (g d).uses = d.uses) :
    (m.updInst i g).valueUses = m.valueUses := by
  funext v
  cases v with
  | inst r =>
    rw [valueUses, inst_updInst]
    exact map_ite_map m.inst g hg
  | _ => simp [valueUses]

/-- No change of an instruction reaches the use lists of blocks. -/
theorem blockUses_updInst {i : InstRef} {g : InstData → InstData} :
    (m.updInst i g).blockUses = m.blockUses := by
  funext b
  simp [blockUses]

/-- No change of a block reaches the use lists of values. -/
theorem valueUses_updBlock {b : BlockRef} {g : BlockData → BlockData} :
    (m.updBlock b g).valueUses = m.valueUses := by
  funext v
  cases v <;> simp [valueUses]

/-- A change of a block that keeps its use list keeps the use lists of blocks. -/
theorem blockUses_updBlock {b : BlockRef} {g : BlockData → BlockData}
    (hg : ∀ d, (g d).uses = d.uses) : (m.updBlock b g).blockUses = m.blockUses := by
  funext c
  rw [blockUses, block_updBlock]
  exact map_ite_map m.block g hg

/-- The operand that stands in a slot is unique. -/
theorem OperandOf.unique {u : Use} {v w : ValueId} (hv : m.OperandOf u v) (hw : m.OperandOf u w) :
    v = w := by
  obtain ⟨d, hd, hv⟩ := hv
  obtain ⟨d', hd', hw⟩ := hw
  rw [hd] at hd'
  cases hd'
  exact InstKind.eq_of_mem_slot d.kind.valueOperands_nodup hv hw

/-- A slot holds at most one block. -/
theorem BlockOperandOf.unique {u : BlockUse} {b c : BlockRef} (hb : m.BlockOperandOf u b)
    (hc : m.BlockOperandOf u c) : b = c := by
  obtain ⟨d, hd, hfb, hb⟩ := hb
  obtain ⟨d', hd', hfc, hc⟩ := hc
  rw [hd] at hd'
  cases hd'
  cases b
  cases c
  simp only [BlockRef.mk.injEq]
  exact ⟨hfb.trans hfc.symm, InstKind.eq_of_mem_slot d.kind.blockOperands_nodup hb hc⟩

end Views

/-! ## Changes outside the use lists -/

section Registered

variable {m m' : ModuleCore} {P P' : InstRef → Prop} {user : InstRef}

/-- `Registered` depends on the use lists and on the kinds of the registered instructions. -/
theorem Registered.congr (h : m.Registered P) (hv : m'.valueUses = m.valueUses)
    (hb : m'.blockUses = m.blockUses) (hP : ∀ r, P' r ↔ P r)
    (hk : ∀ r, P r → m'.kindOf r = m.kindOf r) : m'.Registered P' := by
  constructor
  · rw [hv]
    refine h.values.congr fun u v => ?_
    rw [hP]
    refine and_congr_right fun hu => ?_
    rw [operandOf_iff, operandOf_iff, hk u.user hu]
  · rw [hb]
    refine h.blocks.congr fun u b => ?_
    rw [hP]
    refine and_congr_right fun hu => ?_
    rw [blockOperandOf_iff, blockOperandOf_iff, hk u.user hu]

/-- An instruction without operands may be counted as registered or not. -/
theorem Registered.of_no_operands (h : m.Registered P) {k : InstKind} (hk : m.kindOf user = some k)
    (hvals : k.valueOperands = []) (hblocks : k.blockOperands = [])
    (hP : ∀ r, r ≠ user → (P' r ↔ P r)) : m.Registered P' := by
  constructor
  · refine h.values.congr fun u v => ?_
    by_cases hu : u.user = user
    · have : ¬ m.OperandOf u v := by
        rw [operandOf_iff, hu, hk]
        simp [hvals]
      simp [this]
    · rw [hP _ hu]
  · refine h.blocks.congr fun u b => ?_
    by_cases hu : u.user = user
    · have : ¬ m.BlockOperandOf u b := by
        rw [blockOperandOf_iff, hu, hk]
        simp [hblocks]
      simp [this]
    · rw [hP _ hu]

/-! ## Registering and unregistering -/

/-- The records of the operands of one instruction are distinct, as their slots are. -/
theorem record_nodup {ν σ τ : Type} {ops : List (ν × σ)} (hops : (ops.map Prod.snd).Nodup)
    {f : σ → τ} (hf : Function.Injective f) : (ops.map fun op => f op.2).Nodup := by
  have h := hops.map hf
  rwa [List.map_map] at h

/-- Registering an instruction adds it to the registered ones and keeps the code. -/
theorem registerInstUse_spec (h : m.Registered P) (hP : ¬ P user)
    (hrun : m.registerInstUse user = some m') :
    m'.Registered (fun r => P r ∨ r = user) ∧ SameCode m m' := by
  obtain ⟨d, hd, hrun⟩ := Option.bind_eq_some_iff.mp hrun
  obtain ⟨m₁, hvals, hblocks⟩ := Option.bind_eq_some_iff.mp hrun
  -- values and blocks are written one after the other, and neither touches the other's lists
  have hframe₁ : m₁.blockUses = m.blockUses ∧ SameCode m m₁ :=
    OptionFold.preserves (fun s => s.blockUses = m.blockUses ∧ SameCode m s)
      (fun op _ s s' hs hstep => by
        obtain ⟨l, hw⟩ := updValueUses_spec hstep
        exact ⟨hw.blocks.trans hs.1, hs.2.trans hw.code⟩) ⟨rfl, SameCode.refl m⟩ hvals
  have hframe₂ : m'.valueUses = m₁.valueUses ∧ SameCode m m' :=
    OptionFold.preserves (fun s => s.valueUses = m₁.valueUses ∧ SameCode m s)
      (fun op _ s s' hs hstep => by
        obtain ⟨l, hw⟩ := updBlockUses_spec hstep
        exact ⟨hw.values.trans hs.1, hs.2.trans hw.code⟩) ⟨rfl, hframe₁.2⟩ hblocks
  refine ⟨⟨?_, ?_⟩, hframe₂.2⟩
  · -- the value operands
    have hpush := ReverseIndex.push_all valueUses Prod.fst
      (fun op : ValueId × OperandSlot => (⟨user, op.2⟩ : Use))
      (fun s op s' hstep => by
        obtain ⟨l, hw⟩ := updValueUses_spec hstep
        exact ⟨l, hw.live, hw.values⟩)
      (record_nodup d.kind.valueOperands_nodup fun a b hab => by cases hab; rfl) h.values
      (fun op _ v hR => hP hR.1) hvals
    rw [hframe₂.1]
    refine hpush.congr fun u v => ?_
    rw [operandOf_iff, operandOf_iff, hframe₂.2.kindOf, or_and_right]
    refine or_congr_right ?_
    constructor
    · rintro ⟨op, hop, rfl, rfl⟩
      exact ⟨rfl, d.kind, kindOf_of_inst hd, hop⟩
    · rintro ⟨rfl, k, hk, hmem⟩
      rw [kindOf_of_inst hd] at hk
      cases hk
      exact ⟨(v, u.slot), hmem, rfl, rfl⟩
  -- the block operands
  · have hbase : ReverseIndex m₁.blockUses fun u b => P u.user ∧ m.BlockOperandOf u b := by
      rw [hframe₁.1]
      exact h.blocks
    have hpush := ReverseIndex.push_all blockUses
      (fun op : BlockId × BlockOperandSlot => (⟨user.func, op.1⟩ : BlockRef))
      (fun op : BlockId × BlockOperandSlot => (⟨user, op.2⟩ : BlockUse))
      (fun s op s' hstep => by
        obtain ⟨l, hw⟩ := updBlockUses_spec hstep
        exact ⟨l, hw.live, hw.blocks⟩)
      (record_nodup d.kind.blockOperands_nodup fun a b hab => by cases hab; rfl) hbase
      (fun op _ v hR => hP hR.1) hblocks
    refine hpush.congr fun u b => ?_
    rw [blockOperandOf_iff, blockOperandOf_iff, hframe₂.2.kindOf, or_and_right]
    refine or_congr_right ?_
    constructor
    · rintro ⟨op, hop, rfl, rfl⟩
      exact ⟨rfl, d.kind, kindOf_of_inst hd, rfl, hop⟩
    · rintro ⟨hu, k, hk, hf, hmem⟩
      subst hu
      rw [kindOf_of_inst hd] at hk
      cases hk
      exact ⟨(b.block, u.slot), hmem, rfl, by cases b; cases hf; rfl⟩

/-- Unregistering an instruction takes it from the registered ones and keeps the code. -/
theorem unregisterInstUse_spec (h : m.Registered P) (hrun : m.unregisterInstUse user = some m') :
    m'.Registered (fun r => P r ∧ r ≠ user) ∧ SameCode m m' := by
  obtain ⟨d, hd, hrun⟩ := Option.bind_eq_some_iff.mp hrun
  obtain ⟨m₁, hvals, hblocks⟩ := Option.bind_eq_some_iff.mp hrun
  -- values and blocks are written one after the other, and neither touches the other's lists
  have hframe₁ : m₁.blockUses = m.blockUses ∧ SameCode m m₁ :=
    OptionFold.preserves (fun s => s.blockUses = m.blockUses ∧ SameCode m s)
      (fun op _ s s' hs hstep => by
        obtain ⟨l, hw⟩ := updValueUses_spec hstep
        exact ⟨hw.blocks.trans hs.1, hs.2.trans hw.code⟩) ⟨rfl, SameCode.refl m⟩ hvals
  have hframe₂ : m'.valueUses = m₁.valueUses ∧ SameCode m m' :=
    OptionFold.preserves (fun s => s.valueUses = m₁.valueUses ∧ SameCode m s)
      (fun op _ s s' hs hstep => by
        obtain ⟨l, hw⟩ := updBlockUses_spec hstep
        exact ⟨hw.values.trans hs.1, hs.2.trans hw.code⟩) ⟨rfl, hframe₁.2⟩ hblocks
  refine ⟨⟨?_, ?_⟩, hframe₂.2⟩
  -- the value operands
  · have herase := ReverseIndex.erase_all valueUses Prod.fst
      (fun op : ValueId × OperandSlot => (⟨user, op.2⟩ : Use))
      (fun s op s' hstep => by
        obtain ⟨l, hw⟩ := updValueUses_spec hstep
        exact ⟨l, hw.live, hw.values⟩) h.values hvals
    rw [hframe₂.1]
    refine herase.congr fun u v => ?_
    rw [operandOf_iff, operandOf_iff, hframe₂.2.kindOf]
    constructor
    · rintro ⟨⟨hP, k, hk, hmem⟩, hnot⟩
      refine ⟨⟨hP, ?_⟩, k, hk, hmem⟩
      rintro rfl
      rw [kindOf_of_inst hd] at hk
      cases hk
      exact hnot ⟨(v, u.slot), hmem, rfl, rfl⟩
    · rintro ⟨⟨hP, hne⟩, k, hk, hmem⟩
      refine ⟨⟨hP, k, hk, hmem⟩, ?_⟩
      rintro ⟨op, -, rfl, -⟩
      exact hne rfl
  -- the block operands
  · have hbase : ReverseIndex m₁.blockUses fun u b => P u.user ∧ m.BlockOperandOf u b := by
      rw [hframe₁.1]
      exact h.blocks
    have herase := ReverseIndex.erase_all blockUses
      (fun op : BlockId × BlockOperandSlot => (⟨user.func, op.1⟩ : BlockRef))
      (fun op : BlockId × BlockOperandSlot => (⟨user, op.2⟩ : BlockUse))
      (fun s op s' hstep => by
        obtain ⟨l, hw⟩ := updBlockUses_spec hstep
        exact ⟨l, hw.live, hw.blocks⟩) hbase hblocks
    refine herase.congr fun u b => ?_
    rw [blockOperandOf_iff, blockOperandOf_iff, hframe₂.2.kindOf]
    constructor
    · rintro ⟨⟨hP, k, hk, hf, hmem⟩, hnot⟩
      refine ⟨⟨hP, ?_⟩, k, hk, hf, hmem⟩
      rintro rfl
      rw [kindOf_of_inst hd] at hk
      cases hk
      exact hnot ⟨(b.block, u.slot), hmem, rfl, by cases b; cases hf; rfl⟩
    · rintro ⟨⟨hP, hne⟩, k, hk, hf, hmem⟩
      refine ⟨⟨hP, k, hk, hf, hmem⟩, ?_⟩
      rintro ⟨op, -, rfl, -⟩
      exact hne rfl

end Registered

end ModuleCore

end Ir
