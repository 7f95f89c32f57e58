import C0mpiler.Opt.MergeReturnJoin
import C0mpiler.Sem.WellFormed
import Mathlib

/-!
# Merging returns preserves functions

A well-formed function stays well formed when its returns are merged: one return is left, at the
end of the new block, and the phi in front of it has one incoming for each jump. The function runs
as before, as far as one looks at the blocks it had: the new block is passed between the end of a
block and the return.
-/

namespace Ir

namespace Code

variable {C C' : Code} {f : FunctionId} {fd : FunctionData} {rets : List InstId} {nb : BlockId}
  {ret : InstId} {phi : Option JoinPhi} {jump : InstId → InstId}

/-- A return of a well-formed function stands at the end of one block. -/
theorem WellFormed.returnAt (hwf : C.WellFormed f fd) {i : InstId} {d : InstData}
    {value : Option ValueId} (hd : C.inst ⟨f, i⟩ = some d) (hparent : d.parent.isSome)
    (huses : d.uses = []) (hk : d.kind = .ret value) :
    (∃ b, C.ReturnAt f i b value) ∧ (value = none ↔ fd.ty.returnType = .void) := by
  obtain ⟨hty, hvalue⟩ := hwf.returns i d value hd hparent hk
  obtain ⟨⟨f', b⟩, hb⟩ := Option.isSome_iff_exists.mp hparent
  obtain ⟨rfl, bd, hbd, hphis, hinsts, hterm⟩ := hwf.placed i d _ hd hb
  rw [hk] at hphis hinsts hterm
  have hops : ∀ v ∈ value, ∃ ty, C.valueTy v = some ty ∧ ty ≠ .void := by
    rintro v rfl
    exact hwf.operands i d hd hparent (v, .retVal) (by rw [hk]; exact List.mem_singleton_self _)
  refine ⟨⟨b, ⟨d.name, ?_⟩, ⟨bd, hbd, hterm.mpr rfl, fun h => ?_, fun h => ?_⟩, ?_, hops⟩, ?_⟩
  · rw [hd, ← hty, ← hk, ← huses, ← hb]
  · cases (hinsts.mp h).2
  · cases hphis.mp h
  · intro b' bd' hbd' hterm'
    obtain ⟨d', hd', hb', -⟩ := hwf.owned b' bd' i hbd' (Or.inr (Or.inr hterm'))
    rw [hd] at hd'
    cases hd'
    rw [hb] at hb'
    cases hb'
    rfl
  · cases value with
    | none => exact ⟨fun _ => hvalue, fun _ => rfl⟩
    | some v =>
      obtain ⟨ty, hty', hvoid⟩ := hops v rfl
      refine ⟨nofun, fun hreturn => absurd ?_ hvoid⟩
      exact (Option.some.inj (hty'.symm.trans hvalue)).trans hreturn

/-- An instruction that stands in no block may come in. -/
theorem WellFormed.detached (hwf : C.WellFormed f fd) {r : InstRef} {stray : InstData}
    (hfresh : C.inst r = none) (hstray : stray.parent = none) :
    ({ C with inst := Function.update C.inst r (some stray) } : Code).WellFormed f fd := by
  generalize hC : ({ C with inst := Function.update C.inst r (some stray) } : Code) = C'
  have hblock : C'.block = C.block := by rw [← hC]
  have hgrows : C.Grows C' := by
    rw [← hC]
    refine ⟨fun r' d hd => ?_, fun _ _ h => h, rfl, rfl⟩
    show Function.update C.inst r (some stray) r' = some d
    rw [Function.update_of_ne, hd]
    rintro rfl
    rw [hfresh] at hd
    cases hd
  -- a stray instruction has no parent, so what has one is old
  have hplaced : ∀ i d, C'.inst ⟨f, i⟩ = some d → d.parent.isSome → C.inst ⟨f, i⟩ = some d := by
    intro i d hd hparent
    rw [← hC] at hd
    change Function.update C.inst r (some stray) ⟨f, i⟩ = some d at hd
    rwa [Function.update_of_ne] at hd
    rintro rfl
    rw [Function.update_self] at hd
    cases hd
    rw [hstray] at hparent
    cases hparent
  -- a terminator stands in its block, so the graph stays
  have hterm : ∀ b k, C'.TerminatorIs f b k ↔ C.TerminatorIs f b k := by
    intro b k
    constructor
    -- from the new code to the old one
    · rintro ⟨bd, t, d, hb, ht, hd, rfl⟩
      rw [hblock] at hb
      obtain ⟨d₀, hd₀, -⟩ := hwf.owned b bd t hb (Or.inr (Or.inr ht))
      rw [hgrows.inst _ _ hd₀] at hd
      cases hd
      exact ⟨bd, t, _, hb, ht, hd₀, rfl⟩
    -- and back
    · rintro ⟨bd, t, d, hb, ht, hd, rfl⟩
      exact ⟨bd, t, d, hblock ▸ hb, ht, hgrows.inst _ _ hd, rfl⟩
  have hedge : C'.Edge f = C.Edge f := by
    funext p b
    exact propext (exists_congr fun slot => exists_congr fun k => and_congr_left fun _ => hterm p k)
  -- computed values stay where they are
  have hcomputed : ∀ j a, C.ComputedIn f j a → C'.ComputedIn f j a := by
    rintro j a ⟨hf, d, hd, hparent⟩
    exact ⟨hf, d, hgrows.inst _ _ hd, hparent⟩
  exact {
    func := by rw [← hC]; exact hwf.func
    isDefined := hwf.isDefined
    nodup := hwf.nodup
    entry := hwf.entry
    blocks := fun b => by rw [hblock]; exact hwf.blocks b
    terminated := fun b bd hb => hwf.terminated b bd (hblock ▸ hb)
    distinct := fun b bd hb => hwf.distinct b bd (hblock ▸ hb)
    owned := fun b bd i hb hholds => by
      -- the fields of `WellFormed`, in their order
      obtain ⟨d, hd, howned⟩ := hwf.owned b bd i (hblock ▸ hb) hholds
      exact ⟨d, hgrows.inst _ _ hd, howned⟩
    placed := fun i d b hd hparent => by
      rw [hblock]
      exact hwf.placed i d b (hplaced i d hd (Option.isSome_of_eq_some hparent)) hparent
    targets := fun i d hd hparent op hop => by
      rw [hblock]
      exact hwf.targets i d (hplaced i d hd hparent) hparent op hop
    operands := fun i d hd hparent op hop => by
      obtain ⟨ty, hty, hvoid⟩ := hwf.operands i d (hplaced i d hd hparent) hparent op hop
      exact ⟨ty, hgrows.valueTy hty, hvoid⟩
    available := fun i d b hd hparent hk op hop j hj => by
      obtain ⟨a, ha, hplace⟩ := hwf.available i d b
        (hplaced i d hd (Option.isSome_of_eq_some hparent)) hparent hk op hop j hj
      refine ⟨a, hcomputed j a ha, ?_⟩
      rw [hblock, hedge]
      exact hplace
    incoming := fun i d incomings idx hd hparent hk k incoming hlookup j hj => by
      obtain ⟨a, ha, hdom⟩ := hwf.incoming i d incomings idx (hplaced i d hd hparent) hparent hk k
        incoming hlookup j hj
      refine ⟨a, hcomputed j a ha, ?_⟩
      rw [hedge]
      exact hdom
    returns := fun i d value hd hparent hk => by
      obtain ⟨hty, hvalue⟩ := hwf.returns i d value (hplaced i d hd hparent) hparent hk
      refine ⟨hty, ?_⟩
      cases value with
      | none => exact hvalue
      | some v => exact hgrows.valueTy hvalue }

theorem ReturnAt.terminatorIs {i : InstId} {b : BlockId} {value : Option ValueId}
    (h : C.ReturnAt f i b value) : C.TerminatorIs f b (.ret value) := by
  obtain ⟨name, hinst⟩ := h.inst
  obtain ⟨bd, hb, ht, -⟩ := h.block
  exact ⟨bd, i, _, hb, ht, hinst, rfl⟩

theorem WellFormed.target_isSome (hwf : C.WellFormed f fd) {p b : BlockId} {k : InstKind}
    {slot : BlockOperandSlot} (hterm : C.TerminatorIs f p k) (hmem : (b, slot) ∈ k.blockOperands) :
    (C.block ⟨f, b⟩).isSome := by
  obtain ⟨bd, t, d, hb, ht, hd, rfl⟩ := hterm
  obtain ⟨d', hd', hparent, -⟩ := hwf.owned p bd t hb (Or.inr (Or.inr ht))
  rw [hd] at hd'
  cases hd'
  exact hwf.targets t d hd (Option.isSome_of_eq_some hparent) _ hmem

/-! ## What the code holds -/

section Inversion

variable (hwf : C.WellFormed f fd) (h : C.Merged C' f rets nb ret phi jump)
  (hrets : ∀ i ∈ rets, ∃ b value, C.ReturnAt f i b value)
include h hrets

theorem Merged.inst_cases {i : InstId} {d : InstData} (hd : C'.inst ⟨f, i⟩ = some d) :
    (i = ret ∧ d = ⟨some ⟨f, nb⟩, .void, .ret (phi.map fun p => .inst ⟨f, p.inst⟩), [], none⟩) ∨
    (∃ p ∈ phi, i = p.inst ∧ d = p.data ⟨f, nb⟩) ∨
    (∃ j ∈ rets, i = jump j ∧ ∃ b value, C.ReturnAt f j b value ∧
      d = ⟨some ⟨f, b⟩, .void, .branch nb none, [], none⟩) ∨
    (i ∉ rets ∧ C.inst ⟨f, i⟩ = some d) := by
  by_cases hret : i = ret
  · subst hret
    rw [h.joinRet] at hd
    exact Or.inl ⟨rfl, (Option.some.inj hd).symm⟩
  by_cases hphi : ∃ p ∈ phi, i = p.inst
  · obtain ⟨p, hp, rfl⟩ := hphi
    rw [h.joinPhi p hp] at hd
    exact Or.inr (Or.inl ⟨p, hp, rfl, (Option.some.inj hd).symm⟩)
  by_cases hjump : ∃ j ∈ rets, i = jump j
  · obtain ⟨j, hj, rfl⟩ := hjump
    obtain ⟨b, value, hat⟩ := hrets j hj
    rw [h.jumps j hj b value hat] at hd
    exact Or.inr (Or.inr (Or.inl ⟨j, hj, rfl, b, value, hat, (Option.some.inj hd).symm⟩))
  have hmem : i ∉ rets := fun hmem => by
    rw [h.erased i hmem] at hd
    cases hd
  refine Or.inr (Or.inr (Or.inr ⟨hmem, ?_⟩))
  rw [← hd, h.insts]
  · exact fun heq => hret (InstRef.mk.inj heq).2
  · exact fun p hp heq => hphi ⟨p, hp, (InstRef.mk.inj heq).2⟩
  · exact fun j hj => ⟨fun heq => hmem ((InstRef.mk.inj heq).2 ▸ hj),
      fun heq => hjump ⟨j, hj, (InstRef.mk.inj heq).2⟩⟩

omit hrets in
/-- All but the returns stays. -/
theorem Merged.inst_old {r : InstRef} {d : InstData} (hd : C.inst r = some d)
    (hr : ∀ i ∈ rets, r ≠ ⟨f, i⟩) : C'.inst r = some d := by
  obtain ⟨hret, hphi, hjump⟩ := h.unused
  rw [h.insts, hd]
  · rintro rfl
    rw [hret] at hd
    cases hd
  · rintro p hp rfl
    rw [hphi p hp] at hd
    cases hd
  · refine fun i hi => ⟨hr i hi, ?_⟩
    rintro rfl
    rw [hjump i hi] at hd
    cases hd

omit hrets in
theorem Merged.block_cases {b : BlockId} {bd : BlockData} (hb : C'.block ⟨f, b⟩ = some bd) :
    (b = nb ∧ bd = ⟨some ".ret", (phi.map JoinPhi.inst).toList, [], some ret, f, []⟩) ∨
    (b ≠ nb ∧ ∃ bd₀, C.block ⟨f, b⟩ = some bd₀ ∧ bd = bd₀.retarget rets jump) := by
  by_cases hne : b = nb
  · subst hne
    rw [h.joinBlock] at hb
    exact Or.inl ⟨rfl, (Option.some.inj hb).symm⟩
  · rw [h.block b hne] at hb
    obtain ⟨bd₀, hb₀, rfl⟩ := Option.map_eq_some_iff.mp hb
    exact Or.inr ⟨hne, bd₀, hb₀, rfl⟩

omit hrets in
theorem Merged.block_old {b : BlockId} {bd : BlockData} (hb : C.block ⟨f, b⟩ = some bd) :
    b ≠ nb ∧ C'.block ⟨f, b⟩ = some (bd.retarget rets jump) := by
  have hne : b ≠ nb := by
    rintro rfl
    rw [h.fresh] at hb
    cases hb
  exact ⟨hne, by rw [h.block b hne, hb]; rfl⟩

include hwf

/-- The terminators: the new block returns, the others keep theirs or jump to it. -/
theorem Merged.terminatorIs_iff {b : BlockId} {k : InstKind} : C'.TerminatorIs f b k ↔
    (b = nb ∧ k = .ret (phi.map fun p => .inst ⟨f, p.inst⟩)) ∨
    (k = .branch nb none ∧ ∃ i ∈ rets, ∃ value, C.ReturnAt f i b value) ∨
    (C.TerminatorIs f b k ∧ ∀ i ∈ rets, ∀ value, ¬C.ReturnAt f i b value) := by
  -- a return is the terminator of its block only
  have hat : ∀ {bd t}, C.block ⟨f, b⟩ = some bd → bd.terminator = some t →
      (t ∈ rets ↔ ∃ i ∈ rets, ∃ value, C.ReturnAt f i b value) := by
    intro bd t hb ht
    constructor
    -- `t` is one of the returns
    · intro hmem
      obtain ⟨b', value, hat⟩ := hrets t hmem
      obtain rfl := hat.only b bd hb ht
      exact ⟨t, hmem, value, hat⟩
    · rintro ⟨i, hi, value, hat⟩
      obtain ⟨bd', hb', hterm, -⟩ := hat.block
      rw [hb] at hb'
      cases hb'
      rw [ht] at hterm
      exact Option.some.inj hterm ▸ hi
  constructor
  -- from the new code: the join block, a jump, or an old terminator
  · rintro ⟨bd, t, d, hb, ht, hd, rfl⟩
    rcases h.block_cases hb with ⟨rfl, rfl⟩ | ⟨hne, bd₀, hb₀, rfl⟩
    · obtain rfl : ret = t := Option.some.inj ht
      rw [h.joinRet] at hd
      cases hd
      exact Or.inl ⟨rfl, rfl⟩
    · obtain ⟨t₀, ht₀, hjump⟩ := Option.map_eq_some_iff.mp ht
      by_cases hmem : t₀ ∈ rets
      · rw [if_pos hmem] at hjump
        subst hjump
        obtain ⟨b', value, hret⟩ := hrets t₀ hmem
        obtain rfl := hret.only b bd₀ hb₀ ht₀
        rw [h.jumps t₀ hmem _ value hret] at hd
        cases hd
        exact Or.inr (Or.inl ⟨rfl, t₀, hmem, value, hret⟩)
      · rw [if_neg hmem] at hjump
        subst hjump
        -- an old terminator that is not a return stays
        obtain ⟨d₀, hd₀, -⟩ := hwf.owned b bd₀ t₀ hb₀ (Or.inr (Or.inr ht₀))
        have hd₀' := h.inst_old hd₀ fun i hi heq => hmem ((InstRef.mk.inj heq).2 ▸ hi)
        rw [hd] at hd₀'
        cases hd₀'
        exact Or.inr (Or.inr ⟨⟨bd₀, t₀, d, hb₀, ht₀, hd₀, rfl⟩,
          fun i hi value hret => hmem ((hat hb₀ ht₀).mpr ⟨i, hi, value, hret⟩)⟩)
  -- back, case by case
  · rintro (⟨rfl, rfl⟩ | ⟨rfl, i, hi, value, hret⟩ | ⟨⟨bd, t, d, hb, ht, hd, rfl⟩, hnot⟩)
    · exact ⟨_, ret, _, h.joinBlock, rfl, h.joinRet, rfl⟩
    · obtain ⟨bd, hb, ht, -⟩ := hret.block
      refine ⟨_, jump i, _, (h.block_old hb).2, ?_, h.jumps i hi b value hret, rfl⟩
      simp only [BlockData.retarget, ht, Option.map_some, if_pos hi]
    · have hmem : t ∉ rets := fun hmem => by
        obtain ⟨i, hi, value, hret⟩ := (hat hb ht).mp hmem
        exact hnot i hi value hret
      refine ⟨_, t, d, (h.block_old hb).2, ?_, h.inst_old hd fun i hi heq => ?_, rfl⟩
      · simp only [BlockData.retarget, ht, Option.map_some, if_neg hmem]
      · exact hmem ((InstRef.mk.inj heq).2 ▸ hi)

/-- The edges: those to the new block come from the old returns. -/
theorem Merged.edgeAt_iff {p b : BlockId} {slot : BlockOperandSlot} : C'.EdgeAt f p slot b ↔
    if b = nb then slot = .branchThen ∧ ∃ i ∈ rets, ∃ value, C.ReturnAt f i p value
    else C.EdgeAt f p slot b := by
  constructor
  · rintro ⟨k, hterm, hmem⟩
    rcases (h.terminatorIs_iff hwf hrets).mp hterm with ⟨-, rfl⟩ | ⟨rfl, hret⟩ | ⟨hold, -⟩
    · cases hmem
    · cases List.mem_singleton.mp hmem
      rw [if_pos rfl]
      exact ⟨rfl, hret⟩
    · rw [if_neg fun hb => ?_]
      · exact ⟨k, hold, hmem⟩
      · have hsome := hwf.target_isSome hold hmem
        rw [hb, h.fresh] at hsome
        cases hsome
  · intro hedge
    split at hedge
    · next hb =>
      subst hb
      obtain ⟨rfl, hret⟩ := hedge
      exact ⟨_, (h.terminatorIs_iff hwf hrets).mpr (Or.inr (Or.inl ⟨rfl, hret⟩)),
        List.mem_singleton_self _⟩
    · obtain ⟨k, hterm, hmem⟩ := hedge
      refine ⟨k, (h.terminatorIs_iff hwf hrets).mpr (Or.inr (Or.inr ⟨hterm, ?_⟩)), hmem⟩
      intro i hi value hret
      obtain rfl := hterm.unique hret.terminatorIs
      cases hmem

theorem Merged.edge_iff {p b : BlockId} (hb : b ≠ nb) : C'.Edge f p b ↔ C.Edge f p b :=
  exists_congr fun slot => by rw [h.edgeAt_iff hwf hrets, if_neg hb]

/-- Paths to a block of the function do not pass the new one. -/
theorem Merged.path_old {entry b : BlockId} {p : List BlockId}
    (hpath : Flow.Path (C'.Edge f) entry b p) (hb : b ≠ nb) : Flow.Path (C.Edge f) entry b p := by
  induction hpath with
  | nil => exact .nil
  | @snoc u v p hp he ih =>
    refine .snoc (ih fun hu => ?_) ((h.edge_iff hwf hrets hb).mp he)
    obtain ⟨slot, k, hterm, hmem⟩ := (h.edge_iff hwf hrets hb).mp he
    obtain ⟨bd, t, d, hbd, -⟩ := hterm
    rw [hu, h.fresh] at hbd
    cases hbd

theorem Merged.dominates {entry a b : BlockId} (hdom : Flow.Dominates (C.Edge f) entry a b)
    (hb : b ≠ nb) : Flow.Dominates (C'.Edge f) entry a b :=
  fun p hp => hdom p (h.path_old hwf hrets hp hb)

/-! ## Well-formedness -/

omit hwf in
theorem Merged.inst_of_ty {r : InstRef} {d : InstData} (hd : C.inst r = some d) (hty : d.ty ≠ .void) :
    C'.inst r = some d := by
  refine h.inst_old hd ?_
  rintro i hi rfl
  obtain ⟨b, value, hret⟩ := hrets i hi
  obtain ⟨name, hinst⟩ := hret.inst
  rw [hd] at hinst
  cases hinst
  exact hty rfl

omit hwf in
/-- What an operand stands for stays. -/
theorem Merged.valueTy {v : ValueId} {ty : Ty} (hty : C.valueTy v = some ty) (hvoid : ty ≠ .void) :
    C'.valueTy v = some ty := by
  obtain ⟨harg, hglobal, hconsts⟩ := h.rest
  cases v with
  | inst r =>
    obtain ⟨d, hd, rfl⟩ := Option.map_eq_some_iff.mp hty
    exact Option.map_eq_some_iff.mpr ⟨d, h.inst_of_ty hrets hd hvoid, rfl⟩
  | arg a => rw [← hty]; exact congrArg (Option.map _) (congrFun harg a)
  | global g => rw [← hty]; exact congrArg (Option.map _) (congrFun hglobal g)
  | const c => rw [← hty]; exact congrArg (Option.map _) (congrFun hconsts c)

theorem Merged.computedIn {r : InstRef} {a : BlockId} {ty : Ty} (hcomputed : C.ComputedIn f r a)
    (hty : C.valueTy (.inst r) = some ty) (hvoid : ty ≠ .void) : C'.ComputedIn f r a ∧ a ≠ nb := by
  obtain ⟨hf, d, hd, hparent⟩ := hcomputed
  obtain ⟨d', hd', rfl⟩ := Option.map_eq_some_iff.mp hty
  rw [hd] at hd'
  cases hd'
  refine ⟨⟨hf, d, h.inst_of_ty hrets hd hvoid, hparent⟩, ?_⟩
  obtain ⟨f', i⟩ := r
  obtain rfl : f' = f := hf
  obtain ⟨-, bd, hbd, -⟩ := hwf.placed i d _ hd hparent
  exact (h.block_old hbd).1

/-- A value of an instruction is there after the block of it. -/
theorem Merged.availableAfter {v : ValueId} {b : BlockId} {i : InstId} {entry : BlockId} {ty : Ty}
    (hv : C.AvailableAt f entry v b i) (hty : C.valueTy v = some ty) (hvoid : ty ≠ .void)
    (hb : b ≠ nb) : C'.AvailableAfter f entry v b := by
  rintro j rfl
  obtain ⟨a, hcomputed, hplace⟩ := hv j rfl
  refine ⟨a, (h.computedIn hwf hrets hcomputed hty hvoid).1, ?_⟩
  rcases hplace with ⟨rfl, -⟩ | ⟨-, hdom⟩
  · exact fun p hp => hp.dst_mem
  · exact h.dominates hwf hrets hdom hb

theorem Merged.availableAfter_old {v : ValueId} {p entry : BlockId} {ty : Ty}
    (hv : C.AvailableAfter f entry v p) (hty : C.valueTy v = some ty) (hvoid : ty ≠ .void)
    (hp : p ≠ nb) : C'.AvailableAfter f entry v p := by
  rintro j rfl
  obtain ⟨a, hcomputed, hdom⟩ := hv j rfl
  exact ⟨a, (h.computedIn hwf hrets hcomputed hty hvoid).1, h.dominates hwf hrets hdom hp⟩

theorem Merged.availableAt {v : ValueId} {b entry : BlockId} {i : InstId} {ty : Ty}
    (hv : C.AvailableAt f entry v b i) (hty : C.valueTy v = some ty) (hvoid : ty ≠ .void)
    (hb : b ≠ nb) (hi : i ∉ rets) : C'.AvailableAt f entry v b i := by
  rintro j rfl
  obtain ⟨a, hcomputed, hplace⟩ := hv j rfl
  refine ⟨a, (h.computedIn hwf hrets hcomputed hty hvoid).1, ?_⟩
  rcases hplace with ⟨rfl, bd, hbd, hbefore⟩ | ⟨hne, hdom⟩
  · refine Or.inl ⟨rfl, _, (h.block_old hbd).2, ?_⟩
    rcases hbefore with hphi | hinst | ⟨hterm, hmem⟩
    · exact Or.inl hphi
    · exact Or.inr (Or.inl hinst)
    · refine Or.inr (Or.inr ⟨?_, hmem⟩)
      rw [BlockData.retarget, hterm, Option.map_some, if_neg hi]
  · exact Or.inr ⟨hne, h.dominates hwf hrets hdom hb⟩

omit hwf hrets in
theorem Merged.phi_ne_ret {p : JoinPhi} (hp : p ∈ phi) : p.inst ≠ ret := by
  intro heq
  have hphi := h.joinPhi p hp
  rw [heq, h.joinRet] at hphi
  have hkind := congrArg InstData.kind (Option.some.inj hphi)
  cases hkind

omit hwf hrets in
theorem Merged.holdsAs_old {bd : BlockData} {i : InstId} {k : InstKind} (hholds : bd.HoldsAs i k)
    (hi : i ∉ rets) (hsome : (C.inst ⟨f, i⟩).isSome) : (bd.retarget rets jump).HoldsAs i k := by
  obtain ⟨hphis, hinsts, hterm⟩ := hholds
  refine ⟨hphis, hinsts, ?_⟩
  rw [← hterm]
  simp only [BlockData.retarget, Option.map_eq_some_iff]
  constructor
  · rintro ⟨t, ht, heq⟩
    split at heq
    · next hmem =>
      rw [← heq, h.unused.2.2 t hmem] at hsome
      cases hsome
    · exact heq ▸ ht
  · intro ht
    exact ⟨i, ht, if_neg hi⟩

omit hrets in
theorem Merged.holdsAs_jump {b : BlockId} {bd : BlockData} {i : InstId} {value : Option ValueId}
    (hi : i ∈ rets) (hret : C.ReturnAt f i b value) (hbd : C.block ⟨f, b⟩ = some bd) :
    (bd.retarget rets jump).HoldsAs (jump i) (.branch nb none) := by
  have hnot : ¬bd.Holds (jump i) := fun hholds => by
    obtain ⟨d, hd, -⟩ := hwf.owned b bd _ hbd hholds
    rw [h.unused.2.2 i hi] at hd
    cases hd
  obtain ⟨bd', hbd', hterm, -⟩ := hret.block
  rw [hbd] at hbd'
  cases hbd'
  refine ⟨⟨fun hmem => absurd (Or.inl hmem) hnot, nofun⟩,
    ⟨fun hmem => absurd (Or.inr (Or.inl hmem)) hnot, fun hk => by cases hk.2⟩, fun _ => rfl, fun _ => ?_⟩
  rw [BlockData.retarget, hterm, Option.map_some, if_pos hi]

omit hwf h hrets in
/-- What stands in the new block. -/
theorem join_holds {i : InstId} :
    (⟨some ".ret", (phi.map JoinPhi.inst).toList, [], some ret, f, []⟩ : BlockData).Holds i ↔
      (∃ p ∈ phi, i = p.inst) ∨ i = ret := by
  simp only [BlockData.Holds, Option.mem_toList, Option.mem_def, Option.map_eq_some_iff,
    List.not_mem_nil, false_or, Option.some.injEq]
  exact or_congr (exists_congr fun p => and_congr_right fun _ => eq_comm) eq_comm

omit hwf hrets in
theorem Merged.join_holdsAs_ret (value : Option ValueId) :
    (⟨some ".ret", (phi.map JoinPhi.inst).toList, [], some ret, f, []⟩ : BlockData).HoldsAs ret
      (.ret value) := by
  refine ⟨⟨fun hmem => ?_, nofun⟩, ⟨nofun, fun hk => by cases hk.2⟩, fun _ => rfl, fun _ => rfl⟩
  obtain ⟨p, hp, heq⟩ := Option.map_eq_some_iff.mp (Option.mem_toList.mp hmem)
  exact absurd heq (h.phi_ne_ret hp)

omit hwf hrets in
theorem Merged.join_holdsAs_phi {p : JoinPhi} (hp : p ∈ phi) (b : BlockRef) :
    (⟨some ".ret", (phi.map JoinPhi.inst).toList, [], some ret, f, []⟩ : BlockData).HoldsAs p.inst
      (p.data b).kind := by
  refine ⟨⟨fun _ => rfl, fun _ => ?_⟩, ⟨nofun, fun hk => by cases hk.1⟩, fun hret => ?_, nofun⟩
  · cases hp
    exact List.mem_singleton_self _
  · exact absurd (Option.some.inj hret).symm (h.phi_ne_ret hp)

/-- What stands in a block is owned by it. -/
theorem Merged.owned {b : BlockId} {bd : BlockData} {i : InstId} (hb : C'.block ⟨f, b⟩ = some bd)
    (hholds : bd.Holds i) :
    ∃ d, C'.inst ⟨f, i⟩ = some d ∧ d.parent = some ⟨f, b⟩ ∧ bd.HoldsAs i d.kind := by
  rcases h.block_cases hb with ⟨rfl, rfl⟩ | ⟨-, bd₀, hb₀, rfl⟩
  · rcases join_holds.mp hholds with ⟨p, hp, rfl⟩ | rfl
    · exact ⟨_, h.joinPhi p hp, rfl, h.join_holdsAs_phi hp _⟩
    · exact ⟨_, h.joinRet, rfl, h.join_holdsAs_ret _⟩
  · have hkeep : bd₀.Holds i → i ∉ rets → ∃ d, C'.inst ⟨f, i⟩ = some d ∧
        d.parent = some ⟨f, b⟩ ∧ (bd₀.retarget rets jump).HoldsAs i d.kind := by
      intro hholds hi
      obtain ⟨d, hd, hparent, has⟩ := hwf.owned b bd₀ i hb₀ hholds
      exact ⟨d, h.inst_old hd fun j hj heq => hi ((InstRef.mk.inj heq).2 ▸ hj), hparent,
        h.holdsAs_old has hi (Option.isSome_of_eq_some hd)⟩
    -- only the terminator may be a return
    have hnot : i ∈ bd₀.phis ∨ i ∈ bd₀.insts → i ∉ rets := by
      intro hmem hi
      obtain ⟨b', value, hret⟩ := hrets i hi
      obtain ⟨name, hinst⟩ := hret.inst
      obtain ⟨d, hd, -, hphis, hinsts, -⟩ := hwf.owned b bd₀ i hb₀ (hmem.imp_right Or.inl)
      rw [hinst] at hd
      cases hd
      rcases hmem with hmem | hmem
      · cases hphis.mp hmem
      · cases (hinsts.mp hmem).2
    rcases hholds with hmem | hmem | hterm
    · exact hkeep (Or.inl hmem) (hnot (Or.inl hmem))
    · exact hkeep (Or.inr (Or.inl hmem)) (hnot (Or.inr hmem))
    · obtain ⟨t, ht, heq⟩ := Option.map_eq_some_iff.mp hterm
      by_cases hmem : t ∈ rets
      · rw [if_pos hmem] at heq
        subst heq
        obtain ⟨b', value, hret⟩ := hrets t hmem
        obtain rfl := hret.only b bd₀ hb₀ ht
        exact ⟨_, h.jumps t hmem _ value hret, rfl, h.holdsAs_jump hwf hmem hret hb₀⟩
      · rw [if_neg hmem] at heq
        subst heq
        exact hkeep (Or.inr (Or.inr ht)) hmem

/-! ### The fields of `WellFormed`

Each instruction of the new code is the new return, the new phi, a jump or an old instruction
(`Merged.inst_cases`); the case splits below follow that. -/

omit hrets in
theorem Merged.blocks {b : BlockId} :
    b ∈ fd.blockOrder ++ [nb] ↔ (C'.block ⟨f, b⟩).isSome := by
  rw [List.mem_append, List.mem_singleton, hwf.blocks]
  by_cases hb : b = nb
  · subst hb
    rw [h.joinBlock]
    exact ⟨fun _ => rfl, fun _ => Or.inr rfl⟩
  · rw [h.block b hb, Option.isSome_map]
    exact ⟨fun hor => hor.resolve_right hb, Or.inl⟩

omit hrets in
theorem Merged.nodup : (fd.blockOrder ++ [nb]).Nodup := by
  refine List.nodup_append.mpr ⟨hwf.nodup, List.nodup_singleton _, ?_⟩
  rintro b hb _ hb' rfl
  obtain rfl := List.mem_singleton.mp hb'
  have hsome := (hwf.blocks b).mp hb
  rw [h.fresh] at hsome
  cases hsome

omit hwf hrets in
theorem Merged.block_isSome {b : BlockId} (hb : (C.block ⟨f, b⟩).isSome) :
    (C'.block ⟨f, b⟩).isSome := by
  obtain ⟨bd, hbd⟩ := Option.isSome_iff_exists.mp hb
  exact Option.isSome_of_eq_some (h.block_old hbd).2

theorem Merged.placed {i : InstId} {d : InstData} {b : BlockRef} (hd : C'.inst ⟨f, i⟩ = some d)
    (hparent : d.parent = some b) :
    b.func = f ∧ ∃ bd, C'.block b = some bd ∧ bd.HoldsAs i d.kind := by
  rcases h.inst_cases hrets hd with ⟨rfl, rfl⟩ | ⟨p, hp, rfl, rfl⟩ |
    ⟨j, hj, rfl, b', value, hret, rfl⟩ | ⟨hi, hold⟩
  · cases hparent
    exact ⟨rfl, _, h.joinBlock, h.join_holdsAs_ret _⟩
  · cases hparent
    exact ⟨rfl, _, h.joinBlock, h.join_holdsAs_phi hp _⟩
  · cases hparent
    obtain ⟨bd, hbd, -⟩ := hret.block
    exact ⟨rfl, _, (h.block_old hbd).2, h.holdsAs_jump hwf hj hret hbd⟩
  · obtain ⟨f', b⟩ := b
    obtain ⟨rfl, bd, hbd, hholds⟩ := hwf.placed i d _ hold hparent
    exact ⟨rfl, _, (h.block_old hbd).2, h.holdsAs_old hholds hi (Option.isSome_of_eq_some hold)⟩

section

variable (hphi : C.PhiFor f rets fd.ty.returnType phi)
include hphi

omit h hwf hrets in
/-- What the new phi takes comes from an old return. -/
theorem PhiFor.returnAt {p : JoinPhi} (hp : p ∈ phi) {k : Nat} {incoming : PhiIncoming}
    (hk : p.incomings.lookup k = some incoming) :
    ∃ i ∈ rets, C.ReturnAt f i incoming.block (some incoming.value) := by
  obtain rfl : phi = some p := hp
  obtain ⟨i, hi, hret⟩ := (hphi.2.2 k incoming).mp hk
  exact ⟨i, List.mem_of_getElem? hi, hret⟩

omit hwf hrets in
/-- The new phi has the type of the function. -/
theorem Merged.phi_ty {p : JoinPhi} (hp : p ∈ phi) :
    C'.valueTy (.inst ⟨f, p.inst⟩) = some fd.ty.returnType ∧ fd.ty.returnType ≠ .void := by
  obtain rfl : phi = some p := hp
  exact ⟨Option.map_eq_some_iff.mpr ⟨_, h.joinPhi p rfl, hphi.2.1⟩, hphi.1⟩

theorem Merged.targets {i : InstId} {d : InstData} (hd : C'.inst ⟨f, i⟩ = some d)
    (hparent : d.parent.isSome) {op : BlockId × BlockOperandSlot} (hop : op ∈ d.kind.blockOperands) :
    (C'.block ⟨f, op.1⟩).isSome := by
  rcases h.inst_cases hrets hd with ⟨rfl, rfl⟩ | ⟨p, hp, rfl, rfl⟩ |
    ⟨j, hj, rfl, b', value, hret, rfl⟩ | ⟨hi, hold⟩
  · cases hop
  · obtain ⟨e, he, rfl⟩ := List.mem_map.mp hop
    obtain ⟨i, -, hret⟩ := hphi.returnAt hp (AList.mem_lookup_iff.mpr he)
    obtain ⟨bd, hbd, -⟩ := hret.block
    exact h.block_isSome (Option.isSome_of_eq_some hbd)
  · cases List.mem_singleton.mp hop
    exact Option.isSome_of_eq_some h.joinBlock
  · exact h.block_isSome (hwf.targets i d hold hparent op hop)

theorem Merged.operands {i : InstId} {d : InstData} (hd : C'.inst ⟨f, i⟩ = some d)
    (hparent : d.parent.isSome) {op : ValueId × OperandSlot} (hop : op ∈ d.kind.valueOperands) :
    ∃ ty, C'.valueTy op.1 = some ty ∧ ty ≠ .void := by
  rcases h.inst_cases hrets hd with ⟨rfl, rfl⟩ | ⟨p, hp, rfl, rfl⟩ |
    ⟨j, hj, rfl, b', value, hret, rfl⟩ | ⟨hi, hold⟩
  · cases phi with
    | none => cases hop
    | some p =>
      cases List.mem_singleton.mp hop
      exact ⟨_, h.phi_ty hphi rfl⟩
  · obtain ⟨e, he, rfl⟩ := List.mem_map.mp hop
    obtain ⟨i, -, hret⟩ := hphi.returnAt hp (AList.mem_lookup_iff.mpr he)
    obtain ⟨ty, hty, hvoid⟩ := hret.value _ rfl
    exact ⟨ty, h.valueTy hrets hty hvoid, hvoid⟩
  · cases hop
  · obtain ⟨ty, hty, hvoid⟩ := hwf.operands i d hold hparent op hop
    exact ⟨ty, h.valueTy hrets hty hvoid, hvoid⟩

theorem Merged.available {i : InstId} {d : InstData} {b : BlockId} (hd : C'.inst ⟨f, i⟩ = some d)
    (hparent : d.parent = some ⟨f, b⟩) (hk : d.kind.isPhi = false) {op : ValueId × OperandSlot}
    (hop : op ∈ d.kind.valueOperands) : C'.AvailableAt f fd.entry op.1 b i := by
  rcases h.inst_cases hrets hd with ⟨rfl, rfl⟩ | ⟨p, hp, rfl, rfl⟩ |
    ⟨j, hj, rfl, b', value, hret, rfl⟩ | ⟨hi, hold⟩
  · cases hparent
    cases phi with
    | none => cases hop
    | some p =>
      -- the phi stands in front of the return
      cases List.mem_singleton.mp hop
      rintro j hj
      cases hj
      exact ⟨nb, ⟨rfl, _, h.joinPhi p rfl, rfl⟩, Or.inl ⟨rfl, _, h.joinBlock,
        Or.inr (Or.inr ⟨rfl, Or.inl (List.mem_singleton_self _)⟩)⟩⟩
  · cases hk
  · cases hop
  · obtain ⟨ty, hty, hvoid⟩ := hwf.operands i d hold (Option.isSome_of_eq_some hparent) op hop
    obtain ⟨-, bd, hbd, -⟩ := hwf.placed i d _ hold hparent
    exact h.availableAt hwf hrets (hwf.available i d b hold hparent hk op hop) hty hvoid
      (h.block_old hbd).1 hi

theorem Merged.incoming {i : InstId} {d : InstData} {incomings : HashMap Nat PhiIncoming}
    {idx : Nat} (hd : C'.inst ⟨f, i⟩ = some d) (hparent : d.parent.isSome)
    (hk : d.kind = .phi incomings idx) {k : Nat} {incoming : PhiIncoming}
    (hlookup : incomings.lookup k = some incoming) :
    C'.AvailableAfter f fd.entry incoming.value incoming.block := by
  rcases h.inst_cases hrets hd with ⟨rfl, rfl⟩ | ⟨p, hp, rfl, rfl⟩ |
    ⟨j, hj, rfl, b', value, hret, rfl⟩ | ⟨hi, hold⟩
  · cases hk
  · -- the old return read the value at the end of the same block
    cases hk
    obtain ⟨i, -, hret⟩ := hphi.returnAt hp hlookup
    obtain ⟨name, hinst⟩ := hret.inst
    obtain ⟨bd, hbd, -⟩ := hret.block
    obtain ⟨ty, hty, hvoid⟩ := hret.value _ rfl
    have hv := hwf.available i _ _ hinst rfl rfl (incoming.value, .retVal) (List.mem_singleton_self _)
    exact h.availableAfter hwf hrets hv hty hvoid (h.block_old hbd).1
  · cases hk
  · have hmem := AList.mem_lookup_iff.mp hlookup
    obtain ⟨ty, hty, hvoid⟩ := hwf.operands i d hold hparent (incoming.value, .phiIncomingVal k) (by
      rw [hk]
      exact List.mem_map.mpr ⟨_, hmem, rfl⟩)
    obtain ⟨bd, hbd⟩ := Option.isSome_iff_exists.mp
      (hwf.targets i d hold hparent (incoming.block, .phiIncomingBlock k) (by
        rw [hk]
        exact List.mem_map.mpr ⟨_, hmem, rfl⟩))
    exact h.availableAfter_old hwf hrets
      (hwf.incoming i d incomings idx hold hparent hk k incoming hlookup) hty hvoid
      (h.block_old hbd).1

omit hwf in
/-- The only return is the new one. -/
theorem Merged.returns
    (hall : ∀ i d value, C.inst ⟨f, i⟩ = some d → d.kind = .ret value → i ∈ rets)
    {i : InstId} {d : InstData} {value : Option ValueId} (hd : C'.inst ⟨f, i⟩ = some d)
    (hk : d.kind = .ret value) : d.ty = .void ∧
      value.elim (fd.ty.returnType = .void) fun v => C'.valueTy v = some fd.ty.returnType := by
  rcases h.inst_cases hrets hd with ⟨rfl, rfl⟩ | ⟨p, hp, rfl, rfl⟩ |
    ⟨j, hj, rfl, b', value', hret, rfl⟩ | ⟨hi, hold⟩
  · cases hk
    refine ⟨rfl, ?_⟩
    cases phi with
    | none => exact hphi
    | some p => exact (h.phi_ty hphi rfl).1
  · cases hk
  · cases hk
  · exact absurd (hall i d value hold hk) hi

/-- A well-formed function stays well formed. -/
theorem Merged.wellFormed
    (hall : ∀ i d value, C.inst ⟨f, i⟩ = some d → d.kind = .ret value → i ∈ rets) :
    C'.WellFormed f { fd with blockOrder := fd.blockOrder ++ [nb] } where
  func := by
    rw [h.func, hwf.func]
    rfl
  isDefined := hwf.isDefined
  nodup := h.nodup hwf
  entry := List.mem_append_left _ hwf.entry
  blocks _ := h.blocks hwf
  terminated b bd hb := by
    rcases h.block_cases hb with ⟨-, rfl⟩ | ⟨-, bd₀, hb₀, rfl⟩
    · exact ⟨ret, rfl⟩
    · obtain ⟨t, ht⟩ := hwf.terminated b bd₀ hb₀
      exact ⟨_, by rw [BlockData.retarget, ht]; rfl⟩
  distinct b bd hb := by
    rcases h.block_cases hb with ⟨-, rfl⟩ | ⟨-, bd₀, hb₀, rfl⟩
    · exact ⟨by cases phi <;> simp, List.nodup_nil⟩
    · exact hwf.distinct b bd₀ hb₀
  owned _ _ _ hb hholds := h.owned hwf hrets hb hholds
  placed _ _ _ hd hparent := h.placed hwf hrets hd hparent
  targets _ _ hd hparent _ hop := h.targets hwf hrets hphi hd hparent hop
  operands _ _ hd hparent _ hop := h.operands hwf hrets hphi hd hparent hop
  available _ _ _ hd hparent hk _ hop := h.available hwf hrets hphi hd hparent hk hop
  incoming _ _ _ _ hd hparent hk _ _ hlookup := h.incoming hwf hrets hphi hd hparent hk hlookup
  returns _ _ _ hd _ hk := h.returns hrets hphi hall hd hk

end

/-! ## The phis -/

/-- The phis of the old blocks match their edges as before, and the new one matches its own. -/
theorem Merged.phiMatches (hphi : C.PhiFor f rets fd.ty.returnType phi) (hnodup : rets.Nodup) :
    (∀ b incomings, b ≠ nb → (C'.PhiMatches f b incomings ↔ C.PhiMatches f b incomings)) ∧
      ∀ p ∈ phi, C'.PhiMatches f nb p.incomings := by
  refine ⟨fun b incomings hb => ?_, ?_⟩
  · have hedge : ∀ p s, C'.EdgeAt f p s b ↔ C.EdgeAt f p s b := fun p s => by
      rw [h.edgeAt_iff hwf hrets, if_neg hb]
    simp only [PhiMatches, hedge]
  · rintro p rfl
    have hedge : ∀ b s, C'.EdgeAt f b s nb ↔ s = .branchThen ∧ ∃ i ∈ rets, ∃ value,
        C.ReturnAt f i b value := fun b s => by
      rw [h.edgeAt_iff hwf hrets, if_pos rfl]
    refine ⟨fun _ => .branchThen, fun k incoming hk => ?_, fun b s hs => ?_⟩
    · obtain ⟨i, hi, hret⟩ := (hphi.2.2 k incoming).mp hk
      exact (hedge _ _).mpr ⟨rfl, i, List.mem_of_getElem? hi, _, hret⟩
    · obtain ⟨rfl, i, hi, value, hret⟩ := (hedge b s).mp hs
      obtain ⟨v, rfl⟩ : ∃ v, value = some v := by
        obtain ⟨name, hinst⟩ := hret.inst
        have hnone := (hwf.returnAt hinst rfl rfl rfl).2
        exact Option.ne_none_iff_exists'.mp fun hv => hphi.1 (hnone.mp hv)
      obtain ⟨k, hk⟩ := List.mem_iff_getElem?.mp hi
      refine ⟨k, ⟨⟨b, v⟩, (hphi.2.2 k _).mpr ⟨i, hk, hret⟩, rfl, rfl⟩, ?_⟩
      rintro k' ⟨incoming, hk', rfl, -⟩
      obtain ⟨i', hi', hret'⟩ := (hphi.2.2 k' incoming).mp hk'
      -- both are the terminator of the block
      obtain ⟨bd, hbd, hterm, -⟩ := hret.block
      obtain ⟨bd', hbd', hterm', -⟩ := hret'.block
      rw [hbd] at hbd'
      cases hbd'
      obtain rfl : i = i' := Option.some.inj (hterm.symm.trans hterm')
      obtain ⟨hlt, -⟩ := List.getElem?_eq_some_iff.mp hi'
      exact (List.getElem?_inj hlt hnodup).mp (hi'.trans hk.symm)

end Inversion

end Code

end Ir
