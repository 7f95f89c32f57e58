import Mathlib

/-!
# Moves in sequence and in parallel

A list of moves between registers is carried out one move after the other (`Move.run`). A list in
which no move reads or writes what an earlier one has written does what its moves would do all at
once (`run_dst`). Where moves form cycles, some of them are split over a temporary register of
their own (`Detour`): saved before the ordered moves and restored after them, they too deliver the
values from before the sequence (`run_detours`).
-/

structure Move (α : Type) where
  dst : α
  src : α
  deriving DecidableEq

namespace Move

variable {α β : Type} [DecidableEq α]

/-- Carry out the moves one after the other. -/
def run (l : List (Move α)) (ρ : α → β) : α → β :=
  l.foldl (fun ρ m => Function.update ρ m.dst (ρ m.src)) ρ

@[simp] theorem run_nil (ρ : α → β) : run [] ρ = ρ := rfl

@[simp] theorem run_cons (m : Move α) (l : List (Move α)) (ρ : α → β) :
    run (m :: l) ρ = run l (Function.update ρ m.dst (ρ m.src)) := rfl

theorem run_append (l l' : List (Move α)) (ρ : α → β) : run (l ++ l') ρ = run l' (run l ρ) :=
  List.foldl_append

/-- What no move writes is unchanged. -/
theorem run_of_notMem {l : List (Move α)} {x : α} (h : x ∉ l.map dst) (ρ : α → β) :
    run l ρ x = ρ x := by
  induction l generalizing ρ with
  | nil => rfl
  | cons m l ih =>
    simp only [List.map_cons, List.mem_cons, not_or] at h
    rw [run_cons, ih h.2, Function.update_of_ne h.1]

/-- No move reads or writes what an earlier one has written. -/
def Ordered (l : List (Move α)) : Prop :=
  l.Pairwise fun m m' => m'.src ≠ m.dst ∧ m'.dst ≠ m.dst

/-- Ordered moves deliver what their sources held before the first of them. -/
theorem run_dst {l : List (Move α)} (hl : Ordered l) {m : Move α} (hm : m ∈ l) (ρ : α → β) :
    run l ρ m.dst = ρ m.src := by
  induction l generalizing ρ with
  | nil => cases hm
  | cons m₀ l ih =>
    obtain ⟨hhead, htail⟩ := List.pairwise_cons.mp hl
    rcases List.mem_cons.mp hm with rfl | hm
    · have hnot : m.dst ∉ l.map dst := by
        intro h
        obtain ⟨m', hm', heq⟩ := List.mem_map.mp h
        exact (hhead m' hm').2 heq
      rw [run_cons, run_of_notMem hnot, Function.update_self]
    · rw [run_cons, ih htail hm, Function.update_of_ne (hhead m hm).1]

/-- A register that no move reads may hold anything before them. -/
theorem run_update_of_notRead {l : List (Move α)} {x z : α} (h : ∀ m ∈ l, m.src ≠ z) (hx : x ≠ z)
    (ρ : α → β) (y : β) : run l (Function.update ρ z y) x = run l ρ x := by
  induction l generalizing ρ with
  | nil => exact Function.update_of_ne hx y ρ
  | cons m l ih =>
    obtain ⟨hm, hl⟩ := List.forall_mem_cons.mp h
    rw [run_cons, run_cons, Function.update_of_ne hm]
    by_cases hdst : m.dst = z
    · rw [hdst, Function.update_idem]
    · rw [Function.update_comm (Ne.symm hdst)]
      exact ih hl _

/-- The moves into a register can be left out for all the others, where no move reads the register
behind a move into it. -/
theorem run_filter_dst {l : List (Move α)} {x z : α}
    (h : l.Pairwise fun m m' => m.dst = z → m'.src ≠ z) (hx : x ≠ z) (ρ : α → β) :
    run (l.filter fun m => m.dst ≠ z) ρ x = run l ρ x := by
  induction l generalizing ρ with
  | nil => rfl
  | cons m l ih =>
    obtain ⟨hhead, htail⟩ := List.pairwise_cons.mp h
    by_cases hdst : m.dst = z
    · rw [List.filter_cons_of_neg (by simp [hdst]), ih htail, run_cons, hdst]
      exact (run_update_of_notRead (fun m' hm' => hhead m' hm' hdst) hx ρ _).symm
    · rw [List.filter_cons_of_pos (by simp [hdst]), run_cons, run_cons, ih htail]

end Move

/-- A move that is carried out in two halves, over a register of its own. -/
structure Detour (α : Type) where
  temp : α
  dst : α
  src : α

namespace Detour

variable {α β : Type} [DecidableEq α]

/-- The move as a whole. -/
def move (d : Detour α) : Move α := ⟨d.dst, d.src⟩

def save (d : Detour α) : Move α := ⟨d.temp, d.src⟩

def restore (d : Detour α) : Move α := ⟨d.dst, d.temp⟩

/-- The temporary registers of `ds` are different and none of them occurs in the moves of `l`. -/
structure Fresh (ds : List (Detour α)) (l : List (Move α)) : Prop where
  nodup : (ds.map temp).Nodup
  ne_src : ∀ d ∈ ds, ∀ m ∈ l, m.src ≠ d.temp
  ne_dst : ∀ d ∈ ds, ∀ m ∈ l, m.dst ≠ d.temp

omit [DecidableEq α] in
theorem ordered_save {ds : List (Detour α)} {l : List (Move α)} (hf : Fresh ds l)
    (hsub : ∀ d ∈ ds, d.move ∈ l) : Move.Ordered (ds.map save) := by
  refine List.pairwise_map.mpr ?_
  have hpair : ds.Pairwise fun d d' => d.temp ≠ d'.temp := List.pairwise_map.mp hf.nodup
  exact hpair.imp_of_mem fun hd hd' hne =>
    ⟨hf.ne_src _ hd (move _) (hsub _ hd'), fun h => hne h.symm⟩

omit [DecidableEq α] in
theorem ordered_restore {ds : List (Detour α)} {l : List (Move α)} (hf : Fresh ds l)
    (hsub : ∀ d ∈ ds, d.move ∈ l) (hnodup : (ds.map dst).Nodup) :
    Move.Ordered (ds.map restore) := by
  refine List.pairwise_map.mpr ?_
  have hpair : ds.Pairwise fun d d' => d.dst ≠ d'.dst := List.pairwise_map.mp hnodup
  exact hpair.imp_of_mem fun hd hd' hne =>
    ⟨fun h => hf.ne_dst _ hd' (move _) (hsub _ hd) h.symm, fun h => hne h.symm⟩

section

variable {ds : List (Detour α)} {mid l : List (Move α)}

/-- The registers that the three groups of moves write: those of the moves and the temporaries. -/
theorem run_detours_of_notMem (hperm : (mid ++ ds.map move).Perm l) {x : α}
    (hx : x ∉ l.map Move.dst) (ht : x ∉ ds.map temp) (ρ : α → β) :
    Move.run (ds.map save ++ mid ++ ds.map restore) ρ x = ρ x := by
  refine Move.run_of_notMem ?_ ρ
  intro h
  simp only [List.map_append, List.map_map, List.mem_append] at h
  have hdst : ∀ y, y ∈ mid.map Move.dst ∨ y ∈ ds.map dst → y ∈ l.map Move.dst := by
    intro y hy
    rw [← (hperm.map Move.dst).mem_iff, List.map_append, List.map_map]
    exact List.mem_append.mpr hy
  rcases h with (h | h) | h
  · exact ht h
  · exact hx (hdst x (Or.inl h))
  · exact hx (hdst x (Or.inr h))

/-- Detours around ordered moves: together they do what all the moves of `l` do at once. -/
theorem run_detours (hperm : (mid ++ ds.map move).Perm l) (hnodup : (l.map Move.dst).Nodup)
    (hmid : mid.Pairwise fun m m' => m'.src ≠ m.dst) (hf : Fresh ds l) {m : Move α} (hm : m ∈ l)
    (ρ : α → β) :
    Move.run (ds.map save ++ mid ++ ds.map restore) ρ m.dst = ρ m.src := by
  -- moves and detours are the moves of the list, each with its own destination
  have hsub : ∀ d ∈ ds, d.move ∈ l := fun d hd =>
    hperm.subset (List.mem_append_right _ (List.mem_map_of_mem hd))
  have hmidsub : ∀ m ∈ mid, m ∈ l := fun m hm => hperm.subset (List.mem_append_left _ hm)
  have hdst : (mid.map Move.dst ++ ds.map dst).Nodup := by
    have := (hperm.map Move.dst).nodup_iff.mpr hnodup
    rwa [List.map_append, List.map_map] at this
  obtain ⟨hmidnd, hdsnd, hdisj⟩ := List.nodup_append.mp hdst
  have hord : Move.Ordered mid :=
    (hmid.and (List.pairwise_map.mp hmidnd)).imp fun h => ⟨h.1, fun he => h.2 he.symm⟩
  -- a detour is restored by its own move
  have hrestore := ordered_restore hf hsub hdsnd
  rw [Move.run_append, Move.run_append]
  rcases List.mem_append.mp (hperm.mem_iff.mpr hm) with hm' | hm'
  · -- an ordered move: its source is no temporary, and its destination is not restored
    have hlast : m.dst ∉ (ds.map restore).map Move.dst := by
      rw [List.map_map]
      intro h
      exact hdisj m.dst (List.mem_map_of_mem hm') m.dst h rfl
    have hfirst : m.src ∉ (ds.map save).map Move.dst := by
      rw [List.map_map]
      intro h
      obtain ⟨d, hd, heq⟩ := List.mem_map.mp h
      exact hf.ne_src d hd m hm heq.symm
    rw [Move.run_of_notMem hlast, Move.run_dst hord hm', Move.run_of_notMem hfirst]
  · -- a detour: the temporary keeps what it saved until it is restored
    obtain ⟨d, hd, rfl⟩ := List.mem_map.mp hm'
    have hkeep : d.temp ∉ mid.map Move.dst := by
      intro h
      obtain ⟨m', hm₁, heq⟩ := List.mem_map.mp h
      exact hf.ne_dst d hd m' (hmidsub m' hm₁) heq
    have hlast := Move.run_dst hrestore (List.mem_map_of_mem hd)
      (Move.run mid (Move.run (ds.map save) ρ))
    have hfirst := Move.run_dst (ordered_save hf hsub) (List.mem_map_of_mem hd) ρ
    calc Move.run (ds.map restore) (Move.run mid (Move.run (ds.map save) ρ)) d.move.dst
        = Move.run mid (Move.run (ds.map save) ρ) d.temp := hlast
      _ = Move.run (ds.map save) ρ d.temp := Move.run_of_notMem hkeep _
      _ = ρ d.move.src := hfirst

omit [DecidableEq α] in
/-- Behind a move into a register that is no temporary, the register is not read. -/
theorem pairwise_detours {z : α} (hmid : mid.Pairwise fun m m' => m'.src ≠ m.dst)
    (hz : z ∉ ds.map temp) :
    (ds.map save ++ mid ++ ds.map restore).Pairwise fun m m' => m.dst = z → m'.src ≠ z := by
  have htemp : ∀ d ∈ ds, d.temp ≠ z := fun d hd heq => hz (heq ▸ List.mem_map_of_mem hd)
  have hsave : ∀ m ∈ ds.map save, m.dst ≠ z := by
    intro m hm
    obtain ⟨d, hd, rfl⟩ := List.mem_map.mp hm
    exact htemp d hd
  have hrestore : ∀ m ∈ ds.map restore, m.src ≠ z := by
    intro m hm
    obtain ⟨d, hd, rfl⟩ := List.mem_map.mp hm
    exact htemp d hd
  have hfirst : (ds.map save ++ mid).Pairwise fun m m' => m.dst = z → m'.src ≠ z := by
    refine List.pairwise_append.mpr ⟨?_, ?_, ?_⟩
    · exact List.pairwise_of_forall_mem_list fun m hm _ _ heq => absurd heq (hsave m hm)
    · exact hmid.imp fun hne heq hsrc => hne (hsrc.trans heq.symm)
    · exact fun m hm _ _ heq => absurd heq (hsave m hm)
  refine List.pairwise_append.mpr ⟨hfirst, ?_, fun _ _ m' hm' _ => hrestore m' hm'⟩
  exact List.pairwise_of_forall_mem_list fun _ _ m' hm' _ => hrestore m' hm'

end

end Detour
