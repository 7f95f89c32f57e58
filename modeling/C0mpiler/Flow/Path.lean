import Mathlib

/-!
# Flow graphs — paths and dominance

A flow graph is an edge relation `E` on an arbitrary type together with a root. This module
fixes the path vocabulary (`Path`, `Reach`) and the dominance relation of the compiler
literature: `Dominates E r a b` says that every path from the root `r` to `b` goes through
`a`, and `IsIdom E r d b` that `d` is the closest strict dominator of `b`.

Nothing here depends on how a graph is stored: the control-flow graph of the IR instantiates
`E` with its successor sets.
-/

namespace Flow

variable {α : Type*} {E : α → α → Prop}

/-! ## Paths -/

/-- `Path E a b p`: `p` lists the nodes of a path from `a` to `b`, both ends included. -/
inductive Path (E : α → α → Prop) (a : α) : α → List α → Prop where
  | nil : Path E a a [a]
  | snoc {b c : α} {p : List α} (hp : Path E a b p) (he : E b c) : Path E a c (p ++ [c])

/-- `b` can be reached from `a`. -/
def Reach (E : α → α → Prop) (a b : α) : Prop := ∃ p, Path E a b p

theorem Reach.refl (a : α) : Reach E a a := ⟨[a], .nil⟩

theorem Reach.step {a b c : α} (h : Reach E a b) (he : E b c) : Reach E a c := by
  obtain ⟨p, hp⟩ := h
  exact ⟨p ++ [c], hp.snoc he⟩

/-- Reachability is closed under a property kept by every edge. -/
theorem Reach.induct {a b : α} {P : α → Prop} (h : Reach E a b) (hbase : P a)
    (hstep : ∀ u v, Reach E a u → P u → E u v → P v) : P b := by
  obtain ⟨p, hp⟩ := h
  induction hp with
  | nil => exact hbase
  | snoc hp he ih => exact hstep _ _ ⟨_, hp⟩ ih he

theorem Reach.trans {a b c : α} (h1 : Reach E a b) (h2 : Reach E b c) : Reach E a c :=
  h2.induct h1 fun _ _ _ ih he => ih.step he

theorem Path.dst_mem {a b : α} {p : List α} (h : Path E a b p) : b ∈ p := by
  cases h with
  | nil => exact List.mem_singleton.mpr rfl
  | snoc => simp

theorem Path.src_mem {a b : α} {p : List α} (h : Path E a b p) : a ∈ p := by
  induction h with
  | nil => exact List.mem_singleton.mpr rfl
  | snoc _ _ ih => exact List.mem_append_left _ ih

/-- Two paths compose, and the nodes of the composite are those of the two parts. -/
theorem Path.append {a b c : α} {p q : List α} (hp : Path E a b p) (hq : Path E b c q) :
    ∃ r, Path E a c r ∧ ∀ x ∈ r, x ∈ p ∨ x ∈ q := by
  induction hq with
  | nil => exact ⟨p, hp, fun x hx => Or.inl hx⟩
  | @snoc d e q hq he ih =>
    obtain ⟨r, hr, hsub⟩ := ih
    refine ⟨r ++ [e], hr.snoc he, ?_⟩
    intro x hx
    rcases List.mem_append.mp hx with hx | hx
    · rcases hsub x hx with h | h
      · exact Or.inl h
      · exact Or.inr (List.mem_append_left _ h)
    · exact Or.inr (List.mem_append_right _ hx)

/-- A node on a path is the end of a path that visits nothing else. -/
theorem Path.cut {a b x : α} {p : List α} (hp : Path E a b p) (hx : x ∈ p) :
    ∃ q, Path E a x q ∧ ∀ y ∈ q, y ∈ p := by
  induction hp with
  | nil =>
    rw [List.mem_singleton.mp hx]
    exact ⟨[a], .nil, fun _ hy => hy⟩
  | @snoc b c p hp he ih =>
    rcases List.mem_append.mp hx with hx | hx
    · obtain ⟨q, hq, hsub⟩ := ih hx
      exact ⟨q, hq, fun y hy => List.mem_append_left _ (hsub y hy)⟩
    · rw [List.mem_singleton.mp hx]
      exact ⟨p ++ [c], hp.snoc he, fun _ hy => hy⟩

/-- The rest of a path from one of its nodes on. -/
theorem Path.drop {a b x : α} {p : List α} (hp : Path E a b p) (hx : x ∈ p) :
    ∃ q, Path E x b q ∧ ∀ y ∈ q, y ∈ p := by
  induction hp with
  | nil =>
    rw [List.mem_singleton.mp hx]
    exact ⟨[a], .nil, fun _ hy => hy⟩
  | @snoc b c p hp he ih =>
    rcases List.mem_append.mp hx with hx | hx
    · obtain ⟨q, hq, hsub⟩ := ih hx
      refine ⟨q ++ [c], hq.snoc he, ?_⟩
      intro y hy
      rcases List.mem_append.mp hy with h | h
      · exact List.mem_append_left _ (hsub y h)
      · exact List.mem_append_right _ h
    · rw [List.mem_singleton.mp hx]
      exact ⟨[c], .nil, fun y hy => List.mem_append_right _ hy⟩

/-- Past the last visit to one of its nodes, a path does not meet that node again. -/
theorem Path.last_visit {a b x : α} {p : List α} (hp : Path E a b p) (hx : x ∈ p) (hne : x ≠ b) :
    ∃ y q, E x y ∧ Path E y b q ∧ x ∉ q ∧ ∀ z ∈ q, z ∈ p := by
  induction hp with
  | nil => exact absurd (List.mem_singleton.mp hx) hne
  | @snoc b c p hp he ih =>
    have hx' : x ∈ p := by
      rcases List.mem_append.mp hx with h | h
      · exact h
      · exact absurd (List.mem_singleton.mp h) hne
    by_cases hxb : x = b
    · subst hxb
      exact ⟨c, [c], he, .nil, by simpa using hne, fun z hz => List.mem_append_right _ hz⟩
    · obtain ⟨y, q, hxy, hq, hxq, hsub⟩ := ih hx' hxb
      refine ⟨y, q ++ [c], hxy, hq.snoc he, by simp [hxq, hne], ?_⟩
      intro z hz
      rcases List.mem_append.mp hz with h | h
      · exact List.mem_append_left _ (hsub z h)
      · exact List.mem_append_right _ h

/-- A map that keeps edges takes paths to paths. -/
theorem Path.map {β : Type*} {E' : β → β → Prop} (g : α → β) (hg : ∀ x y, E x y → E' (g x) (g y))
    {a b : α} {p : List α} (hp : Path E a b p) : Path E' (g a) (g b) (p.map g) := by
  induction hp with
  | nil => exact .nil
  | snoc hp he ih =>
    rw [List.map_append]
    exact ih.snoc (hg _ _ he)

theorem Path.reach {a b : α} {p : List α} (hp : Path E a b p) : Reach E a b := ⟨p, hp⟩

theorem Path.reach_of_mem {a b x : α} {p : List α} (hp : Path E a b p) (hx : x ∈ p) :
    Reach E a x := by
  obtain ⟨q, hq, _⟩ := hp.cut hx
  exact ⟨q, hq⟩

/-! ## Dominance -/

/-- `a` dominates `b`: every path from the root to `b` goes through `a`. -/
def Dominates (E : α → α → Prop) (r a b : α) : Prop := ∀ p, Path E r b p → a ∈ p

/-- `a` dominates `b` and is another node. -/
def StrictlyDominates (E : α → α → Prop) (r a b : α) : Prop := Dominates E r a b ∧ a ≠ b

/-- `d` is the closest strict dominator of `b`. -/
def IsIdom (E : α → α → Prop) (r d b : α) : Prop :=
  StrictlyDominates E r d b ∧ ∀ a, StrictlyDominates E r a b → Dominates E r a d

variable {r a b c d : α}

theorem Dominates.refl (r b : α) : Dominates E r b b := fun _ hp => hp.dst_mem

theorem Dominates.root (r b : α) : Dominates E r r b := fun _ hp => hp.src_mem

theorem Dominates.trans (h1 : Dominates E r a b) (h2 : Dominates E r b c) :
    Dominates E r a c := by
  intro p hp
  obtain ⟨q, hq, hsub⟩ := hp.cut (h2 p hp)
  exact hsub a (h1 q hq)

/-- A strict dominator of `b` dominates every predecessor of `b`. -/
theorem Dominates.pred (h : Dominates E r a b) (hne : a ≠ b) (he : E c b) :
    Dominates E r a c := by
  intro p hp
  have hmem : a ∈ p ++ [b] := h _ (hp.snoc he)
  rcases List.mem_append.mp hmem with h | h
  · exact h
  · exact absurd (List.mem_singleton.mp h) hne

theorem Dominates.reach (h : Dominates E r a b) (hb : Reach E r b) : Reach E r a := by
  obtain ⟨p, hp⟩ := hb
  exact hp.reach_of_mem (h p hp)

/-- Only the root dominates the root. -/
theorem Dominates.eq_root (h : Dominates E r a r) : a = r :=
  List.mem_singleton.mp (h [r] .nil)

/-- A path through one of two nodes starts with a path to one of them that leaves out the other. -/
theorem Path.first_of_two {a b c : α} {p : List α} (hp : Path E r c p) (hmem : a ∈ p ∨ b ∈ p)
    (hne : a ≠ b) : (∃ q, Path E r a q ∧ b ∉ q) ∨ ∃ q, Path E r b q ∧ a ∉ q := by
  induction hp with
  | nil =>
    rcases hmem with h | h
    · rw [List.mem_singleton.mp h] at hne ⊢
      exact Or.inl ⟨[r], .nil, by simpa using hne.symm⟩
    · rw [List.mem_singleton.mp h] at hne ⊢
      exact Or.inr ⟨[r], .nil, by simpa using hne⟩
  | @snoc d c p hp he ih =>
    by_cases hold : a ∈ p ∨ b ∈ p
    · exact ih hold
    · obtain ⟨ha, hb⟩ := not_or.mp hold
      simp only [List.mem_append, ha, hb, false_or, List.mem_singleton] at hmem
      rcases hmem with rfl | rfl
      · exact Or.inl ⟨_, hp.snoc he, by simp [hb, hne.symm]⟩
      · exact Or.inr ⟨_, hp.snoc he, by simp [ha, hne]⟩

/-- Two nodes that dominate each other are one, if they can be reached. -/
theorem Dominates.antisymm (hab : Dominates E r a b) (hba : Dominates E r b a) (hb : Reach E r b) :
    a = b := by
  by_contra hne
  obtain ⟨p, hp⟩ := hb
  rcases hp.first_of_two (Or.inr hp.dst_mem) hne with ⟨q, hq, hbq⟩ | ⟨q, hq, haq⟩
  · exact hbq (hba q hq)
  · exact haq (hab q hq)

/-- A node dominating `b` but not `c` lies on every way from `c` on to `b`. -/
theorem Dominates.mem_of_not (ha : Dominates E r a b) (hac : ¬ Dominates E r a c)
    {x : α} {q : List α} (hcx : E c x) (hq : Path E x b q) : a ∈ q := by
  obtain ⟨p, hp, hap⟩ : ∃ p, Path E r c p ∧ a ∉ p := by
    simpa [Dominates] using hac
  obtain ⟨t, ht, hsub⟩ := (hp.snoc hcx).append hq
  rcases hsub a (ha t ht) with h | h
  · rcases List.mem_append.mp h with h | h
    · exact absurd h hap
    · rw [List.mem_singleton.mp h]
      exact hq.src_mem
  · exact h

/-- Two dominators of a reachable node are comparable. -/
theorem Dominates.total (ha : Dominates E r a b) (hc : Dominates E r c b) (hb : Reach E r b) :
    Dominates E r a c ∨ Dominates E r c a := by
  by_cases hab : a = b
  · exact Or.inr (hab ▸ hc)
  by_cases hcb : c = b
  · exact Or.inl (hcb ▸ ha)
  by_contra hcon
  obtain ⟨hac, hca⟩ := not_or.mp hcon
  obtain ⟨p, hp⟩ := hb
  -- past the last visit to `a` the path still has to meet `c`, and from there `a` again
  obtain ⟨y, q, hay, hq, haq, -⟩ := hp.last_visit (ha p hp) hab
  obtain ⟨q', hq', hsub⟩ := hq.drop (hc.mem_of_not hca hay hq)
  obtain ⟨z, s, hcz, hs, -, hsub'⟩ := hq'.last_visit hq'.src_mem hcb
  exact haq (hsub a (hsub' a (ha.mem_of_not hac hcz hs)))

end Flow
