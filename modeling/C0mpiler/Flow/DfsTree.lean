import C0mpiler.Flow.Path
import Mathlib

/-!
# Flow graphs — depth-first trees and what dominance means on them

`DfsTree E root order parent` collects the facts a depth-first traversal establishes about
its preorder and its parent map: which nodes it lists, that parents come first, that an edge
going forward in preorder stays inside a subtree (`edge`), and that a subtree occupies an
interval of the preorder (`interval`).

On such a tree every dominator is an ancestor, and the closest strict dominator of a node is
its *meet*, the nearest common ancestor of its predecessors, exactly when no edge bypasses
the meet (`dominates_meet_iff_noBypass`).
-/

namespace Flow

variable {α : Type*}

/-! ## Ancestors in a parent map -/

/-- `Anc parent a b`: following `parent` from `b` reaches `a` (possibly at once). -/
inductive Anc (parent : α → Option α) (a : α) : α → Prop where
  | refl : Anc parent a a
  | child {b c : α} (hp : parent c = some b) (h : Anc parent a b) : Anc parent a c

variable {parent : α → Option α} {a b c : α}

theorem Anc.trans (h1 : Anc parent a b) (h2 : Anc parent b c) : Anc parent a c := by
  induction h2 with
  | refl => exact h1
  | child hp _ ih => exact .child hp ih

/-- A proper ancestor is an ancestor of the parent. -/
theorem Anc.of_parent (h : Anc parent a c) (hne : a ≠ c) (hp : parent c = some b) :
    Anc parent a b := by
  cases h with
  | refl => exact absurd rfl hne
  | child hp' h =>
    rw [hp] at hp'
    rwa [Option.some.inj hp']

theorem Anc.exists_parent (h : Anc parent a c) (hne : a ≠ c) :
    ∃ b, parent c = some b ∧ Anc parent a b := by
  cases h with
  | refl => exact absurd rfl hne
  | child hp h => exact ⟨_, hp, h⟩

/-- The ancestors of a node form a chain. -/
theorem Anc.total (ha : Anc parent a c) (hb : Anc parent b c) :
    Anc parent a b ∨ Anc parent b a := by
  induction ha generalizing b with
  | refl => exact Or.inr hb
  | child hp h ih =>
    cases hb with
    | refl => exact Or.inl (.child hp h)
    | child hp' hb =>
      rw [hp] at hp'
      rw [← Option.some.inj hp'] at hb
      exact ih hb

/-! ## Depth-first trees -/

/-- What a depth-first traversal from `root` establishes about its preorder and parent map. -/
structure DfsTree [DecidableEq α] (E : α → α → Prop) (root : α) (order : List α)
    (parent : α → Option α) : Prop where
  nodup : order.Nodup
  mem_iff : ∀ v, v ∈ order ↔ Reach E root v
  root_none : parent root = none
  root_le : ∀ v, order.idxOf root ≤ order.idxOf v
  parent_isSome : ∀ v ∈ order, v ≠ root → ∃ p, parent v = some p
  parent_edge : ∀ v p, parent v = some p → E p v
  parent_mem : ∀ v p, parent v = some p → v ∈ order ∧ p ∈ order
  parent_lt : ∀ v p, parent v = some p → order.idxOf p < order.idxOf v
  edge : ∀ u ∈ order, ∀ v, E u v → order.idxOf u < order.idxOf v → Anc parent u v
  interval : ∀ a, ∀ b ∈ order, ∀ c ∈ order, Anc parent a c → order.idxOf a ≤ order.idxOf b →
    order.idxOf b ≤ order.idxOf c → Anc parent a b

namespace DfsTree

variable [DecidableEq α] {E : α → α → Prop} {root : α} {order : List α}

theorem anc_mem (t : DfsTree E root order parent) (h : Anc parent a b) (hb : b ∈ order) :
    a ∈ order := by
  induction h with
  | refl => exact hb
  | child hp _ ih => exact ih (t.parent_mem _ _ hp).2

theorem anc_le (t : DfsTree E root order parent) (h : Anc parent a b) :
    order.idxOf a ≤ order.idxOf b := by
  induction h with
  | refl => exact le_rfl
  | child hp _ ih => exact ih.trans (t.parent_lt _ _ hp).le

theorem anc_lt (t : DfsTree E root order parent) (h : Anc parent a b) (hne : a ≠ b) :
    order.idxOf a < order.idxOf b := by
  obtain ⟨p, hp, hap⟩ := h.exists_parent hne
  exact (t.anc_le hap).trans_lt (t.parent_lt _ _ hp)

theorem anc_antisymm (t : DfsTree E root order parent) (h1 : Anc parent a b)
    (h2 : Anc parent b a) : a = b := by
  by_contra hne
  exact absurd (t.anc_lt h1 hne) (not_lt.mpr (t.anc_le h2))

/-- Of two ancestors of a node, the one first in preorder is the ancestor of the other. -/
theorem anc_of_le (t : DfsTree E root order parent) (ha : Anc parent a c) (hb : Anc parent b c)
    (hle : order.idxOf a ≤ order.idxOf b) : Anc parent a b := by
  rcases ha.total hb with h | h
  · exact h
  · by_cases hab : a = b
    · exact hab ▸ .refl
    · exact absurd hle (not_le.mpr (t.anc_lt h (Ne.symm hab)))

theorem root_anc (t : DfsTree E root order parent) (hb : b ∈ order) : Anc parent root b := by
  induction hk : order.idxOf b using Nat.strongRecOn generalizing b with
  | _ k ih =>
    by_cases hr : b = root
    · exact hr ▸ .refl
    · obtain ⟨p, hp⟩ := t.parent_isSome b hb hr
      exact .child hp (ih _ (hk ▸ t.parent_lt b p hp) (t.parent_mem b p hp).2 rfl)

/-- The tree path from an ancestor: every node on it lies between the two ends. -/
theorem tree_path (t : DfsTree E root order parent) (h : Anc parent a b) :
    ∃ p, Path E a b p ∧ ∀ x ∈ p, Anc parent a x ∧ Anc parent x b := by
  induction h with
  | refl =>
    refine ⟨[a], .nil, ?_⟩
    intro x hx
    rw [List.mem_singleton.mp hx]
    exact ⟨.refl, .refl⟩
  | @child b c hp h ih =>
    obtain ⟨p, hpath, hbetween⟩ := ih
    refine ⟨p ++ [c], hpath.snoc (t.parent_edge _ _ hp), ?_⟩
    intro x hx
    rcases List.mem_append.mp hx with hx | hx
    · exact ⟨(hbetween x hx).1, .child hp (hbetween x hx).2⟩
    · rw [List.mem_singleton.mp hx]
      exact ⟨.child hp h, .refl⟩

/-- Every dominator of a reachable node is an ancestor of it. -/
theorem anc_of_dominates (t : DfsTree E root order parent) (hb : b ∈ order)
    (h : Dominates E root a b) : Anc parent a b := by
  obtain ⟨p, hp, hbetween⟩ := t.tree_path (t.root_anc hb)
  exact (hbetween a (h p hp)).2

/-! ## The nearest ancestor up to a preorder number -/

/-- `r` is the deepest ancestor of `u` whose preorder number is at most `k`. -/
structure IsNearest (order : List α) (parent : α → Option α) (k : Nat) (u r : α) : Prop where
  anc : Anc parent r u
  le : order.idxOf r ≤ k
  deepest : ∀ c, Anc parent c u → order.idxOf c ≤ k → Anc parent c r

theorem IsNearest.self {k : Nat} (hk : order.idxOf a ≤ k) : IsNearest order parent k a a :=
  ⟨.refl, hk, fun _ h _ => h⟩

theorem IsNearest.child {k : Nat} {p u r : α} (hp : parent u = some p)
    (hk : k < order.idxOf u) (h : IsNearest order parent k p r) :
    IsNearest order parent k u r := by
  refine ⟨.child hp h.anc, h.le, ?_⟩
  intro c hc hck
  refine h.deepest c (hc.of_parent ?_ hp) hck
  intro hcu
  exact absurd hck (not_le.mpr (hcu ▸ hk))

theorem exists_nearest (t : DfsTree E root order parent) (k : Nat) {u : α} (hu : u ∈ order)
    (hroot : order.idxOf root ≤ k) : ∃ r ∈ order, IsNearest order parent k u r := by
  induction hn : order.idxOf u using Nat.strongRecOn generalizing u with
  | _ n ih =>
    rcases le_or_gt (order.idxOf u) k with hle | hgt
    · exact ⟨u, hu, .self hle⟩
    · have hne : u ≠ root := by
        rintro rfl
        exact absurd hroot (not_le.mpr hgt)
      obtain ⟨p, hp⟩ := t.parent_isSome u hu hne
      obtain ⟨r, hr, hnear⟩ := ih _ (hn ▸ t.parent_lt u p hp) (t.parent_mem u p hp).2 rfl
      exact ⟨r, hr, hnear.child hp hgt⟩

theorem nearest_unique (t : DfsTree E root order parent) {k : Nat} {u r s : α}
    (hr : IsNearest order parent k u r) (hs : IsNearest order parent k u s) : r = s :=
  t.anc_antisymm (hs.deepest r hr.anc hr.le) (hr.deepest s hs.anc hs.le)

/-- The nearest ancestor, up to the number of `b`, of a predecessor of `b` is an ancestor
of `b`. -/
theorem nearest_anc_of_edge (t : DfsTree E root order parent) {u r : α} (hu : u ∈ order)
    (hb : b ∈ order) (he : E u b) (hr : IsNearest order parent (order.idxOf b) u r) :
    Anc parent r b := by
  rcases le_or_gt (order.idxOf u) (order.idxOf b) with hle | hgt
  · -- the edge goes forward: the predecessor is its own nearest ancestor
    have hru : r = u := t.nearest_unique hr (.self hle)
    subst hru
    rcases Nat.lt_or_eq_of_le hle with hlt | heq
    · exact t.edge r hu b he hlt
    · exact (List.idxOf_inj hu).mp heq ▸ .refl
  · exact t.interval r b hb u hu hr.anc hr.le hgt.le

/-! ## The meet of the predecessors -/

/-- `a` is an ancestor of every reachable predecessor of `b`. -/
def CommonAnc (E : α → α → Prop) (order : List α) (parent : α → Option α) (b a : α) : Prop :=
  ∀ u ∈ order, E u b → Anc parent a u

/-- `a` is the nearest common ancestor of the reachable predecessors of `b`. -/
structure IsMeet (E : α → α → Prop) (order : List α) (parent : α → Option α) (b a : α) :
    Prop where
  common : CommonAnc E order parent b a
  nearest : ∀ c, CommonAnc E order parent b c → Anc parent c a

/-- No edge enters, from outside the subtree of `a`, a tree path that leads from below `a` to
a predecessor of `b`. -/
def NoBypass (E : α → α → Prop) (order : List α) (parent : α → Option α) (b a : α) : Prop :=
  ∀ u ∈ order, E u b → ∀ w, Anc parent a w → a ≠ w → Anc parent w u →
    ∀ z ∈ order, E z w → Anc parent a z

theorem exists_pred (t : DfsTree E root order parent) (hb : b ∈ order) (hr : b ≠ root) :
    ∃ p ∈ order, E p b ∧ parent b = some p := by
  obtain ⟨p, hp⟩ := t.parent_isSome b hb hr
  exact ⟨p, (t.parent_mem b p hp).2, t.parent_edge b p hp, hp⟩

theorem IsMeet.unique (t : DfsTree E root order parent) (ha : IsMeet E order parent b a)
    (hc : IsMeet E order parent b c) : a = c :=
  t.anc_antisymm (hc.nearest a ha.common) (ha.nearest c hc.common)

theorem meet_anc_parent (t : DfsTree E root order parent) (ha : IsMeet E order parent b a)
    (hp : parent b = some c) : Anc parent a c :=
  ha.common c (t.parent_mem b c hp).2 (t.parent_edge b c hp)

theorem meet_ne (t : DfsTree E root order parent) (hb : b ∈ order) (hr : b ≠ root)
    (ha : IsMeet E order parent b a) : a ≠ b := by
  obtain ⟨p, _, _, hp⟩ := t.exists_pred hb hr
  intro hab
  have hle := t.anc_le (t.meet_anc_parent ha hp)
  exact absurd (t.parent_lt b p hp) (not_lt.mpr (hab ▸ hle))

/-- The nearest ancestors, up to the number of `b`, of the predecessors of `b` are ancestors of
`b`, and the first of them in preorder is the meet. -/
theorem isMeet_of_least (t : DfsTree E root order parent) (hb : b ∈ order) (hr : b ≠ root)
    {u₀ : α} (hu₀ : u₀ ∈ order) (he₀ : E u₀ b)
    (ha : IsNearest order parent (order.idxOf b) u₀ a)
    (hleast : ∀ u ∈ order, E u b → ∀ r, IsNearest order parent (order.idxOf b) u r →
      order.idxOf a ≤ order.idxOf r) : IsMeet E order parent b a := by
  have hroot : order.idxOf root ≤ order.idxOf b := t.root_le b
  have hab : Anc parent a b := t.nearest_anc_of_edge hu₀ hb he₀ ha
  refine ⟨fun u hu he => ?_, fun c hc => ?_⟩
  · obtain ⟨r, -, hnear⟩ := t.exists_nearest _ hu hroot
    have hrb : Anc parent r b := t.nearest_anc_of_edge hu hb he hnear
    exact (t.anc_of_le hab hrb (hleast u hu he r hnear)).trans hnear.anc
  · obtain ⟨p, hp, hpb, hpar⟩ := t.exists_pred hb hr
    refine ha.deepest c (hc u₀ hu₀ he₀) ?_
    exact (t.anc_le (hc p hp hpb)).trans (t.parent_lt b p hpar).le

/-- A node that dominates `b` strictly is a common ancestor of the predecessors of `b`. -/
theorem commonAnc_of_strictlyDominates (t : DfsTree E root order parent)
    (h : StrictlyDominates E root a b) : CommonAnc E order parent b a :=
  fun _ hu he => t.anc_of_dominates hu (h.1.pred h.2 he)

/-- If the meet dominates its node it is the immediate dominator. -/
theorem isIdom_meet_iff (t : DfsTree E root order parent) (hb : b ∈ order) (hr : b ≠ root)
    (ha : IsMeet E order parent b a) :
    IsIdom E root a b ↔ Dominates E root a b := by
  refine ⟨fun h => h.1.1, fun h => ⟨⟨h, t.meet_ne hb hr ha⟩, ?_⟩⟩
  intro c hc
  have hca : Anc parent c a := ha.nearest c (t.commonAnc_of_strictlyDominates hc)
  have hbr : Reach E root b := (t.mem_iff b).mp hb
  rcases hc.1.total h hbr with hdom | hdom
  · exact hdom
  · have ha' : a ∈ order := (t.mem_iff a).mpr (h.reach hbr)
    have hc' : c ∈ order := (t.mem_iff c).mpr (hc.1.reach hbr)
    rw [t.anc_antisymm hca (t.anc_of_dominates hc' hdom)]
    exact Dominates.refl root a

/-- Walking back from a predecessor of `b` without meeting `a`, one stays inside the subtree
of `a`: the invariant also says that nothing bypasses `a` on the tree path to where the walk
stands. -/
theorem mem_of_noBypass (t : DfsTree E root order parent)
    (hmeet : ∀ x ∈ order, x ≠ root → ∃ m, IsMeet E order parent x m)
    (hall : ∀ x ∈ order, x ≠ root → ∀ m, IsMeet E order parent x m → NoBypass E order parent x m)
    {u : α} {p : List α} (hp : Path E root u p) (hau : Anc parent a u)
    (hkeep : ∀ w, Anc parent a w → a ≠ w → Anc parent w u →
      ∀ z ∈ order, E z w → Anc parent a z) : a ∈ p := by
  induction hp with
  | nil =>
    cases hau with
    | refl => exact List.mem_singleton.mpr rfl
    | child hp' _ => rw [t.root_none] at hp'; cases hp'
  | @snoc x u p hp he ih =>
    by_cases hau' : a = u
    · subst hau'
      simp
    · have hx : x ∈ order := (t.mem_iff x).mpr ⟨_, hp⟩
      have hu : u ∈ order := (t.mem_iff u).mpr ⟨_, hp.snoc he⟩
      have hax : Anc parent a x := hkeep u hau hau' .refl x hx he
      refine List.mem_append_left _ (ih hax ?_)
      intro w haw hne hwx z hz hzw
      have hur : u ≠ root := by
        rintro rfl
        exact hau' (t.anc_antisymm hau (t.root_anc (t.anc_mem hau hu)))
      obtain ⟨m, hm⟩ := hmeet u hu hur
      have hmx : Anc parent m x := hm.common x hx he
      have ham : Anc parent a m := by
        refine hm.nearest a ?_
        intro y hy hyu
        exact hkeep u hau hau' .refl y hy hyu
      -- `w` lies above the meet of `u`, where the invariant speaks, or below it
      rcases hwx.total hmx with hwm | hmw
      · obtain ⟨q, hq⟩ := t.parent_isSome u hu hur
        have hmu : Anc parent m u := .child hq (t.meet_anc_parent hm hq)
        exact hkeep w haw hne (hwm.trans hmu) z hz hzw
      · by_cases hmw' : m = w
        · subst hmw'
          obtain ⟨q, hq⟩ := t.parent_isSome u hu hur
          exact hkeep m haw hne (.child hq (t.meet_anc_parent hm hq)) z hz hzw
        · exact ham.trans (hall u hu hur m hm x hx he w hmw hmw' hwx z hz hzw)

/-- The meets of all nodes dominate their nodes exactly when no edge bypasses any of them. -/
theorem dominates_meet_iff_noBypass (t : DfsTree E root order parent)
    (hmeet : ∀ x ∈ order, x ≠ root → ∃ m, IsMeet E order parent x m) :
    (∀ b ∈ order, b ≠ root → ∀ a, IsMeet E order parent b a → Dominates E root a b) ↔
      ∀ b ∈ order, b ≠ root → ∀ a, IsMeet E order parent b a → NoBypass E order parent b a := by
  constructor
  · intro hdom b hb hr a ha u hu hub w haw hne hwu z hz hzw
    -- the tree path to `z`, the edge `z → w` and the tree path on to `u` reach `b`
    obtain ⟨p, hp, hbetween⟩ := t.tree_path (t.root_anc hz)
    obtain ⟨q, hq, hbelow⟩ := t.tree_path hwu
    obtain ⟨s, hs, hsub⟩ := (hp.snoc hzw).append hq
    have has : a ∈ s ++ [b] := hdom b hb hr a ha _ (hs.snoc hub)
    have hnot : ¬ Anc parent w a := fun h => hne (t.anc_antisymm haw h)
    rcases List.mem_append.mp has with h | h
    · rcases hsub a h with h | h
      · rcases List.mem_append.mp h with h | h
        · exact (hbetween a h).2
        · exact absurd (List.mem_singleton.mp h) hne
      · exact absurd (hbelow a h).1 hnot
    · exact absurd (List.mem_singleton.mp h) (t.meet_ne hb hr ha)
  · intro hall b hb hr a ha p hp
    cases hp with
    | nil => exact absurd rfl hr
    | @snoc u _ p hp he =>
      have hu : u ∈ order := (t.mem_iff u).mpr ⟨_, hp⟩
      refine List.mem_append_left _ (t.mem_of_noBypass hmeet hall hp
        (ha.common u hu he) ?_)
      intro w haw hne hwu z hz hzw
      exact hall b hb hr a ha u hu he w haw hne hwu z hz hzw

end DfsTree

end Flow
