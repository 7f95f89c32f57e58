import C0mpiler.Flow.Path
import Mathlib

/-!
# Flow graphs — finishing orders and strong components

`PostOrder E V l` says that depth-first visits which find the nodes `V` visited finish the nodes `l`,
in this order. Going through a finishing order from its end and visiting against the edges, each visit
finishes one strong component (`Forest.strong`).
-/

namespace Flow

variable {α : Type*}

/-- The nodes `l` are finished in this order by visits that find `V` visited. The last visit comes
first: `u` is finished after the nodes `sub` below it, and `rest` after `u`. -/
inductive PostOrder (E : α → α → Prop) : Set α → List α → Prop where
  | nil (V : Set α) : PostOrder E V []
  | node {V : Set α} {u : α} {sub rest : List α} (fresh : u ∉ V) (below : PostOrder E (insert u V) sub)
      (reach : ∀ x ∈ sub, Reach E u x) (closed : ∀ v, E u v → v ∈ insert u V ∨ v ∈ sub)
      (after : PostOrder E (insert u V ∪ {x | x ∈ sub}) rest) : PostOrder E V (sub ++ u :: rest)

/-- Visits from the nodes `starts`, those visited already left out; each member of the last list is
the finishing order of one of them. -/
inductive Forest (E : α → α → Prop) : Set α → List α → List (List α) → Prop where
  | nil (V : Set α) : Forest E V [] []
  | skip {V : Set α} {s : α} {starts : List α} {trees : List (List α)} (old : s ∈ V)
      (after : Forest E V starts trees) : Forest E V (s :: starts) trees
  | tree {V : Set α} {s : α} {sub starts : List α} {trees : List (List α)} (fresh : s ∉ V)
      (below : PostOrder E (insert s V) sub) (reach : ∀ x ∈ sub, Reach E s x)
      (closed : ∀ v, E s v → v ∈ insert s V ∨ v ∈ sub)
      (after : Forest E (insert s V ∪ {x | x ∈ sub}) starts trees) :
      Forest E V (s :: starts) ((sub ++ [s]) :: trees)

variable {E : α → α → Prop} {V : Set α} {l : List α}

namespace PostOrder

theorem fresh (h : PostOrder E V l) : ∀ x ∈ l, x ∉ V := by
  induction h with
  | nil => nofun
  | node hu _ _ _ _ ihsub ihrest =>
    intro x hx hV
    rcases List.mem_append.mp hx with hx | hx
    · exact ihsub x hx (.inr hV)
    · rcases List.mem_cons.mp hx with rfl | hx
      · exact hu hV
      · exact ihrest x hx (.inl (.inr hV))

theorem nodup (h : PostOrder E V l) : l.Nodup := by
  induction h with
  | nil => exact List.nodup_nil
  | @node V u sub rest _ hsub _ _ hrest ihsub ihrest =>
    refine List.nodup_append'.mpr ⟨ihsub, List.nodup_cons.mpr ⟨fun h => ?_, ihrest⟩, ?_⟩
    · exact hrest.fresh u h (.inl (.inl rfl))
    · intro x hx hx'
      rcases List.mem_cons.mp hx' with rfl | hx'
      · exact hsub.fresh x hx (.inl rfl)
      · exact hrest.fresh x hx' (.inr hx)

/-- An edge from a finished node leads to a visited one. -/
theorem closed (h : PostOrder E V l) {x y : α} (hx : x ∈ l) (he : E x y) : y ∈ V ∨ y ∈ l := by
  induction h with
  | nil => cases hx
  | @node V u sub rest _ _ _ hclosed _ ihsub ihrest =>
    have hsplit : y ∈ insert u V ∨ y ∈ sub → y ∈ V ∨ y ∈ sub ++ u :: rest := by
      rintro ((rfl | hV) | hsub)
      · exact .inr (List.mem_append_right _ List.mem_cons_self)
      · exact .inl hV
      · exact .inr (List.mem_append_left _ hsub)
    rcases List.mem_append.mp hx with hx | hx
    · exact hsplit (ihsub hx)
    · rcases List.mem_cons.mp hx with rfl | hx
      · exact hsplit (hclosed y he)
      · rcases ihrest hx with h | h
        · exact hsplit h
        · exact .inr (List.mem_append_right _ (List.mem_cons_of_mem _ h))

end PostOrder

/-- A path that meets a set which no edge leaves before its end ends in the set. -/
theorem Path.dst_mem_of_closed {a b : α} {p : List α} (h : Path E a b p) {A : Set α}
    (hclosed : ∀ x ∈ A, x ∈ p → ∀ y ∈ p, E x y → y ∈ A) {x : α} (hx : x ∈ p) (hA : x ∈ A) : b ∈ A := by
  induction h with
  | nil => exact List.mem_singleton.mp hx ▸ hA
  | @snoc b c p hp he ih =>
    rcases List.mem_append.mp hx with hx | hx
    · have hb : b ∈ A := ih (fun x hA hx y hy => hclosed x hA (List.mem_append_left _ hx) y
        (List.mem_append_left _ hy)) hx
      exact hclosed b hb (List.mem_append_left _ hp.dst_mem) c
        (List.mem_append_right _ (List.mem_singleton.mpr rfl)) he
    · exact List.mem_singleton.mp hx ▸ hA

/-- A node is above all nodes that reach it through nodes finished before it. -/
theorem PostOrder.reach_of_path (h : PostOrder E V l) {p q nodes : List α} {r w : α}
    (hl : l = p ++ r :: q) (hpath : Path E w r nodes) (hnodes : ∀ x ∈ nodes, x = r ∨ x ∈ p) :
    Reach E r w := by
  induction h generalizing p q with
  | nil => simp at hl
  | @node V u sub rest hu hsub hreach hclosed hrest ihsub ihrest =>
    rcases List.append_eq_append_iff.mp hl with ⟨a, hp, ha⟩ | ⟨a, hsubeq, ha⟩
    · cases a with
      | nil =>
        -- the node itself: all nodes finished before it are below it
        rw [List.nil_append] at ha
        obtain ⟨rfl, -⟩ := List.cons.inj ha
        rw [List.append_nil] at hp
        rcases hnodes w hpath.src_mem with rfl | hw
        · exact .refl w
        · exact hreach w (hp ▸ hw)
      | cons z a =>
        obtain ⟨rfl, hrest'⟩ := List.cons.inj ha
        have hr : r ∈ rest := by
          rw [hrest']
          exact List.mem_append_right _ List.mem_cons_self
        -- the path does not meet the nodes finished up to `u`, which it could not leave
        have hout : ∀ x ∈ nodes, x ∉ V := by
          intro x hx hV
          have hmem : x ∈ sub ++ u :: rest := by
            rcases hnodes x hx with rfl | hx
            · exact List.mem_append_right _ (List.mem_cons_of_mem _ hr)
            · rw [hl]
              exact List.mem_append_left _ hx
          exact (PostOrder.node hu hsub hreach hclosed hrest).fresh x hmem hV
        refine ihrest hrest' fun x hx => ?_
        rcases hnodes x hx with rfl | hxp
        · exact .inl rfl
        · right
          rw [hp] at hxp
          by_contra hxa
          have hA : x ∈ (insert u {x | x ∈ sub} : Set α) := by
            rcases List.mem_append.mp hxp with h | h
            · exact .inr h
            · rcases List.mem_cons.mp h with h | h
              · exact .inl h
              · exact absurd h hxa
          have hrA : r ∈ (insert u {x | x ∈ sub} : Set α) := by
            refine hpath.dst_mem_of_closed (fun x hxA hxn y hyn he => ?_) hx hA
            have hcases : y ∈ insert u V ∨ y ∈ sub := by
              rcases hxA with rfl | hxsub
              · exact hclosed y he
              · exact hsub.closed hxsub he
            rcases hcases with (rfl | hV) | hysub
            · exact .inl rfl
            · exact absurd hV (hout y hyn)
            · exact .inr hysub
          exact hrest.fresh r hr (hrA.elim (fun h => .inl (.inl h)) .inr)
    · cases a with
      | nil =>
        rw [List.nil_append] at ha
        obtain ⟨rfl, -⟩ := List.cons.inj ha
        rw [List.append_nil] at hsubeq
        rcases hnodes w hpath.src_mem with rfl | hw
        · exact .refl w
        · exact hreach w (hsubeq ▸ hw)
      | cons z a =>
        obtain ⟨rfl, -⟩ := List.cons.inj ha
        exact ihsub hsubeq hnodes

namespace Forest

variable {starts : List α} {trees : List (List α)}

theorem postOrder (h : Forest E V starts trees) : PostOrder E V trees.flatten := by
  induction h with
  | nil V => exact .nil V
  | skip _ _ ih => exact ih
  | @tree V s sub starts trees hs hsub hreach hclosed _ ih =>
    rw [List.flatten_cons, List.append_assoc, List.singleton_append]
    exact .node hs hsub hreach hclosed ih

/-- All starts are visited in the end. -/
theorem mem_of_start (h : Forest E V starts trees) {s : α} (hs : s ∈ starts) :
    s ∈ V ∨ s ∈ trees.flatten := by
  induction h with
  | nil => cases hs
  | skip hold _ ih =>
    rcases List.mem_cons.mp hs with rfl | hs
    · exact .inl hold
    · exact ih hs
  | @tree V s' sub starts trees _ _ _ _ _ ih =>
    have hflat : (((sub ++ [s']) :: trees).flatten : List α) = sub ++ s' :: trees.flatten := by simp
    rw [hflat]
    rcases List.mem_cons.mp hs with rfl | hs
    · exact .inr (List.mem_append_right _ List.mem_cons_self)
    · rcases ih hs with ((rfl | h) | h) | h
      · exact .inr (List.mem_append_right _ List.mem_cons_self)
      · exact .inl h
      · exact .inr (List.mem_append_left _ h)
      · exact .inr (List.mem_append_right _ (List.mem_cons_of_mem _ h))

end Forest

/-- A finished tree holds all that its root reaches, what was visited before apart. -/
theorem mem_tree_iff {s : α} {sub : List α} (hfresh : s ∉ V) (hV : ∀ x ∈ V, ∀ y, E x y → y ∈ V)
    (hsub : PostOrder E (insert s V) sub) (hreach : ∀ x ∈ sub, Reach E s x)
    (hclosed : ∀ v, E s v → v ∈ insert s V ∨ v ∈ sub) (x : α) :
    x ∈ sub ++ [s] ↔ Reach E s x ∧ x ∉ V := by
  constructor
  · intro hx
    rcases List.mem_append.mp hx with hx | hx
    · exact ⟨hreach x hx, fun h => hsub.fresh x hx (.inr h)⟩
    · obtain rfl := List.mem_singleton.mp hx
      exact ⟨.refl x, hfresh⟩
  · rintro ⟨hx, hxV⟩
    have hall : x ∈ V ∨ x ∈ sub ++ [s] := by
      refine hx.induct (P := fun x => x ∈ V ∨ x ∈ sub ++ [s])
        (.inr (List.mem_append_right _ (List.mem_singleton.mpr rfl))) fun u v _ hu he => ?_
      have hsplit : v ∈ insert s V ∨ v ∈ sub → v ∈ V ∨ v ∈ sub ++ [s] := by
        rintro ((rfl | h) | h)
        · exact .inr (List.mem_append_right _ (List.mem_singleton.mpr rfl))
        · exact .inl h
        · exact .inr (List.mem_append_left _ h)
      rcases hu with hu | hu
      · exact .inl (hV u hu v he)
      · rcases List.mem_append.mp hu with hu | hu
        · exact hsplit (hsub.closed hu he)
        · exact hsplit (hclosed v (List.mem_singleton.mp hu ▸ he))
    exact hall.resolve_left hxV

theorem reach_flip {a b : α} : Reach (flip E) a b ↔ Reach E b a := by
  have hflip : ∀ {E : α → α → Prop} {a b : α}, Reach (flip E) a b → Reach E b a := by
    intro E a b h
    refine h.induct (P := fun b => Reach E b a) (.refl a) fun u v _ hu he => ?_
    exact Reach.trans ((Reach.refl v).step he) hu
  exact ⟨hflip, fun h => hflip (E := flip E) h⟩

theorem Reach.exists_edge {a b : α} (h : Reach E a b) (hne : a ≠ b) : ∃ c, E a c := by
  refine h.induct (P := fun b => a ≠ b → ∃ c, E a c) (fun h => absurd rfl h) (fun u v _ hu he _ => ?_) hne
  by_cases hau : a = u
  · exact ⟨v, hau ▸ he⟩
  · exact hu hau

/-- Against the edges from the end of a finishing order: what is visited is closed against the
edges, and every tree is a strong component. -/
theorem Forest.strong {trees : List (List α)} {q starts : List α} (hpost : PostOrder E ∅ l)
    (hall : ∀ x y, E x y → x ∈ l) (h : Forest (flip E) V starts trees)
    (hl : l = starts.reverse ++ q) (hq : ∀ x ∈ q, x ∈ V) (hV : ∀ y ∈ V, ∀ x, E x y → x ∈ V) :
    ∀ c ∈ trees, ∀ x ∈ c, ∀ y, y ∈ c ↔ Reach E x y ∧ Reach E y x := by
  induction h generalizing q with
  | nil => nofun
  -- a start that was visited already
  | @skip V s starts trees hold _ ih =>
    refine ih (q := s :: q) (by simpa using hl) (fun x hx => ?_) hV
    rcases List.mem_cons.mp hx with rfl | hx
    · exact hold
    · exact hq x hx
  -- a start with a tree of its own
  | @tree V s sub starts trees hs hsub hreach hclosed _ ih =>
    have hsplit : l = starts.reverse ++ s :: q := by simpa using hl
    have hmem : ∀ x, x ∈ sub ++ [s] ↔ Reach (flip E) s x ∧ x ∉ V :=
      mem_tree_iff hs hV hsub hreach hclosed
    -- what the tree holds
    have hcomp : ∀ w, w ∈ sub ++ [s] ↔ Reach E w s ∧ Reach E s w := by
      intro w
      rw [hmem, reach_flip]
      refine and_congr_right fun hws => ⟨fun hw => ?_, fun hsw hw => ?_⟩
      · -- a path to the root stays among the nodes finished before it
        obtain ⟨nodes, hpath⟩ := hws
        refine hpost.reach_of_path hsplit hpath fun x hx => ?_
        have hxV : x ∉ V := by
          intro hxV
          refine hw ?_
          obtain ⟨p, hp, -⟩ := hpath.cut hx
          exact (reach_flip.mpr ⟨p, hp⟩).induct (P := (· ∈ V)) hxV fun u v _ hu he => hV u hu v he
        -- a node of the tree reaches its root by the order of the first round
        by_cases hxs : x = s
        · exact .inl hxs
        · right
          have hxl : x ∈ l := by
            obtain ⟨p, hp, -⟩ := hpath.drop hx
            obtain ⟨y, he⟩ := hp.reach.exists_edge hxs
            exact hall x y he
          rw [hsplit] at hxl
          rcases List.mem_append.mp hxl with h | h
          · exact h
          · rcases List.mem_cons.mp h with h | h
            · exact absurd h hxs
            · exact absurd (hq x h) hxV
      · exact hs ((reach_flip.mpr hsw).induct (P := (· ∈ V)) hw fun u v _ hu he => hV u hu v he)
    intro c hc x hx y
    rcases List.mem_cons.mp hc with rfl | hc
    -- two nodes of the tree reach each other through the root
    · obtain ⟨hxs, hsx⟩ := (hcomp x).mp hx
      rw [hcomp]
      exact ⟨fun ⟨hys, hsy⟩ => ⟨hxs.trans hsy, hys.trans hsx⟩,
        fun ⟨hxy, hyx⟩ => ⟨hyx.trans hxs, hsx.trans hxy⟩⟩
    -- the trees that follow
    · refine ih (q := s :: q) hsplit (fun z hz => ?_) (fun z hz w he => ?_) c hc x hx y
      · rcases List.mem_cons.mp hz with rfl | hz
        · exact .inl (.inl rfl)
        · exact .inl (.inr (hq z hz))
      · rcases hz with (rfl | hz) | hz
        · exact hclosed w he
        · exact .inl (.inr (hV z hz w he))
        · exact hsub.closed hz he

end Flow
