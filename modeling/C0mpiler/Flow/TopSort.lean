import C0mpiler.Data.Fuel
import Mathlib

/-!
# Flow graphs — sorting by in-degree

A queue holds the nodes whose predecessors are all done; doing one node lowers the degree of its
successors, and those that reach zero join the queue (`Ready.step`). Nothing is done before its
predecessors, and in a graph without cycles an empty queue means that all nodes are done.
-/

namespace Flow

variable {α : Type*} [DecidableEq α]

/-- The predecessors of `x` that are not done. -/
def waiting (E : α → α → Prop) [DecidableRel E] (nodes : Finset α) (done : List α) (x : α) : Finset α :=
  nodes.filter fun p => E p x ∧ p ∉ done

/-- The nodes `done` are done, those of `queue` can be next. -/
structure Ready (E : α → α → Prop) [DecidableRel E] (nodes : Finset α) (degree : α → Nat)
    (done queue : List α) : Prop where
  nodup : (done ++ queue).Nodup
  mem : ∀ x ∈ done ++ queue, x ∈ nodes
  counts : ∀ x ∈ nodes, degree x = (waiting E nodes done x).card
  ready : ∀ x ∈ nodes, x ∈ done ++ queue ↔ degree x = 0
  sorted : done.Pairwise fun a b => ¬E b a

variable {E : α → α → Prop} [DecidableRel E] {nodes : Finset α} {degree : α → Nat}
  {done queue : List α}

theorem mem_waiting {p x : α} : p ∈ waiting E nodes done x ↔ p ∈ nodes ∧ E p x ∧ p ∉ done :=
  Finset.mem_filter

namespace Ready

theorem init (h : ∀ x ∈ nodes, degree x = (nodes.filter (E · x)).card) (hnodup : queue.Nodup)
    (hqueue : ∀ x, x ∈ queue ↔ x ∈ nodes ∧ degree x = 0) : Ready E nodes degree [] queue where
  nodup := hnodup
  mem x hx := ((hqueue x).mp hx).1
  counts x hx := by
    rw [h x hx, waiting]
    exact congrArg Finset.card (Finset.filter_congr fun p _ => by simp)
  ready x hx := by simp [hqueue, hx]
  sorted := .nil

/-- A node that is done leaves the predecessors that its successors wait for. -/
theorem card_waiting {u x : α} (hu : u ∈ nodes) (hnot : u ∉ done) :
    (waiting E nodes (done ++ [u]) x).card =
      (waiting E nodes done x).card - if E u x then 1 else 0 := by
  have hsame : waiting E nodes (done ++ [u]) x = (waiting E nodes done x).erase u := by
    ext p
    simp only [mem_waiting, Finset.mem_erase, List.mem_append, List.mem_singleton, not_or]
    tauto
  rw [hsame]
  by_cases he : E u x
  · rw [if_pos he, Finset.card_erase_of_mem (mem_waiting.mpr ⟨hu, he, hnot⟩)]
  · rw [if_neg he, Finset.erase_eq_of_notMem fun h => he (mem_waiting.mp h).2.1, Nat.sub_zero]

/-- A successor of a node of the queue still waits. -/
theorem degree_pos {u x : α} (h : Ready E nodes degree done (u :: queue)) (hx : x ∈ nodes)
    (he : E u x) : 0 < degree x := by
  have hu : u ∈ done ++ u :: queue := List.mem_append_right _ List.mem_cons_self
  have hnot : u ∉ done := fun hd => (List.nodup_append'.mp h.nodup).2.2 hd List.mem_cons_self
  rw [h.counts x hx]
  exact Finset.card_pos.mpr ⟨u, mem_waiting.mpr ⟨h.mem u hu, he, hnot⟩⟩

/-- The first node of the queue is done; `new` are the nodes that waited for it alone. -/
theorem step {u : α} {new : List α} {degree' : α → Nat} (h : Ready E nodes degree done (u :: queue))
    (hdegree : ∀ x ∈ nodes, degree' x = degree x - if E u x then 1 else 0) (hnodup : new.Nodup)
    (hnew : ∀ x, x ∈ new ↔ x ∈ nodes ∧ E u x ∧ degree x = 1) :
    Ready E nodes degree' (done ++ [u]) (new ++ queue) := by
  have hu : u ∈ done ++ u :: queue := List.mem_append_right _ List.mem_cons_self
  have hnot : u ∉ done := fun hd => (List.nodup_append'.mp h.nodup).2.2 hd List.mem_cons_self
  have hold : ∀ x ∈ new, x ∉ done ++ u :: queue := by
    intro x hx hmem
    obtain ⟨hxn, -, hone⟩ := (hnew x).mp hx
    rw [h.ready x hxn, hone] at hmem
    cases hmem
  -- the new nodes join those that wait in the queue
  have hlist : (done ++ [u] ++ (new ++ queue)).Perm (new ++ (done ++ u :: queue)) := by
    have hperm : (done ++ [u] ++ (new ++ queue)).Perm (done ++ ([u] ++ queue) ++ new) := by
      simp only [List.append_assoc]
      exact List.Perm.append_left _ (List.Perm.append_left _ List.perm_append_comm)
    exact hperm.trans List.perm_append_comm
  refine ⟨?_, fun x hx => ?_, fun x hx => ?_, fun x hx => ?_, ?_⟩
  · exact hlist.nodup_iff.mpr (List.nodup_append'.mpr ⟨hnodup, h.nodup, fun x hx hx' => hold x hx hx'⟩)
  · rcases List.mem_append.mp (hlist.mem_iff.mp hx) with hx | hx
    · exact ((hnew x).mp hx).1
    · exact h.mem x hx
  -- the degree counts predecessors that are not done, and `u` was one of them
  · rw [hdegree x hx, h.counts x hx, card_waiting (h.mem u hu) hnot]
  -- a node is ready when its degree falls to zero
  · rw [hlist.mem_iff, List.mem_append, hnew, h.ready x hx, hdegree x hx]
    by_cases he : E u x
    · have hpos := h.degree_pos hx he
      rw [if_pos he]
      constructor
      · rintro (⟨-, -, hone⟩ | hzero) <;> omega
      · intro hzero
        exact .inl ⟨hx, he, by omega⟩
    · rw [if_neg he]
      constructor
      · rintro (⟨-, h, -⟩ | hzero)
        · exact absurd h he
        · omega
      · intro hzero
        exact .inr (by omega)
  -- the sorted list: an edge to a node that is done would keep its degree positive
  · refine List.pairwise_append.mpr ⟨h.sorted, List.pairwise_singleton _ _, fun a ha b hb he => ?_⟩
    obtain rfl := List.mem_singleton.mp hb
    have hb : b ∈ done ++ b :: queue := List.mem_append_right _ List.mem_cons_self
    -- the predecessors of a node that is done are done
    have ha' : degree a = 0 := (h.ready a (h.mem a (List.mem_append_left _ ha))).mp
      (List.mem_append_left _ ha)
    rw [h.counts a (h.mem a (List.mem_append_left _ ha)), Finset.card_eq_zero] at ha'
    have hwait : b ∈ waiting E nodes done a := mem_waiting.mpr ⟨h.mem b hb, he, hnot⟩
    rw [ha'] at hwait
    exact absurd hwait (Finset.notMem_empty b)

/-- Where the queue is empty, all nodes of a graph without cycles are done. -/
theorem perm (h : Ready E nodes degree done [])
    (hacyclic : ∀ x, ¬Relation.TransGen (fun a b => a ∈ nodes ∧ E a b ∧ b ∈ nodes) x x) :
    ∀ x, x ∈ done ↔ x ∈ nodes := by
  refine fun x => ⟨fun hx => h.mem x (List.mem_append_left _ hx), fun hx => ?_⟩
  have hwf : WellFounded fun a b : nodes => E a b := by
    refine Fuel.wellFounded_of_acyclic fun a ha => hacyclic a ?_
    exact ha.lift (fun a : nodes => (a : α)) fun a b he => ⟨a.2, he, b.2⟩
  have hall : ∀ a : nodes, (a : α) ∈ done := by
    intro a
    induction a using hwf.induction with
    | _ a ih =>
      have hzero : degree a = 0 := by
        rw [h.counts a a.2, Finset.card_eq_zero]
        refine Finset.eq_empty_of_forall_notMem fun p hp => ?_
        obtain ⟨hpn, he, hpd⟩ := mem_waiting.mp hp
        exact hpd (ih ⟨p, hpn⟩ he)
      simpa using (h.ready a a.2).mpr hzero
  exact hall ⟨x, hx⟩

end Ready

end Flow
