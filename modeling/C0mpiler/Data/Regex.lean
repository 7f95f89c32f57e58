import Mathlib

/-!
# Regular expressions matched by backtracking

A regular expression of a Perl-like engine: alternatives are tried in order, repetition is greedy or
lazy, and there are lookahead and one capture group with a back reference. `run` has all the ways to
match a prefix, the preferred one first; `find` is what that one takes. A repetition stops
when its body matches the empty text.

What the crate documents of its engine (`fancy_regex`) stands here as lemmas, for every expression:

* a class takes one character of its own (`mem_run_cls`, `Prefers.cls`);
* of two alternatives the left one is preferred, the right one is tried if the left one fails
  (`Prefers.alt_left`, `Prefers.alt_right`);
* a greedy repetition takes one more turn wherever it can (`Prefers.star_step`, `Prefers.star_stop`),
  and a lazy one has the same matches in the other order (`run_star`);
* lookahead and the end of the text take nothing (`mem_run_look`, `mem_run_atEnd`);
* a match starts where the text starts (`find_prefers`), and there is none only if every way to match
  fails (`find_eq_none_iff`).
-/

/-- A bracket class. -/
structure CharClass where
  negated : Bool
  ranges : List (Char × Char)
  deriving DecidableEq, Repr

namespace CharClass

def mem (c : CharClass) (ch : Char) : Bool :=
  (c.ranges.any fun r => r.1 ≤ ch && ch ≤ r.2) != c.negated

/-- A class of single characters. -/
def of (chars : List Char) : CharClass := ⟨false, chars.map fun c => (c, c)⟩

def notOf (chars : List Char) : CharClass := ⟨true, chars.map fun c => (c, c)⟩

theorem mem_of {chars : List Char} {ch : Char} : (of chars).mem ch = true ↔ ch ∈ chars := by
  simp only [mem, of, List.any_map, bne_iff_ne, ne_eq, Bool.not_eq_false, List.any_eq_true,
    Function.comp, Bool.and_eq_true, decide_eq_true_eq]
  exact ⟨fun ⟨c, hc, hle, hge⟩ => le_antisymm hge hle ▸ hc, fun h => ⟨ch, h, le_refl ch, le_refl ch⟩⟩

theorem mem_notOf {chars : List Char} {ch : Char} : (notOf chars).mem ch = true ↔ ch ∉ chars := by
  rw [← mem_of]
  simp only [mem, notOf, of]
  cases List.any _ _ <;> decide

end CharClass

/-- The expressions of the rules: `look a expected` is `(?=a)` or `(?!a)`, `group` the one capture. -/
inductive Regex where
  | eps
  | cls (c : CharClass)
  | seq (a b : Regex)
  | alt (a b : Regex)
  | star (a : Regex) (greedy : Bool)
  | look (a : Regex) (expected : Bool)
  | atEnd
  | group (a : Regex)
  | backref
  deriving DecidableEq, Repr

namespace Regex

/-- The text that is left, and the text of the group. -/
structure Subject where
  rest : List Char
  captured : List Char
  deriving DecidableEq, Repr

/-- The ways to repeat a step at most `fuel` times. -/
def iterate (f : Subject → List Subject) (greedy : Bool) : Nat → Subject → List Subject
  | 0, s => [s]
  | fuel + 1, s =>
    let more := ((f s).filter fun s' => s'.rest.length < s.rest.length).flatMap
      (iterate f greedy fuel)
    if greedy then more ++ [s] else s :: more

/-- Every way to match a prefix of the subject, the preferred one first. -/
def run : Regex → Subject → List Subject
  | eps, s => [s]
  | cls c, s =>
    match s.rest with
    | [] => []
    | ch :: rest => if c.mem ch then [{ s with rest }] else []
  | seq a b, s => (run a s).flatMap (run b)
  | alt a b, s => run a s ++ run b s
  | star a greedy, s => iterate (run a) greedy s.rest.length s
  | look a expected, s => if (run a s).isEmpty = expected then [] else [s]
  | atEnd, s => if s.rest = [] then [s] else []
  | group a, s => (run a s).map fun s' =>
    { s' with captured := s.rest.take (s.rest.length - s'.rest.length) }
  | backref, s =>
    if s.captured <+: s.rest then [{ s with rest := s.rest.drop s.captured.length }] else []

def opt (a : Regex) : Regex := alt a eps

def plus (a : Regex) : Regex := seq a (star a true)

def lit (chars : List Char) : Regex := chars.foldr (fun c r => seq (cls (.of [c])) r) eps

def alts : List Regex → Regex
  | [] => cls (.of [])
  | [a] => a
  | a :: as => alt a (alts as)

/-- The text that the preferred match leaves. -/
def leaves (r : Regex) (text : List Char) : Option (List Char) :=
  (r.run ⟨text, []⟩).head?.map Subject.rest

/-- The text that the preferred match takes. -/
def find (r : Regex) (text : List Char) : Option (List Char) :=
  (r.leaves text).map fun rest => text.take (text.length - rest.length)

/-! ## Single steps -/

theorem run_seq (a b : Regex) (s : Subject) : run (seq a b) s = (run a s).flatMap (run b) := rfl

theorem run_alt (a b : Regex) (s : Subject) : run (alt a b) s = run a s ++ run b s := rfl

theorem run_cls_nil (c : CharClass) (g : List Char) : run (cls c) ⟨[], g⟩ = [] := rfl

theorem run_cls_cons (c : CharClass) (ch : Char) (t g : List Char) :
    run (cls c) ⟨ch :: t, g⟩ = if c.mem ch then [⟨t, g⟩] else [] := rfl

/-- A class takes one character, one of its own. -/
theorem mem_run_cls {c : CharClass} {s s' : Subject} (h : s' ∈ run (cls c) s) :
    ∃ ch, c.mem ch = true ∧ s.rest = ch :: s'.rest := by
  obtain ⟨rest, g⟩ := s
  cases rest with
  | nil =>
    rw [run_cls_nil] at h
    cases h
  | cons ch t =>
    rw [run_cls_cons] at h
    split at h
    · next hc => exact ⟨ch, hc, by rw [List.mem_singleton.mp h]⟩
    · cases h

/-- Lookahead takes nothing. -/
theorem mem_run_look {a : Regex} {expected : Bool} {s s' : Subject}
    (h : s' ∈ run (look a expected) s) : s' = s := by
  have hrun : run (look a expected) s = if (run a s).isEmpty = expected then [] else [s] := rfl
  rw [hrun] at h
  split at h
  · cases h
  · exact List.mem_singleton.mp h

theorem mem_run_atEnd {s s' : Subject} (h : s' ∈ run atEnd s) : s' = s ∧ s.rest = [] := by
  have hrun : run atEnd s = if s.rest = [] then [s] else [] := rfl
  rw [hrun] at h
  split at h
  · next hend => exact ⟨List.mem_singleton.mp h, hend⟩
  · cases h

/-- A group takes what its body takes. -/
theorem mem_run_group {a : Regex} {s s' : Subject} (h : s' ∈ run (group a) s) :
    ∃ s₁ ∈ run a s, s'.rest = s₁.rest := by
  obtain ⟨s₁, hs₁, rfl⟩ := List.mem_map.mp h
  exact ⟨s₁, hs₁, rfl⟩

theorem mem_run_backref {s s' : Subject} (h : s' ∈ run backref s) : s'.rest <:+ s.rest := by
  have hrun : run backref s =
      if s.captured <+: s.rest then [{ s with rest := s.rest.drop s.captured.length }] else [] := rfl
  rw [hrun] at h
  split at h
  · rw [List.mem_singleton.mp h]
    exact List.drop_suffix _ _
  · cases h

/-! ## Repetition -/

/-- Every turn takes a character, so the length of the text is fuel enough. -/
theorem iterate_fuel {f : Subject → List Subject} {greedy : Bool} {fuel : Nat} {s : Subject}
    (h : s.rest.length ≤ fuel) : iterate f greedy fuel s = iterate f greedy s.rest.length s := by
  induction fuel using Nat.strong_induction_on generalizing s with
  | _ fuel ih =>
    cases fuel with
    | zero => rw [Nat.le_zero.mp h]
    | succ fuel =>
      have hnone : ∀ n, s.rest.length ≤ n + 1 → n ≤ fuel →
          ((f s).filter fun s' => s'.rest.length < s.rest.length).flatMap (iterate f greedy n) =
            ((f s).filter fun s' => s'.rest.length < s.rest.length).flatMap
              fun s' => iterate f greedy s'.rest.length s' := by
        intro n hn hle
        refine List.flatMap_congr fun s' hs' => ih n (by omega) ?_
        have hlt : s'.rest.length < s.rest.length := by simpa using (List.mem_filter.mp hs').2
        omega
      cases hlen : s.rest.length with
      | zero =>
        have hempty : ((f s).filter fun s' => s'.rest.length < s.rest.length) = [] := by
          rw [List.filter_eq_nil_iff]
          simp [hlen]
        simp only [iterate, hempty, List.flatMap_nil, List.nil_append, ite_self]
      | succ n =>
        simp only [iterate]
        rw [hnone fuel (by omega) le_rfl, hnone n (by omega) (by omega)]

/-- A repetition is one turn and the repetition again, or nothing. -/
theorem run_star (a : Regex) (greedy : Bool) (s : Subject) :
    run (star a greedy) s =
      let more := ((run a s).filter fun s' => s'.rest.length < s.rest.length).flatMap
        (run (star a greedy))
      if greedy then more ++ [s] else s :: more := by
  have hunfold : run (star a greedy) s = iterate (run a) greedy (s.rest.length + 1) s :=
    (iterate_fuel (Nat.le_succ _)).symm
  rw [hunfold, iterate]
  have hmore : ((run a s).filter fun s' => s'.rest.length < s.rest.length).flatMap
      (iterate (run a) greedy s.rest.length) =
        ((run a s).filter fun s' => s'.rest.length < s.rest.length).flatMap
          (run (star a greedy)) := by
    refine List.flatMap_congr fun s' hs' => iterate_fuel ?_
    have hlt : s'.rest.length < s.rest.length := by simpa using (List.mem_filter.mp hs').2
    omega
  rw [hmore]

theorem mem_run_star {a : Regex} {greedy : Bool} {s s' : Subject} :
    s' ∈ run (star a greedy) s ↔ s' = s ∨
      ∃ s₁ ∈ run a s, s₁.rest.length < s.rest.length ∧ s' ∈ run (star a greedy) s₁ := by
  rw [run_star]
  cases greedy <;> simp [List.mem_flatMap, List.mem_filter, and_assoc, or_comm]

/-- The rule for what holds after any number of turns. -/
theorem star_induction {a : Regex} {greedy : Bool} {P : Subject → Prop} {s s' : Subject}
    (hstep : ∀ s₁ s₂, P s₁ → s₂ ∈ run a s₁ → P s₂) (hs : P s) (h : s' ∈ run (star a greedy) s) :
    P s' := by
  induction hn : s.rest.length using Nat.strong_induction_on generalizing s with
  | _ n ih =>
    rcases mem_run_star.mp h with rfl | ⟨s₁, hs₁, hlt, hrest⟩
    · exact hs
    · exact ih _ (hn ▸ hlt) (hstep s s₁ hs hs₁) hrest rfl

/-! ## What a match leaves -/

theorem rest_suffix {r : Regex} {s s' : Subject} (h : s' ∈ run r s) : s'.rest <:+ s.rest := by
  induction r generalizing s s' with
  | eps =>
    rw [List.mem_singleton.mp h]
  | cls c =>
    obtain ⟨ch, -, hrest⟩ := mem_run_cls h
    rw [hrest]
    exact List.suffix_cons ch _
  | seq a b iha ihb =>
    obtain ⟨s₁, hs₁, hs'⟩ := List.mem_flatMap.mp h
    exact (ihb hs').trans (iha hs₁)
  | alt a b iha ihb =>
    rcases List.mem_append.mp h with h | h
    · exact iha h
    · exact ihb h
  | star a greedy ih =>
    exact star_induction (P := fun s' => s'.rest <:+ s.rest) (fun s₁ s₂ hs₁ hs₂ => (ih hs₂).trans hs₁)
      (List.suffix_refl _) h
  | look a expected => rw [mem_run_look h]
  | atEnd => rw [(mem_run_atEnd h).1]
  | group a ih =>
    obtain ⟨s₁, hs₁, hrest⟩ := mem_run_group h
    exact hrest ▸ ih hs₁
  | backref => exact mem_run_backref h

/-- May match the empty text. -/
def nullable : Regex → Bool
  | cls _ => false
  | seq a b => nullable a && nullable b
  | alt a b => nullable a || nullable b
  | group a => nullable a
  | eps | star _ _ | look _ _ | atEnd | backref => true

/-- May take the character `ch` first. -/
def starts (ch : Char) : Regex → Bool
  | cls c => c.mem ch
  | seq a b => starts ch a || (nullable a && starts ch b)
  | alt a b => starts ch a || starts ch b
  | star a _ => starts ch a
  | group a => starts ch a
  | backref => true
  | eps | look _ _ | atEnd => false

theorem shorter_of_not_nullable {r : Regex} (hr : r.nullable = false) {s s' : Subject}
    (h : s' ∈ run r s) : s'.rest.length < s.rest.length := by
  induction r generalizing s s' with
  | eps | star | look | atEnd | backref => cases hr
  | cls c =>
    obtain ⟨ch, -, hrest⟩ := mem_run_cls h
    rw [hrest]
    exact Nat.lt_succ_self _
  | seq a b iha ihb =>
    obtain ⟨s₁, hs₁, hs'⟩ := List.mem_flatMap.mp h
    have hle₁ : s₁.rest.length ≤ s.rest.length := (rest_suffix hs₁).length_le
    have hle' : s'.rest.length ≤ s₁.rest.length := (rest_suffix hs').length_le
    rcases Bool.and_eq_false_iff.mp hr with ha | hb
    · exact lt_of_le_of_lt hle' (iha ha hs₁)
    · exact lt_of_lt_of_le (ihb hb hs') hle₁
  | alt a b iha ihb =>
    obtain ⟨ha, hb⟩ := Bool.or_eq_false_iff.mp hr
    rcases List.mem_append.mp h with h | h
    · exact iha ha h
    · exact ihb hb h
  | group a ih =>
    obtain ⟨s₁, hs₁, hrest⟩ := mem_run_group h
    exact hrest ▸ ih hr hs₁

/-- An expression that cannot start with the next character takes nothing. -/
theorem stays_of_not_starts {r : Regex} {ch : Char} (hr : r.starts ch = false) {s s' : Subject}
    {t : List Char} (hs : s.rest = ch :: t) (h : s' ∈ run r s) :
    r.nullable = true ∧ s'.rest = s.rest := by
  induction r generalizing s s' with
  -- on the expression; only a class or a group reads a character
  | eps =>
    rw [List.mem_singleton.mp h]
    exact ⟨rfl, rfl⟩
  | cls c =>
    obtain ⟨ch', hc, hrest⟩ := mem_run_cls h
    obtain rfl := (List.cons.inj (hs.symm.trans hrest)).1
    exact absurd hc (Bool.eq_false_iff.mp hr)
  -- both parts are empty here
  | seq a b iha ihb =>
    obtain ⟨ha, hb⟩ := Bool.or_eq_false_iff.mp hr
    obtain ⟨s₁, hs₁, hs'⟩ := List.mem_flatMap.mp h
    obtain ⟨hnull, hrest⟩ := iha ha hs hs₁
    rw [hnull, Bool.true_and] at hb
    obtain ⟨hnull', hrest'⟩ := ihb hb (hrest.trans hs) hs'
    exact ⟨Bool.and_eq_true_iff.mpr ⟨hnull, hnull'⟩, hrest'.trans hrest⟩
  | alt a b iha ihb =>
    obtain ⟨ha, hb⟩ := Bool.or_eq_false_iff.mp hr
    rcases List.mem_append.mp h with h | h
    · obtain ⟨hnull, hrest⟩ := iha ha hs h
      exact ⟨Bool.or_eq_true_iff.mpr (Or.inl hnull), hrest⟩
    · obtain ⟨hnull, hrest⟩ := ihb hb hs h
      exact ⟨Bool.or_eq_true_iff.mpr (Or.inr hnull), hrest⟩
  -- no iteration reads a character
  | star a greedy ih =>
    refine ⟨rfl, star_induction (P := fun s' => s'.rest = s.rest) (fun s₁ s₂ hs₁ hs₂ => ?_) rfl h⟩
    exact (ih hr (hs₁.trans hs) hs₂).2.trans hs₁
  | look a expected => exact ⟨rfl, by rw [mem_run_look h]⟩
  -- the end is not reached at a character
  | atEnd =>
    have hend := (mem_run_atEnd h).2
    rw [hs] at hend
    cases hend
  | group a ih =>
    obtain ⟨s₁, hs₁, hrest⟩ := mem_run_group h
    exact hrest ▸ ih hr hs hs₁
  | backref => cases hr

theorem run_eq_nil_of_not_starts {r : Regex} {ch : Char} (hnull : r.nullable = false)
    (hr : r.starts ch = false) {s : Subject} {t : List Char} (hs : s.rest = ch :: t) :
    run r s = [] := by
  refine List.eq_nil_iff_forall_not_mem.mpr fun s' hs' => ?_
  have hnullable := (stays_of_not_starts hr hs hs').1
  rw [hnull] at hnullable
  cases hnullable

/-! ## The preferred match -/

/-- The preferred way to match from `s` leaves `s'`. -/
def Prefers (r : Regex) (s s' : Subject) : Prop := (run r s).head? = some s'

theorem Prefers.mem {r : Regex} {s s' : Subject} (h : r.Prefers s s') : s' ∈ run r s :=
  List.mem_of_head? h

theorem Prefers.eps (s : Subject) : Regex.eps.Prefers s s := rfl

theorem Prefers.cls {c : CharClass} {ch : Char} (hc : c.mem ch = true) (t g : List Char) :
    (Regex.cls c).Prefers ⟨ch :: t, g⟩ ⟨t, g⟩ := by
  simp [Prefers, run_cls_cons, hc]

theorem run_cls_eq_nil {c : CharClass} {s : Subject} (h : ∀ ch ∈ s.rest.head?, c.mem ch = false) :
    run (cls c) s = [] := by
  refine List.eq_nil_iff_forall_not_mem.mpr fun s' hs' => ?_
  obtain ⟨ch, hc, hrest⟩ := mem_run_cls hs'
  rw [h ch (by rw [hrest]; rfl)] at hc
  cases hc

/-- The preferred match of a sequence, if the preferred match of its first part goes on. -/
theorem Prefers.seq {a b : Regex} {s s₁ s₂ : Subject} (ha : a.Prefers s s₁) (hb : b.Prefers s₁ s₂) :
    (Regex.seq a b).Prefers s s₂ := by
  unfold Prefers at ha hb ⊢
  rw [run_seq]
  cases hrun : run a s with
  | nil =>
    rw [hrun] at ha
    cases ha
  | cons s' ss =>
    rw [hrun] at ha
    cases ha
    rw [List.flatMap_cons, List.head?_append, hb]
    rfl

theorem run_seq_eq_nil {a b : Regex} {s : Subject} (h : run a s = []) : run (seq a b) s = [] := by
  rw [run_seq, h, List.flatMap_nil]

/-- The left alternative is preferred. -/
theorem Prefers.alt_left {a : Regex} {s s' : Subject} (h : a.Prefers s s') (b : Regex) :
    (alt a b).Prefers s s' := by
  unfold Prefers at h ⊢
  rw [run_alt, List.head?_append, h]
  rfl

/-- The right alternative is tried once the left one has failed. -/
theorem Prefers.alt_right {a b : Regex} {s s' : Subject} (ha : run a s = []) (h : b.Prefers s s') :
    (alt a b).Prefers s s' := by
  unfold Prefers at h ⊢
  rw [run_alt, ha, List.nil_append, h]

theorem Prefers.opt {a : Regex} {s s' : Subject} (h : a.Prefers s s') : a.opt.Prefers s s' :=
  h.alt_left _

theorem Prefers.opt_none {a : Regex} {s : Subject} (h : run a s = []) : a.opt.Prefers s s :=
  .alt_right h (.eps s)

/-- A greedy repetition ends where its body fails. -/
theorem Prefers.star_stop {a : Regex} {s : Subject} (h : run a s = []) :
    (star a true).Prefers s s := by
  unfold Prefers
  rw [run_star, h]
  rfl

/-- A greedy repetition prefers one more turn. -/
theorem Prefers.star_step {a : Regex} {s s₁ s₂ : Subject} (ha : a.Prefers s s₁)
    (hlt : s₁.rest.length < s.rest.length) (hstar : (star a true).Prefers s₁ s₂) :
    (star a true).Prefers s s₂ := by
  unfold Prefers at ha hstar ⊢
  rw [run_star]
  cases hrun : run a s with
  | nil =>
    rw [hrun] at ha
    cases ha
  | cons s' ss =>
    rw [hrun] at ha
    cases ha
    have hkeep : (s₁ :: ss).filter (fun s' => decide (s'.rest.length < s.rest.length)) =
        s₁ :: ss.filter fun s' => decide (s'.rest.length < s.rest.length) :=
      List.filter_cons_of_pos (by simpa using hlt)
    simp only [hkeep, List.flatMap_cons, if_true, List.append_assoc, List.head?_append, hstar]
    rfl

/-- A greedy repetition of a class takes all it can. -/
theorem prefers_star_cls (c : CharClass) (t g : List Char) :
    (star (cls c) true).Prefers ⟨t, g⟩ ⟨t.dropWhile c.mem, g⟩ := by
  induction t with
  | nil => exact .star_stop rfl
  | cons ch t ih =>
    cases hc : c.mem ch with
    | true =>
      rw [List.dropWhile_cons_of_pos hc]
      exact .star_step (.cls hc t g) (Nat.lt_succ_self _) ih
    | false =>
      rw [List.dropWhile_cons_of_neg (by simp [hc])]
      refine .star_stop (run_cls_eq_nil fun ch' hch' => ?_)
      cases hch'
      exact hc

/-- A literal takes itself. -/
theorem prefers_lit (w t g : List Char) : (lit w).Prefers ⟨w ++ t, g⟩ ⟨t, g⟩ := by
  induction w with
  | nil => exact .eps _
  | cons ch w ih => exact .seq (.cls (CharClass.mem_of.mpr (List.mem_singleton.mpr rfl)) _ _) ih

theorem run_lit_eq_nil {w : List Char} {s : Subject} (h : ¬w <+: s.rest) : run (lit w) s = [] := by
  induction w generalizing s with
  | nil => exact absurd List.nil_prefix h
  | cons ch w ih =>
    refine List.eq_nil_iff_forall_not_mem.mpr fun s' hs' => ?_
    obtain ⟨s₁, hs₁, hw⟩ := List.mem_flatMap.mp (run_seq (cls (.of [ch])) (lit w) s ▸ hs')
    obtain ⟨ch', hmem, hrest⟩ := mem_run_cls hs₁
    obtain rfl := List.mem_singleton.mp (CharClass.mem_of.mp hmem)
    rw [ih fun hpre => h (hrest ▸ List.cons_prefix_cons.mpr ⟨rfl, hpre⟩)] at hw
    cases hw

/-! ## The text that is found -/

/-- What the preferred match takes is what is found. -/
theorem Prefers.find {r : Regex} {w t g : List Char} (h : r.Prefers ⟨w ++ t, []⟩ ⟨t, g⟩) :
    r.find (w ++ t) = some w := by
  unfold Regex.find leaves
  rw [show (run r ⟨w ++ t, []⟩).head? = some ⟨t, g⟩ from h]
  simp

/-- Nothing is found exactly if every way to match fails. -/
theorem find_eq_none_iff {r : Regex} {text : List Char} : r.find text = none ↔ run r ⟨text, []⟩ = [] := by
  unfold find leaves
  simp

/-- What is found stands at the front of the text. -/
theorem find_prefers {r : Regex} {text w : List Char} (h : r.find text = some w) :
    ∃ t g, text = w ++ t ∧ r.Prefers ⟨text, []⟩ ⟨t, g⟩ := by
  obtain ⟨rest, hrest, hw⟩ := Option.map_eq_some_iff.mp h
  obtain ⟨s', hs', rfl⟩ := Option.map_eq_some_iff.mp hrest
  obtain ⟨pre, hpre⟩ : s'.rest <:+ text := rest_suffix (List.mem_of_head? hs')
  have hlen : text.length - s'.rest.length = pre.length := by
    rw [← hpre, List.length_append]
    omega
  refine ⟨s'.rest, s'.captured, ?_, hs'⟩
  rw [← hw, hlen]
  conv_lhs => rw [← hpre]
  rw [← hpre, List.take_left]

theorem find_ne_nil {r : Regex} (hr : r.nullable = false) {text w : List Char}
    (h : r.find text = some w) : w ≠ [] := by
  obtain ⟨t, g, rfl, hprefers⟩ := find_prefers h
  rintro rfl
  exact absurd (shorter_of_not_nullable hr hprefers.mem) (lt_irrefl _)

/-! ## The texts that an expression takes -/

/-- `r` takes the text `w` somewhere. -/
def Takes (r : Regex) (w : List Char) : Prop :=
  ∃ s s', s' ∈ run r s ∧ s.rest = w ++ s'.rest

theorem takes_of_find {r : Regex} {text w : List Char} (h : r.find text = some w) : r.Takes w := by
  obtain ⟨t, g, htext, hprefers⟩ := find_prefers h
  exact ⟨_, _, hprefers.mem, htext⟩

theorem takes_of_mem {r : Regex} {s s' : Subject} (h : s' ∈ run r s) :
    ∃ w, s.rest = w ++ s'.rest ∧ r.Takes w := by
  obtain ⟨w, hw⟩ := rest_suffix h
  exact ⟨w, hw.symm, s, s', h, hw.symm⟩

theorem Takes.eps {w : List Char} (h : Regex.eps.Takes w) : w = [] := by
  obtain ⟨s, s', hs', hw⟩ := h
  rw [List.mem_singleton.mp hs'] at hw
  exact List.self_eq_append_left.mp hw

theorem Takes.cls {c : CharClass} {w : List Char} (h : (Regex.cls c).Takes w) :
    ∃ ch, w = [ch] ∧ c.mem ch = true := by
  obtain ⟨s, s', hs', hw⟩ := h
  obtain ⟨ch, hc, hrest⟩ := mem_run_cls hs'
  exact ⟨ch, List.append_cancel_right (hw.symm.trans hrest : w ++ s'.rest = [ch] ++ s'.rest), hc⟩

theorem Takes.seq {a b : Regex} {w : List Char} (h : (Regex.seq a b).Takes w) :
    ∃ u v, w = u ++ v ∧ a.Takes u ∧ b.Takes v := by
  obtain ⟨s, s', hs', hw⟩ := h
  obtain ⟨s₁, hs₁, hs'⟩ := List.mem_flatMap.mp hs'
  obtain ⟨u, hu, ha⟩ := takes_of_mem hs₁
  obtain ⟨v, hv, hb⟩ := takes_of_mem hs'
  refine ⟨u, v, ?_, ha, hb⟩
  rw [hu, hv, ← List.append_assoc] at hw
  exact (List.append_cancel_right hw).symm

theorem Takes.alt {a b : Regex} {w : List Char} (h : (Regex.alt a b).Takes w) :
    a.Takes w ∨ b.Takes w := by
  obtain ⟨s, s', hs', hw⟩ := h
  rcases List.mem_append.mp hs' with hs' | hs'
  · exact Or.inl ⟨s, s', hs', hw⟩
  · exact Or.inr ⟨s, s', hs', hw⟩

theorem Takes.opt {a : Regex} {w : List Char} (h : a.opt.Takes w) : a.Takes w ∨ w = [] :=
  h.alt.imp_right Takes.eps

theorem Takes.star {a : Regex} {greedy : Bool} {w : List Char} (h : (Regex.star a greedy).Takes w) :
    ∃ ws, w = List.flatten ws ∧ ∀ u ∈ ws, a.Takes u := by
  obtain ⟨s, s', hs', hw⟩ := h
  obtain ⟨ws, hws, hall⟩ := star_induction
    (P := fun s' => ∃ ws : List (List Char), s.rest = ws.flatten ++ s'.rest ∧ ∀ u ∈ ws, a.Takes u)
    (fun s₁ s₂ hs₁ hs₂ => by
      obtain ⟨ws, hws, hall⟩ := hs₁
      obtain ⟨u, hu, ha⟩ := takes_of_mem hs₂
      refine ⟨ws ++ [u], ?_, fun v hv => ?_⟩
      · rw [hws, hu]
        simp
      · rcases List.mem_append.mp hv with hv | hv
        · exact hall v hv
        · exact List.mem_singleton.mp hv ▸ ha)
    ⟨[], rfl, fun _ h => nomatch h⟩ hs'
  exact ⟨ws, List.append_cancel_right (hw.symm.trans hws), hall⟩

theorem Takes.star_cls {c : CharClass} {greedy : Bool} {w : List Char}
    (h : (Regex.star (.cls c) greedy).Takes w) : ∀ ch ∈ w, c.mem ch = true := by
  obtain ⟨ws, rfl, hall⟩ := h.star
  intro ch hch
  obtain ⟨u, hu, hmem⟩ := List.mem_flatten.mp hch
  obtain ⟨ch', rfl, hc⟩ := (hall u hu).cls
  exact List.mem_singleton.mp hmem ▸ hc

theorem Takes.lit {u w : List Char} (h : (Regex.lit u).Takes w) : w = u := by
  induction u generalizing w with
  | nil => exact h.eps
  | cons ch u ih =>
    obtain ⟨v, v', rfl, hv, hv'⟩ := Takes.seq h
    obtain ⟨ch', rfl, hmem⟩ := hv.cls
    rw [ih hv', List.mem_singleton.mp (CharClass.mem_of.mp hmem)]
    rfl

end Regex
