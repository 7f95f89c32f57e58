import C0mpiler.Lexer.NextToken
import Mathlib

/-!
# What the lexer finds

A text is cut into pieces (`Tokenizes`): each is the longest match of any rule and of the earliest
such rule (`Munch`), whitespace and comments are left out, and a token stands at the line and column
that the text before it has. There a line comment ends at a newline or at the end of the text
(`lineComment`); the rule of the lexer wants a newline, and no carriage return but directly before
it. `tokenBuffer_iff` says that the lexer comes to an end on every text and cuts it like that exactly
where it never stands before a line comment that its rule does not match (`Stuck`).
-/

namespace Lex

open Regex

/-! ## Positions -/

/-- The position behind a text. -/
def positionAfter (before : List Char) : TokenPosition :=
  ⟨before.count '\n', (before.reverse.takeWhile (· != '\n')).length⟩

theorem consumeChar_positionAfter {lx : Lexer} {before : List Char}
    (h : lx.getPos = positionAfter before) (c : Char) :
    (lx.consumeChar c).getPos = positionAfter (before ++ [c]) := by
  obtain ⟨hline, hcol⟩ := TokenPosition.mk.inj h
  unfold Lexer.consumeChar positionAfter Lexer.getPos
  rw [List.count_append, List.reverse_append]
  split
  · next hc =>
    subst hc
    simp [hline]
  · next hc => simp [hline, hcol, hc]

theorem consume_positionAfter {lx : Lexer} {before : List Char}
    (h : lx.getPos = positionAfter before) (lexeme : List Char) :
    (lx.consume lexeme).getPos = positionAfter (before ++ lexeme) := by
  suffices hfold : (lexeme.foldl Lexer.consumeChar lx).getPos = positionAfter (before ++ lexeme) from
    hfold
  induction lexeme generalizing lx before with
  | nil => rwa [List.append_nil]
  | cons c lexeme ih =>
    rw [List.foldl_cons, ih (consumeChar_positionAfter h c), List.append_assoc]
    rfl

/-- The position moves on with every character. -/
theorem positionAfter_append_ne (before : List Char) {l : List Char} (h : l ≠ []) :
    positionAfter (before ++ l) ≠ positionAfter before := by
  intro heq
  obtain ⟨hline, hcol⟩ := TokenPosition.mk.inj heq
  rw [List.count_append] at hline
  have hnone : '\n' ∉ l := List.count_eq_zero.mp (by omega)
  have hall : l.reverse.takeWhile (· != '\n') = l.reverse :=
    List.takeWhile_eq_self_iff.mpr fun c hc => by
      have hne : c ≠ '\n' := fun h => hnone (h ▸ List.mem_reverse.mp hc)
      simpa using hne
  rw [List.reverse_append, List.takeWhile_append_of_pos fun c hc => by
    have hne : c ≠ '\n' := fun h => hnone (h ▸ List.mem_reverse.mp hc)
    simpa using hne, List.length_append, List.length_reverse] at hcol
  have hpos : 0 < l.length := List.length_pos_of_ne_nil h
  omega

/-! ## The longest match -/

theorem byteLen_append (l m : List Char) : byteLen (l ++ m) = byteLen l + byteLen m := by
  unfold byteLen
  rw [List.map_append, List.sum_append]

theorem byteLen_pos {l : List Char} (h : l ≠ []) : 0 < byteLen l := by
  cases l with
  | nil => exact absurd rfl h
  | cons c l =>
    have hc : 0 < c.utf8Size := Char.utf8Size_pos c
    show 0 < (c.utf8Size :: l.map Char.utf8Size).sum
    rw [List.sum_cons]
    omega

/-- Of two texts at the front of one text the one with more bytes has more characters. -/
theorem byteLen_lt_iff {l m text : List Char} (hl : l <+: text) (hm : m <+: text) :
    byteLen l < byteLen m ↔ l.length < m.length := by
  rcases List.prefix_or_prefix_of_prefix hl hm with ⟨d, rfl⟩ | ⟨d, rfl⟩
  · rw [byteLen_append, List.length_append]
    cases d with
    | nil => simp [byteLen]
    | cons c d =>
      have hpos : 0 < byteLen (c :: d) := byteLen_pos (by simp)
      simp only [List.length_cons]
      omega
  · rw [byteLen_append, List.length_append]
    omega

/-- The earliest of the longest. -/
def Earliest (ms : List (TokenType × List Char)) (m : TokenType × List Char) : Prop :=
  ∃ pre post, ms = pre ++ m :: post ∧ (∀ x ∈ pre, byteLen x.2 < byteLen m.2) ∧
    ∀ x ∈ post, byteLen x.2 ≤ byteLen m.2

theorem foldl_longer {ms : List (TokenType × List Char)} (a : TokenType × List Char) :
    Earliest (a :: ms) (ms.foldl longer a) := by
  induction ms generalizing a with
  | nil => exact ⟨[], [], rfl, (fun _ h => nomatch h), fun _ h => nomatch h⟩
  | cons b ms ih =>
    rw [List.foldl_cons]
    -- a longer match takes the place of `a`
    by_cases hlt : byteLen a.2 < byteLen b.2
    · rw [longer, if_pos hlt]
      obtain ⟨pre, post, hsplit, hpre, hpost⟩ := ih b
      refine ⟨a :: pre, post, by rw [List.cons_append, ← hsplit], fun x hx => ?_, hpost⟩
      rcases List.mem_cons.mp hx with rfl | hx
      · -- the result is at least as long as the first element
        cases pre with
        | nil => exact (List.cons.inj hsplit).1 ▸ hlt
        | cons p pre => exact lt_trans hlt ((List.cons.inj hsplit).1 ▸ hpre p List.mem_cons_self)
      · exact hpre x hx
    -- a match that is no longer leaves `a` in place
    · rw [longer, if_neg hlt]
      obtain ⟨pre, post, hsplit, hpre, hpost⟩ := ih a
      cases pre with
      | nil =>
        obtain ⟨ha, hms⟩ := List.cons.inj hsplit
        refine ⟨[], b :: ms, by rw [← ha]; rfl, (fun _ h => nomatch h), fun x hx => ?_⟩
        rw [← ha]
        rcases List.mem_cons.mp hx with rfl | hx
        · exact Nat.not_lt.mp hlt
        · exact ha ▸ hpost x (hms ▸ hx)
      | cons p pre =>
        obtain ⟨rfl, hms⟩ := List.cons.inj hsplit
        have ha : byteLen a.2 < byteLen (ms.foldl longer a).2 := hpre a List.mem_cons_self
        refine ⟨a :: b :: pre, post, congrArg (fun l => a :: b :: l) hms, fun x hx => ?_, hpost⟩
        simp only [List.mem_cons] at hx
        rcases hx with rfl | rfl | hx
        · exact ha
        · exact lt_of_le_of_lt (Nat.not_lt.mp hlt) ha
        · exact hpre x (List.mem_cons_of_mem _ hx)

theorem longest_earliest {ms : List (TokenType × List Char)} {m : TokenType × List Char}
    (h : longest ms = some m) : Earliest ms m := by
  cases ms with
  | nil => cases h
  | cons a ms =>
    cases h
    exact foldl_longer a

/-! ## The rules at the front of a text -/

/-- What each rule finds. -/
abbrev Finds := List (TokenType × Option (List Char))

def lexerFinds (text : List Char) : Finds := allTokens.map fun rule => (rule.1, rule.2.find text)

/-- A line comment ends at a newline or at the end of the text. -/
def lineComment (text : List Char) : Option (List Char) :=
  if ['/', '/'] <+: text then
    some (text.takeWhile (· != '\n') ++ (text.dropWhile (· != '\n')).take 1)
  else none

/-- The rules of the lexer with line comments as they should be. -/
def claimFinds (text : List Char) : Finds :=
  allTokens.map fun rule =>
    (rule.1, if rule.1 = .comment then lineComment text else rule.2.find text)

/-- The longest match of any rule, of the earliest such rule. -/
def Munch (finds : Finds) (t : TokenType) (lexeme : List Char) : Prop :=
  ∃ pre post, finds = pre ++ (t, some lexeme) :: post ∧
    (∀ r ∈ pre, ∀ l : List Char, r.2 = some l → l.length < lexeme.length) ∧
    ∀ r ∈ post, ∀ l : List Char, r.2 = some l → l.length ≤ lexeme.length

theorem Munch.mem {finds : Finds} {t : TokenType} {l : List Char} (h : Munch finds t l) :
    (t, some l) ∈ finds := by
  obtain ⟨pre, post, rfl, -⟩ := h
  simp

theorem Munch.length_le {finds : Finds} {t t' : TokenType} {l l' : List Char}
    (h : Munch finds t l) (hmem : (t', some l') ∈ finds) : l'.length ≤ l.length := by
  obtain ⟨pre, post, rfl, hpre, hpost⟩ := h
  simp only [List.mem_append, List.mem_cons, Prod.mk.injEq, Option.some.injEq] at hmem
  rcases hmem with hmem | ⟨-, rfl⟩ | hmem
  · exact (hpre _ hmem l' rfl).le
  · exact le_rfl
  · exact hpost _ hmem l' rfl

theorem Munch.unique {finds : Finds} {t t' : TokenType} {l l' : List Char} (h : Munch finds t l)
    (h' : Munch finds t' l') : t = t' ∧ l = l' := by
  obtain ⟨pre, post, rfl, hpre, hpost⟩ := h
  obtain ⟨pre', post', hrules, hpre', hpost'⟩ := h'
  rcases List.append_eq_append_iff.mp hrules with ⟨as, hpre₁, hrest⟩ | ⟨as, hpre₁, hrest⟩
  · cases as with
    | nil => simpa using (List.cons.inj hrest).1
    | cons a as =>
      -- the second rule stands behind the first
      obtain ⟨rfl, hpost₁⟩ := List.cons.inj hrest
      have hlt : l.length < l'.length := hpre' (t, some l) (by simp [hpre₁]) l rfl
      have hle : l'.length ≤ l.length := hpost (t', some l') (by simp [hpost₁]) l' rfl
      omega
  · cases as with
    | nil =>
      obtain ⟨rfl, rfl⟩ : t' = t ∧ l' = l := by simpa using (List.cons.inj hrest).1
      exact ⟨rfl, rfl⟩
    | cons a as =>
      obtain ⟨rfl, hpost₁⟩ := List.cons.inj hrest
      have hlt : l'.length < l.length := hpre (t', some l') (by simp [hpre₁]) l' rfl
      have hle : l.length ≤ l'.length := hpost' (t, some l) (by simp [hpost₁]) l rfl
      omega

theorem mem_lexerFinds {text : List Char} {t : TokenType} {l : List Char} :
    (t, some l) ∈ lexerFinds text ↔ ∃ r, (t, r) ∈ allTokens ∧ r.find text = some l := by
  unfold lexerFinds
  simp only [List.mem_map, Prod.mk.injEq, Prod.exists]
  constructor
  · rintro ⟨t', r, hmem, rfl, hfind⟩
    exact ⟨r, hmem, hfind⟩
  · rintro ⟨r, hmem, hfind⟩
    exact ⟨t, r, hmem, rfl, hfind⟩

theorem allTokens_not_nullable : ∀ rule ∈ allTokens, rule.2.nullable = false := by
  have hall : (allTokens.all fun rule => !rule.2.nullable) = true := rfl
  simpa using hall

/-- What a rule finds is at the front of the text and not empty. -/
theorem lexerFinds_front {text : List Char} {t : TokenType} {l : List Char}
    (h : (t, some l) ∈ lexerFinds text) : l <+: text ∧ l ≠ [] := by
  obtain ⟨r, hmem, hfind⟩ := mem_lexerFinds.mp h
  obtain ⟨rest, -, rfl, -⟩ := find_prefers hfind
  exact ⟨List.prefix_append _ _, find_ne_nil (allTokens_not_nullable _ hmem) hfind⟩

theorem ruleMatches_eq (text : List Char) : ruleMatches text =
    (lexerFinds text).filterMap fun rule => rule.2.map fun lexeme => (rule.1, lexeme) := by
  unfold ruleMatches lexerFinds
  rw [List.filterMap_map]
  rfl

/-- `reduce` picks the piece. -/
theorem munch_of_longest {text : List Char} {t : TokenType} {l : List Char}
    (h : longest (ruleMatches text) = some (t, l)) : Munch (lexerFinds text) t l := by
  obtain ⟨pre, post, hsplit, hpre, hpost⟩ := longest_earliest h
  rw [ruleMatches_eq] at hsplit
  -- rules that do not match are left out by `filterMap`
  obtain ⟨pre', rest, hfinds, hpre', hrest⟩ := List.filterMap_eq_append_iff.mp hsplit
  obtain ⟨skipped, ⟨t', o⟩, post', hrest', hskipped, hrule, hpost'⟩ :=
    List.filterMap_eq_cons_iff.mp hrest
  obtain ⟨l', rfl, heq⟩ := Option.map_eq_some_iff.mp hrule
  obtain ⟨rfl, rfl⟩ := Prod.mk.inj heq
  have hall : ∀ {r : TokenType × Option (List Char)} {x : List Char}, r ∈ lexerFinds text →
      r.2 = some x → x <+: text := by
    rintro ⟨t, o⟩ x hr rfl
    exact (lexerFinds_front hr).1
  have hself : l' <+: text := hall (r := (t', some l')) (by rw [hfinds, hrest']; simp) rfl
  refine ⟨pre' ++ skipped, post', by rw [hfinds, hrest', List.append_assoc], ?_, ?_⟩
  -- the rules before: shorter, or without a match
  · intro r hr x hx
    have hmem : r ∈ lexerFinds text := by
      rw [hfinds, hrest']
      rcases List.mem_append.mp hr with hr | hr <;> simp [hr]
    rcases List.mem_append.mp hr with hr | hr
    · refine (byteLen_lt_iff (hall hmem hx) hself).mp (hpre (r.1, x) ?_)
      rw [← hpre', List.mem_filterMap]
      exact ⟨r, hr, by rw [hx]; rfl⟩
    · have hnone := hskipped r hr
      rw [hx] at hnone
      cases hnone
  -- the rules after: no longer
  · intro r hr x hx
    have hmem : r ∈ lexerFinds text := by
      rw [hfinds, hrest']
      simp [hr]
    refine Nat.not_lt.mp fun hlt => ?_
    refine Nat.not_lt.mpr (hpost (r.1, x) ?_) ((byteLen_lt_iff hself (hall hmem hx)).mpr hlt)
    rw [← hpost', List.mem_filterMap]
    exact ⟨r, hr, by rw [hx]; rfl⟩

/-! ## Comments -/

theorem comment_rules :
    (allTokens.filter fun rule => rule.1 == .comment) = [(.comment, comment)] := rfl

theorem allTokens_comment {rule : TokenType × Regex} (hrule : rule ∈ allTokens)
    (h : rule.1 = .comment) : rule.2 = comment := by
  have hmem : rule ∈ allTokens.filter fun rule => rule.1 == .comment :=
    List.mem_filter.mpr ⟨hrule, beq_iff_eq.mpr h⟩
  rw [comment_rules] at hmem
  rw [List.mem_singleton.mp hmem]

theorem slash_rules : (allTokens.filter fun rule => rule.2.starts '/') =
    [(.slash, keyword "/"), (.slashEq, keyword "/="), (.comment, comment),
      (.commentsBlock, commentsBlock), (.unfinishedCommentBlock, unfinishedCommentBlock)] := rfl

/-- A line comment that the rule of the lexer does not match: the end of the text comes before a
newline, or a carriage return that is not directly before it does. -/
def OpenComment (text : List Char) : Prop := ['/', '/'] <+: text ∧ comment.find text = none

theorem lineComment_eq_of_find {text l : List Char} (h : comment.find text = some l) :
    lineComment text = some l := by
  obtain ⟨rest, -, htext, -⟩ := find_prefers h
  obtain ⟨mark, u, rfl, hmark, hu⟩ := (takes_of_find h).seq
  obtain ⟨body, v, rfl, hbody, hv⟩ := hu.seq
  obtain ⟨cr, lf, rfl, hcr, hlf⟩ := hv.seq
  obtain rfl := hmark.lit
  obtain ⟨c, rfl, hc⟩ := hlf.cls
  obtain rfl := List.mem_singleton.mp (CharClass.mem_of.mp hc)
  -- no line feed before the one that ends the comment
  have hline : ∀ c ∈ ("//".toList ++ (body ++ cr) : List Char), (c != '\n') = true := by
    intro c hc
    simp only [List.mem_append] at hc
    rcases hc with hc | hc | hc
    · have hslash : c ∈ ['/', '/'] := hc
      simp only [List.mem_cons, List.not_mem_nil, or_false, or_self] at hslash
      rw [hslash]
      decide
    · have hmem := CharClass.mem_notOf.mp (hbody.star_cls c hc)
      have hne : c ≠ '\n' := fun h => hmem (by simp [h, lfChar])
      simpa using hne
    -- the carriage return may be missing
    · rcases hcr.opt with hcr | rfl
      · obtain ⟨c', rfl, hc'⟩ := hcr.cls
        obtain rfl := List.mem_singleton.mp hc
        obtain rfl := List.mem_singleton.mp (CharClass.mem_of.mp hc')
        decide
      · cases hc
  have hsplit : text = ("//".toList ++ (body ++ cr)) ++ '\n' :: rest := by
    rw [htext]
    simp [lfChar]
  have hfront : ['/', '/'] <+: text := ⟨body ++ cr ++ '\n' :: rest, by rw [hsplit]; simp⟩
  rw [lineComment, if_pos hfront, hsplit, List.takeWhile_append_of_pos hline,
    List.dropWhile_append_of_pos hline]
  simp [lfChar]

theorem claimFinds_eq {text : List Char} (h : ¬OpenComment text) :
    claimFinds text = lexerFinds text := by
  refine List.map_congr_left fun rule hrule => ?_
  split
  · next hcomment =>
    rw [allTokens_comment hrule hcomment]
    cases hfind : comment.find text with
    | some l => rw [lineComment_eq_of_find hfind]
    | none =>
      have hmark : ¬['/', '/'] <+: text := fun hmark => h ⟨hmark, hfind⟩
      rw [lineComment, if_neg hmark]
  · rfl

/-- Where a line comment may start, no rule but those of comments finds more than a slash. -/
theorem find_slash {text l : List Char} {t : TokenType} {r : Regex} (hmark : ['/', '/'] <+: text)
    (hrule : (t, r) ∈ allTokens) (ht : t ≠ .comment) (hfind : r.find text = some l) :
    t = .slash ∧ l = ['/'] := by
  obtain ⟨rest, htext⟩ := hmark
  have hcons : text = '/' :: '/' :: rest := htext.symm
  -- the rule has to start with the slash
  have hstarts : r.starts '/' = true := by
    refine Bool.of_not_eq_false fun hstarts => ?_
    have hnil := run_eq_nil_of_not_starts (allTokens_not_nullable _ hrule) hstarts
      (s := ⟨text, []⟩) hcons
    rw [find_eq_none_iff.mpr hnil] at hfind
    cases hfind
  have hblock : ¬['/', '*'] <+: text := by
    rw [hcons]
    simp
  have hmem : (t, r) ∈ allTokens.filter fun rule => rule.2.starts '/' :=
    List.mem_filter.mpr ⟨hrule, hstarts⟩
  rw [slash_rules] at hmem
  simp only [List.mem_cons, Prod.mk.injEq, List.not_mem_nil, or_false] at hmem
  -- the rules that do
  rcases hmem with ⟨rfl, rfl⟩ | ⟨rfl, rfl⟩ | ⟨rfl, -⟩ | ⟨rfl, rfl⟩ | ⟨rfl, rfl⟩
  · exact ⟨rfl, (takes_of_find hfind).lit⟩
  · have heq : ¬['/', '='] <+: text := by
      rw [hcons]
      simp
    have hnone : (keyword "/=").find text = none := find_eq_none_iff.mpr (run_lit_eq_nil heq)
    cases hnone.symm.trans hfind
  · exact absurd rfl ht
  -- the block comment starts with other characters
  · have hnone : commentsBlock.find text = none :=
      find_eq_none_iff.mpr (run_seq_eq_nil (run_lit_eq_nil hblock))
    cases hnone.symm.trans hfind
  · have hnone : unfinishedCommentBlock.find text = none :=
      find_eq_none_iff.mpr (run_lit_eq_nil hblock)
    cases hnone.symm.trans hfind

theorem munch_lexer_openComment {text l : List Char} {t : TokenType} (h : OpenComment text)
    (hmunch : Munch (lexerFinds text) t l) : t = .slash := by
  obtain ⟨r, hrule, hfind⟩ := mem_lexerFinds.mp hmunch.mem
  refine (find_slash h.1 hrule (fun ht => ?_) hfind).1
  rw [show r = comment from allTokens_comment hrule ht, h.2] at hfind
  cases hfind

theorem munch_claim_openComment {text l : List Char} {t : TokenType} (h : OpenComment text)
    (hmunch : Munch (claimFinds text) t l) : t = .comment ∧ lineComment text = some l := by
  obtain ⟨⟨t', r⟩, hrule, heq⟩ := List.mem_map.mp hmunch.mem
  obtain ⟨rfl, hfind⟩ := Prod.mk.inj heq
  by_cases ht : t' = .comment
  · rw [if_pos ht] at hfind
    exact ⟨ht, hfind⟩
  · rw [if_neg ht] at hfind
    obtain ⟨rfl, rfl⟩ := find_slash h.1 hrule ht hfind
    -- the line comment is longer
    exfalso
    have hcomment : (TokenType.comment, lineComment text) ∈ claimFinds text :=
      List.mem_map.mpr ⟨(.comment, comment),
        (List.mem_filter.mp (comment_rules ▸ List.mem_singleton_self _)).1, rfl⟩
    rw [lineComment, if_pos h.1] at hcomment
    have hle := hmunch.length_le hcomment
    obtain ⟨rest, rfl⟩ := h.1
    simp at hle

/-! ## What the pieces are -/

/-- What may stand between two tokens: white space, a block comment, or a line comment that ends at
a newline or at the end of the text. -/
inductive Separator (l rest : List Char) : Prop
  | blank (h : ∀ c ∈ l, c ∈ [tabChar, lfChar, '\x0b', '\x0c', crChar, ' '])
  | block (body : List Char) (h : l = ['/', '*'] ++ body ++ ['*', '/'])
  | line (body : List Char) (hbody : '\n' ∉ body) (h : l = ['/', '/'] ++ body ++ ['\n'])
  | lastLine (body : List Char) (hbody : '\n' ∉ body) (h : l = ['/', '/'] ++ body) (hrest : rest = [])

def keywordTexts : List String :=
  ["as", "break", "const", "continue", "crate", "else", "enum", "extern", "false", "fn", "for",
  "if", "impl", "in", "let", "loop", "match", "mod", "move", "mut", "pub", "ref", "return", "self",
  "Self", "static", "struct", "super", "trait", "true", "type", "unsafe", "use", "where", "while",
  "async", "await", "dyn", "abstract", "become", "box", "do", "final", "macro", "override", "priv",
  "typeof", "unsized", "virtual", "yield", "_"]

/-- A piece of the text: the longest match of the earliest rule. What is left out is white space or
a comment, a keyword is no identifier, and an identifier is not split. -/
structure Piece (t : TokenType) (lexeme rest : List Char) : Prop where
  munch : Munch (claimFinds (lexeme ++ rest)) t lexeme
  nonempty : lexeme ≠ []
  separator : t.shouldSkip = true → Separator lexeme rest
  keyword : t = .id → String.ofList lexeme ∉ keywordTexts
  identifier : ∀ c u, lexeme ++ rest = c :: u → identStart.mem c = true →
    c :: u.takeWhile identContinue.mem <+: lexeme

theorem skipped_rules : (allTokens.filter fun rule => rule.1.shouldSkip) =
    [(.comment, comment), (.commentsBlock, commentsBlock), (.whitespace, whitespace)] := rfl

theorem lineComment_separator {l rest : List Char} (h : lineComment (l ++ rest) = some l) :
    Separator l rest := by
  unfold lineComment at h
  -- the comment starts with two slashes
  split at h
  · next hmark =>
    obtain ⟨u, hu⟩ := hmark
    have htake : (l ++ rest).takeWhile (· != '\n') = ['/', '/'] ++ u.takeWhile (· != '\n') := by
      rw [← hu]
      rfl
    have hbody : '\n' ∉ u.takeWhile (· != '\n') := fun hmem => by
      simpa using List.mem_takeWhile_imp hmem
    have hsplit := List.takeWhile_append_dropWhile (p := (· != '\n')) (l := l ++ rest)
    have hl := Option.some.inj h
    cases hdrop : (l ++ rest).dropWhile (· != '\n') with
    -- the text ends before the line does
    | nil =>
      rw [hdrop, htake] at hl
      rw [hdrop, List.append_nil, htake] at hsplit
      refine .lastLine _ hbody (by simpa using hl.symm) ?_
      have hlen : l.length = (l ++ rest).length := by
        rw [← hsplit, ← hl]
        simp
      rw [List.length_append] at hlen
      exact List.eq_nil_of_length_eq_zero (by omega)
    -- the line feed ends the comment
    | cons c v =>
      have hc : c = '\n' := by
        have hhead := List.head?_dropWhile_not (· != '\n') (l ++ rest)
        rw [hdrop] at hhead
        simpa using hhead
      rw [hdrop, htake, hc] at hl
      exact .line _ hbody hl.symm
  · cases h

/-- What the claimed rules find is at the front of the text and not empty. -/
theorem claimFinds_front {text : List Char} {t : TokenType} {l : List Char}
    (h : (t, some l) ∈ claimFinds text) : l <+: text ∧ l ≠ [] := by
  obtain ⟨⟨t', r⟩, hrule, heq⟩ := List.mem_map.mp h
  obtain ⟨rfl, hfind⟩ := Prod.mk.inj heq
  by_cases ht : t' = .comment
  · rw [if_pos ht] at hfind
    unfold lineComment at hfind
    split at hfind
    · next hmark =>
      obtain rfl := Option.some.inj hfind
      obtain ⟨u, rfl⟩ := hmark
      refine ⟨?_, by simp⟩
      have hsplit := List.takeWhile_append_dropWhile (p := (· != '\n')) (l := ['/', '/'] ++ u)
      conv_rhs => rw [← hsplit]
      exact List.prefix_append_right_inj _ |>.mpr (List.take_prefix _ _)
    · cases hfind
  · rw [if_neg ht] at hfind
    exact lexerFinds_front (mem_lexerFinds.mpr ⟨r, hrule, hfind⟩)

theorem munch_separator {t : TokenType} {l rest : List Char}
    (h : Munch (claimFinds (l ++ rest)) t l) (hskip : t.shouldSkip = true) : Separator l rest := by
  obtain ⟨⟨t', r⟩, hrule, heq⟩ := List.mem_map.mp h.mem
  obtain ⟨rfl, hfind⟩ := Prod.mk.inj heq
  have hmem : (t', r) ∈ allTokens.filter fun rule => rule.1.shouldSkip :=
    List.mem_filter.mpr ⟨hrule, hskip⟩
  rw [skipped_rules] at hmem
  simp only [List.mem_cons, Prod.mk.injEq, List.not_mem_nil, or_false] at hmem
  rcases hmem with ⟨rfl, rfl⟩ | ⟨rfl, rfl⟩ | ⟨rfl, rfl⟩
  · exact lineComment_separator hfind
  · rw [if_neg (by decide)] at hfind
    obtain ⟨u, v, rfl, hu, hv⟩ := (takes_of_find hfind).seq
    obtain ⟨body, w, rfl, -, hw⟩ := hv.seq
    rw [hu.lit, hw.lit]
    exact .block body (by simp)
  · rw [if_neg (by decide)] at hfind
    obtain ⟨u, v, rfl, hu, hv⟩ := (takes_of_find hfind).seq
    obtain ⟨c, rfl, hc⟩ := hu.cls
    refine .blank fun c' hc' => CharClass.mem_of.mp ?_
    rcases List.mem_cons.mp hc' with rfl | hc'
    · exact hc
    · exact hv.star_cls c' hc'

/-- The rules for keywords stand before the rule for identifiers. -/
theorem keyword_before_id : ∀ w ∈ keywordTexts,
    ∃ rule ∈ allTokens.takeWhile (fun rule => rule.1 != .id), rule.1 ≠ .comment ∧
      rule.2 = Lex.keyword w := by
  have hall : (keywordTexts.all fun w => (allTokens.takeWhile fun rule => rule.1 != .id).any
      fun rule => rule.1 != .comment && rule.2 == Lex.keyword w) = true := rfl
  intro w hw
  obtain ⟨rule, hrule, h⟩ := List.any_eq_true.mp (List.all_eq_true.mp hall w hw)
  obtain ⟨hne, heq⟩ := Bool.and_eq_true_iff.mp h
  exact ⟨rule, hrule, bne_iff_ne.mp hne, beq_iff_eq.mp heq⟩

theorem mem_of_mem_takeWhile {α : Type} {p : α → Bool} {pre post : List α} {x a : α}
    (hx : p x = false) (h : a ∈ (pre ++ x :: post).takeWhile p) : a ∈ pre := by
  induction pre with
  | nil =>
    rw [List.nil_append, List.takeWhile_cons_of_neg (by simp [hx])] at h
    cases h
  | cons b pre ih =>
    rw [List.cons_append, List.takeWhile_cons] at h
    split at h
    · rcases List.mem_cons.mp h with rfl | h
      · exact List.mem_cons_self
      · exact List.mem_cons_of_mem _ (ih h)
    · cases h

theorem munch_keyword {text l : List Char} (h : Munch (claimFinds text) .id l)
    (hl : l <+: text) : String.ofList l ∉ keywordTexts := by
  intro hkeyword
  obtain ⟨rule, hrule, hne, hpat⟩ := keyword_before_id _ hkeyword
  obtain ⟨pre, post, hsplit, hpre, -⟩ := h
  obtain ⟨pre', rest, htokens, hpre', hrest⟩ := List.map_eq_append_iff.mp hsplit
  obtain ⟨idRule, post', rfl, hid, -⟩ := List.map_eq_cons_iff.mp hrest
  have hmem : rule ∈ pre' := by
    rw [htokens] at hrule
    refine mem_of_mem_takeWhile ?_ hrule
    rw [(Prod.mk.inj hid).1]
    decide
  obtain ⟨rest', rfl⟩ := hl
  have hfind : rule.2.find (l ++ rest') = some l := by
    rw [hpat, Lex.keyword, String.toList_ofList]
    exact (prefers_lit l rest' []).find
  have hlt := hpre (rule.1, rule.2.find (l ++ rest')) (hpre' ▸ List.mem_map.mpr
    ⟨rule, hmem, by rw [if_neg hne]⟩) l hfind
  exact lt_irrefl _ hlt

theorem identifier_find (c : Char) (u : List Char) (hc : identStart.mem c = true) :
    identifierOrKeyword.find (c :: u) = some (c :: u.takeWhile identContinue.mem) := by
  have hsplit : c :: u = (c :: u.takeWhile identContinue.mem) ++ u.dropWhile identContinue.mem := by
    rw [List.cons_append, List.takeWhile_append_dropWhile]
  have hprefers : identifierOrKeyword.Prefers ⟨c :: u, []⟩ ⟨u.dropWhile identContinue.mem, []⟩ :=
    .seq (.cls hc u []) (prefers_star_cls identContinue u [])
  rw [hsplit] at hprefers
  conv_lhs => rw [hsplit]
  exact hprefers.find

/-- A piece reaches at least to the end of the identifier that starts where it does. -/
theorem munch_identifier {text l : List Char} {t : TokenType} (h : Munch (claimFinds text) t l)
    (hl : l <+: text) {c : Char} {u : List Char} (htext : text = c :: u)
    (hc : identStart.mem c = true) : c :: u.takeWhile identContinue.mem <+: l := by
  have hfind := identifier_find c u hc
  have hmem : (TokenType.id, some (c :: u.takeWhile identContinue.mem)) ∈ claimFinds text :=
    List.mem_map.mpr ⟨(.id, identifierOrKeyword), List.mem_of_getElem? (i := 53) rfl, by
      rw [if_neg (by decide), htext, hfind]⟩
  refine List.prefix_of_prefix_length_le (claimFinds_front hmem).1 hl (h.length_le hmem)

theorem piece_iff {t : TokenType} {l rest : List Char} :
    Piece t l rest ↔ Munch (claimFinds (l ++ rest)) t l := by
  refine ⟨Piece.munch, fun h => ?_⟩
  have hl : l <+: l ++ rest := List.prefix_append l rest
  exact {
    munch := h
    nonempty := (claimFinds_front h.mem).2
    separator := munch_separator h
    keyword := fun ht => munch_keyword (ht ▸ h) hl
    identifier := fun c u htext hc => munch_identifier h hl htext hc }

/-! ## Cutting a text -/

/-- The text is cut into pieces that meet `P`; the tokens are the pieces that are not left out. -/
inductive Cuts (P : TokenType → List Char → List Char → Prop) : List Char → List Char → List Token → Prop
  | done (before : List Char) : Cuts P before [] []
  | skip {before lexeme rest : List Char} {t : TokenType} {tokens : List Token}
      (hpiece : P t lexeme rest) (hskip : t.shouldSkip = true)
      (h : Cuts P (before ++ lexeme) rest tokens) : Cuts P before (lexeme ++ rest) tokens
  | token {before lexeme rest : List Char} {t : TokenType} {tokens : List Token}
      (hpiece : P t lexeme rest) (hskip : t.shouldSkip = false)
      (h : Cuts P (before ++ lexeme) rest tokens) :
      Cuts P before (lexeme ++ rest) (⟨t, lexeme, positionAfter before⟩ :: tokens)

/-- What the claimed lexer does. -/
abbrev Tokenizes := Cuts Piece

/-- The pieces of the lexer. -/
def LexerPiece (t : TokenType) (lexeme rest : List Char) : Prop :=
  Munch (lexerFinds (lexeme ++ rest)) t lexeme

/-- Going on from the text, the lexer comes to a line comment that its rule does not match. -/
inductive Stuck : List Char → Prop
  | here {text : List Char} (h : OpenComment text) : Stuck text
  | later {t : TokenType} {lexeme rest : List Char} (hpiece : LexerPiece t lexeme rest)
      (h : Stuck rest) : Stuck (lexeme ++ rest)

section Cuts

variable {P : TokenType → List Char → List Char → Prop} {before text : List Char}
  {tokens : List Token}

theorem Cuts.inv (h : Cuts P before text tokens) : (text = [] ∧ tokens = []) ∨
    ∃ t lexeme rest, text = lexeme ++ rest ∧ P t lexeme rest ∧
      ((t.shouldSkip = true ∧ Cuts P (before ++ lexeme) rest tokens) ∨
        ∃ tokens', t.shouldSkip = false ∧ tokens = ⟨t, lexeme, positionAfter before⟩ :: tokens' ∧
          Cuts P (before ++ lexeme) rest tokens') := by
  cases h with
  | done => exact Or.inl ⟨rfl, rfl⟩
  | skip hpiece hskip h => exact Or.inr ⟨_, _, _, rfl, hpiece, Or.inl ⟨hskip, h⟩⟩
  | token hpiece hskip h => exact Or.inr ⟨_, _, _, rfl, hpiece, Or.inr ⟨_, hskip, rfl, h⟩⟩

/-- The tokens stand behind what comes before the text. -/
theorem Cuts.pos (h : Cuts P before text tokens) :
    ∀ token ∈ tokens, ∃ l, token.pos = positionAfter (before ++ l) := by
  induction h with
  | done => exact fun _ h => nomatch h
  | @skip _ lexeme _ _ _ _ _ _ ih =>
    intro token htoken
    obtain ⟨l, hl⟩ := ih token htoken
    exact ⟨lexeme ++ l, by rw [hl, List.append_assoc]⟩
  | @token before lexeme _ _ _ _ _ _ ih =>
    intro token htoken
    rcases List.mem_cons.mp htoken with rfl | htoken
    · exact ⟨[], by rw [List.append_nil]⟩
    · obtain ⟨l, hl⟩ := ih token htoken
      exact ⟨lexeme ++ l, by rw [hl, List.append_assoc]⟩

end Cuts

/-! ## The lexer cuts the text -/

theorem allTokens_eof : ∀ rule ∈ allTokens, rule.1 ≠ .eof := by
  have hall : (allTokens.all fun rule => rule.1 != .eof) = true := rfl
  simpa using hall

/-- What a call of `next_token` returns: the end of the text, or a token and the lexer behind it. -/
structure Returns (before codes : List Char) (token : Token) (next : Lexer) (before' : List Char) :
    Prop where
  notEof : token.tokenType ≠ .eof
  pos : next.getPos = positionAfter before'
  shorter : next.codes.length < codes.length
  cuts : ∀ tokens, Cuts LexerPiece before' next.codes tokens →
    Cuts LexerPiece before codes (token :: tokens)

theorem nextTokenIn_spec {turns : Nat} (lx : Lexer) {before : List Char}
    (hturns : lx.codes.length < turns) (hpos : lx.getPos = positionAfter before) :
    ∃ r next, lx.nextTokenIn turns = some (r, next) ∧ ∀ token, r = .ok token →
      (token.tokenType = .eof ∧ Cuts LexerPiece before lx.codes []) ∨
        ∃ before', Returns before lx.codes token next before' := by
  induction turns generalizing lx before with
  | zero => omega
  -- on the turns: each one either returns or skips a piece
  | succ turns ih =>
    rw [Lexer.nextTokenIn]
    split
    -- the end of the text
    · next hnil =>
      refine ⟨_, _, rfl, fun token htoken => Or.inl ?_⟩
      obtain rfl := Except.ok.inj htoken
      exact ⟨rfl, hnil ▸ .done before⟩
    -- no rule matches, or the longest match is cut off
    · split
      · exact ⟨_, _, rfl, fun token htoken => nomatch htoken⟩
      · next t lexeme hlongest =>
        have hmunch : Munch (lexerFinds lx.codes) t lexeme := munch_of_longest hlongest
        obtain ⟨hfront, hnonempty⟩ := lexerFinds_front hmunch.mem
        obtain ⟨r, hrule, -⟩ := mem_lexerFinds.mp hmunch.mem
        obtain ⟨rest, hcodes⟩ := hfront
        have hnext : (lx.consume lexeme).codes = rest := by
          show lx.codes.drop lexeme.length = rest
          rw [← hcodes, List.drop_left]
        have hlen : rest.length < lx.codes.length := by
          have hpositive : 0 < lexeme.length := List.length_pos_of_ne_nil hnonempty
          rw [← hcodes, List.length_append]
          omega
        have hpiece : LexerPiece t lexeme rest := by
          unfold LexerPiece
          rwa [hcodes]
        have hpos' := consume_positionAfter hpos lexeme
        dsimp only
        -- the four branches of `next_token`: an integer, an error, a piece to skip, a token
        split_ifs with hint herr hskip
        · exact ⟨_, _, rfl, fun token htoken => nomatch htoken⟩
        · exact ⟨_, _, rfl, fun token htoken => nomatch htoken⟩
        · obtain ⟨r', next, hrun, hres⟩ := ih (lx.consume lexeme) (by rw [hnext]; omega) hpos'
          refine ⟨r', next, hrun, fun token htoken => ?_⟩
          rcases hres token htoken with ⟨heof, hcuts⟩ | ⟨before', hreturns⟩
          · rw [hnext] at hcuts
            exact Or.inl ⟨heof, hcodes ▸ .skip hpiece hskip hcuts⟩
          · have hshorter : next.codes.length < rest.length := hnext ▸ hreturns.shorter
            refine Or.inr ⟨before', hreturns.notEof, hreturns.pos, by omega, fun tokens h => ?_⟩
            have hcuts := hreturns.cuts tokens h
            rw [hnext] at hcuts
            exact hcodes ▸ .skip hpiece hskip hcuts
        · refine ⟨_, _, rfl, fun token htoken => Or.inr ⟨before ++ lexeme, ?_⟩⟩
          obtain rfl := Except.ok.inj htoken
          refine ⟨allTokens_eof _ hrule, hpos', hnext ▸ hlen, fun tokens h => ?_⟩
          rw [hnext] at h
          rw [← hcodes, hpos]
          exact .token hpiece (by simpa using hskip) h

theorem collect_spec {turns : Nat} (lx : Lexer) {before : List Char}
    (hturns : lx.codes.length < turns) (hpos : lx.getPos = positionAfter before) :
    ∃ r, lx.collect turns = some r ∧
      ∀ tokens, r = .ok tokens → Cuts LexerPiece before lx.codes tokens := by
  induction turns generalizing lx before with
  | zero => omega
  | succ turns ih =>
    obtain ⟨r, next, hrun, hres⟩ := nextTokenIn_spec lx (Nat.lt_succ_self lx.codes.length) hpos
    rw [Lexer.collect, Lexer.nextToken, hrun]
    cases r with
    | error e => exact ⟨_, rfl, fun tokens htokens => nomatch htokens⟩
    | ok token =>
      dsimp only
      rcases hres token rfl with ⟨heof, hcuts⟩ | ⟨before', hreturns⟩
      · rw [if_pos heof]
        refine ⟨_, rfl, fun tokens htokens => ?_⟩
        obtain rfl := Except.ok.inj htokens
        exact hcuts
      · rw [if_neg hreturns.notEof]
        have hshorter := hreturns.shorter
        obtain ⟨r', hcollect, hrest⟩ := ih next (by omega) hreturns.pos
        rw [hcollect]
        cases r' with
        | error e => exact ⟨_, rfl, fun tokens htokens => nomatch htokens⟩
        | ok tokens' =>
          refine ⟨_, rfl, fun tokens htokens => ?_⟩
          obtain rfl := Except.ok.inj htokens
          exact hreturns.cuts _ (hrest tokens' rfl)

/-! ## Where that is right -/

/-- Before a line comment that its rule does not match the lexer takes a token, which no cut as
claimed has there. -/
theorem not_tokenizes_openComment {t : TokenType} {before lexeme rest : List Char}
    {tokens : List Token} (h : OpenComment (lexeme ++ rest))
    (hcuts : Tokenizes before (lexeme ++ rest) (⟨t, lexeme, positionAfter before⟩ :: tokens)) :
    False := by
  rcases hcuts.inv with ⟨hnil, -⟩ | ⟨t', l', rest', htext, hpiece, hcase⟩
  · rw [hnil] at h
    exact absurd h.1 (by decide)
  · obtain ⟨rfl, -⟩ := munch_claim_openComment (htext ▸ h) hpiece.munch
    rcases hcase with ⟨-, hrest⟩ | ⟨tokens', hskip, -, -⟩
    · obtain ⟨l, hl⟩ := hrest.pos _ List.mem_cons_self
      rw [List.append_assoc] at hl
      have hne : l' ++ l ≠ [] := fun h => hpiece.nonempty (List.append_eq_nil_iff.mp h).1
      exact positionAfter_append_ne before hne hl.symm
    · cases hskip

theorem LexerPiece.unique {t t' : TokenType} {l l' rest rest' : List Char} (h : LexerPiece t l rest)
    (h' : LexerPiece t' l' rest') (heq : l ++ rest = l' ++ rest') : t = t' ∧ l = l' ∧ rest = rest' := by
  unfold LexerPiece at h h'
  rw [← heq] at h'
  obtain ⟨rfl, rfl⟩ := h.unique h'
  exact ⟨rfl, rfl, List.append_cancel_left heq⟩

theorem LexerPiece.stuck_iff {t : TokenType} {l rest : List Char} (h : LexerPiece t l rest)
    (hopen : ¬OpenComment (l ++ rest)) : Stuck (l ++ rest) ↔ Stuck rest := by
  refine ⟨fun hstuck => ?_, .later h⟩
  generalize htext : l ++ rest = text at hstuck hopen
  cases hstuck with
  | here hhere => exact absurd hhere hopen
  | later hpiece hrest =>
    obtain ⟨-, -, rfl⟩ := h.unique hpiece htext
    exact hrest

/-- Elsewhere the lexer takes the claimed piece. -/
theorem LexerPiece.piece {t : TokenType} {l rest : List Char} (h : LexerPiece t l rest)
    (hopen : ¬OpenComment (l ++ rest)) : Piece t l rest := by
  rw [piece_iff, claimFinds_eq hopen]
  exact h

theorem cuts_iff {before text : List Char} {tokens : List Token}
    (h : Cuts LexerPiece before text tokens) : Tokenizes before text tokens ↔ ¬Stuck text := by
  -- on the cut that the lexer made
  induction h with
  | done before =>
    refine iff_of_true (.done before) fun hstuck => ?_
    generalize htext : ([] : List Char) = text at hstuck
    cases hstuck with
    | here h => exact absurd h.1 (htext ▸ by decide)
    | later hpiece h =>
      exact (lexerFinds_front hpiece.mem).2 (List.append_eq_nil_iff.mp htext.symm).1
  -- a skipped piece is no open comment
  | @skip before lexeme rest t tokens hpiece hskip h ih =>
    have hopen : ¬OpenComment (lexeme ++ rest) := fun hopen => by
      rw [munch_lexer_openComment hopen hpiece] at hskip
      cases hskip
    rw [hpiece.stuck_iff hopen, ← ih]
    refine ⟨fun hcuts => ?_, .skip (hpiece.piece hopen) hskip⟩
    rcases hcuts.inv with ⟨hnil, -⟩ | ⟨t', l', rest', htext, hpiece', hcase⟩
    · exact absurd (List.append_eq_nil_iff.mp hnil).1 (lexerFinds_front hpiece.mem).2
    · obtain ⟨rfl, rfl⟩ := (hpiece.piece hopen).munch.unique (htext ▸ hpiece'.munch)
      obtain rfl := List.append_cancel_left htext
      rcases hcase with ⟨-, hrest⟩ | ⟨tokens', hskip', -, -⟩
      · exact hrest
      · rw [hskip] at hskip'
        cases hskip'
  -- a token that opens a comment is where the lexer is stuck
  | @token before lexeme rest t tokens hpiece hskip h ih =>
    by_cases hopen : OpenComment (lexeme ++ rest)
    · exact iff_of_false (not_tokenizes_openComment hopen) fun hstuck => hstuck (.here hopen)
    -- any other token leaves the rest of the text
    · rw [hpiece.stuck_iff hopen, ← ih]
      refine ⟨fun hcuts => ?_, .token (hpiece.piece hopen) hskip⟩
      rcases hcuts.inv with ⟨hnil, -⟩ | ⟨t', l', rest', htext, hpiece', hcase⟩
      · exact absurd (List.append_eq_nil_iff.mp hnil).1 (lexerFinds_front hpiece.mem).2
      · obtain ⟨rfl, rfl⟩ := (hpiece.piece hopen).munch.unique (htext ▸ hpiece'.munch)
        obtain rfl := List.append_cancel_left htext
        rcases hcase with ⟨hskip', -⟩ | ⟨tokens', -, htokens, hrest⟩
        · rw [hskip] at hskip'
          cases hskip'
        · obtain ⟨-, rfl⟩ := List.cons.inj htokens
          exact hrest

/-- The lexer comes to an end on every text, and when it succeeds, its tokens are the claimed ones
exactly where it comes to no line comment that its rule does not match. -/
theorem tokenBuffer_iff (text : List Char) : ∃ r, tokenBuffer text = some r ∧
    ∀ tokens, r = .ok tokens → (Tokenizes [] text tokens ↔ ¬Stuck text) := by
  have hstart : (⟨text, 0, 0⟩ : Lexer).getPos = positionAfter [] := rfl
  obtain ⟨r, hrun, hcuts⟩ := collect_spec ⟨text, 0, 0⟩ (Nat.lt_succ_self text.length) hstart
  exact ⟨r, hrun, fun tokens htokens => cuts_iff (hcuts tokens htokens)⟩

/-- An assignment, a comment and a name on the next line. -/
def assignText : List Char :=
  ['a', ' ', '=', ' ', '1', ';', '/', '/', 'c', '\n', ' ', 'b']

def assignTokens : List Token :=
  [⟨.id, ['a'], ⟨0, 0⟩⟩, ⟨.eq, ['='], ⟨0, 2⟩⟩, ⟨.integer, ['1'], ⟨0, 4⟩⟩, ⟨.semi, [';'], ⟨0, 5⟩⟩,
    ⟨.id, ['b'], ⟨1, 1⟩⟩]

theorem tokenBuffer_iff_assign : tokenBuffer assignText = some (.ok assignTokens) ∧
    (Tokenizes [] assignText assignTokens ↔ ¬Stuck assignText) := by
  obtain ⟨r, hrun, hall⟩ := tokenBuffer_iff assignText
  have hrun' : tokenBuffer assignText = some (.ok assignTokens) := rfl
  rw [hrun'] at hrun
  exact ⟨hrun', hall _ (Option.some.inj hrun).symm⟩

/-- A line comment at the end of the text is two slashes. -/
theorem tokenBuffer_openComment :
    tokenBuffer ['/', '/'] = some (.ok [⟨.slash, ['/'], ⟨0, 0⟩⟩, ⟨.slash, ['/'], ⟨0, 1⟩⟩]) ∧
      ¬Tokenizes [] ['/', '/'] [⟨.slash, ['/'], ⟨0, 0⟩⟩, ⟨.slash, ['/'], ⟨0, 1⟩⟩] := by
  have hopen : OpenComment (['/'] ++ ['/']) := ⟨by decide, rfl⟩
  exact ⟨rfl, not_tokenizes_openComment hopen⟩

end Lex
