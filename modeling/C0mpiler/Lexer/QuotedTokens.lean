import C0mpiler.Lexer.StringLiteral
import Mathlib

/-!
# The tokens of quoted literals

Each item is one turn of the repetition in the rule for strings, except a parenthesis: the
parentheses of the pasted rules stand in the bracket class of what a literal may not hold.
-/

namespace Lex

open Regex

/-! ## Suffixes -/

/-- The identifier at the front of a text, or nothing. -/
def identPrefix : List Char → List Char
  | [] => []
  | c :: rest => if identStart.mem c then c :: rest.takeWhile identContinue.mem else []

theorem identPrefix_front (text : List Char) : identPrefix text <+: text := by
  cases text with
  | nil => exact List.nil_prefix
  | cons c rest =>
    rw [identPrefix]
    split
    · exact List.cons_prefix_cons.mpr ⟨rfl, List.takeWhile_prefix _⟩
    · exact List.nil_prefix

theorem identPrefix_drop (text : List Char) :
    identPrefix text ++ text.drop (identPrefix text).length = text :=
  (List.prefix_iff_eq_append.mp (identPrefix_front text))

theorem quote_notMem_identPrefix (text : List Char) : '"' ∉ identPrefix text := by
  cases text with
  | nil => exact List.not_mem_nil
  | cons c rest =>
    rw [identPrefix]
    split
    · next hc =>
      rw [List.mem_cons, not_or]
      refine ⟨?_, fun h => ?_⟩
      · rintro rfl
        cases hc
      · cases List.mem_takeWhile_imp h
    · exact List.not_mem_nil

theorem prefers_suffix (text g : List Char) :
    (opt suffix).Prefers ⟨text, g⟩ ⟨text.drop (identPrefix text).length, g⟩ := by
  cases text with
  | nil => exact .opt_none (run_seq_eq_nil rfl)
  | cons c rest =>
    rw [identPrefix]
    split
    · next hc =>
      have hdrop : (c :: rest).drop (c :: rest.takeWhile identContinue.mem).length =
          rest.dropWhile identContinue.mem := by
        have hleft : (rest.takeWhile identContinue.mem ++ rest.dropWhile identContinue.mem).drop
            (rest.takeWhile identContinue.mem).length = rest.dropWhile identContinue.mem :=
          List.drop_left
        rwa [List.takeWhile_append_dropWhile] at hleft
      rw [hdrop]
      exact .opt (.seq (.cls hc rest g) (prefers_star_cls identContinue rest g))
    · next hc =>
      refine .opt_none (run_seq_eq_nil (run_cls_eq_nil fun ch hch => ?_))
      cases hch
      exact Bool.eq_false_of_not_eq_true hc

/-! ## One item -/

namespace StrItem

/-- Whether an item is a parenthesis as it is. -/
def isParen : StrItem → Bool
  | raw c _ => c == '(' || c == ')'
  | _ => false

theorem run_backslash_eq_nil {c : Char} (hc : c ≠ '\\') (t g : List Char) :
    run (alt quoteEscape (alt asciiEscape stringContinue)) ⟨c :: t, g⟩ = [] := by
  refine run_eq_nil_of_not_starts rfl ?_ rfl
  have hmem : (CharClass.of ['\\']).mem c = false :=
    Bool.eq_false_iff.mpr fun h => hc (List.mem_singleton.mp (CharClass.mem_of.mp h))
  simp [quoteEscape, asciiEscape, stringContinue, alts, keyword, Lex.char, lit, starts, nullable, hmem]

theorem hexDigit_of_hexValue {c : Char} (h : (hexValue c).isSome) :
    CharClass.mem ⟨false, [('0', '9'), ('a', 'f'), ('A', 'F')]⟩ c = true := by
  unfold hexValue at h
  simp only [CharClass.mem, List.any_cons, List.any_nil, bne_iff_ne, ne_eq, Bool.not_eq_false,
    Bool.or_eq_true, Bool.and_eq_true, decide_eq_true_eq, Bool.false_eq_true, or_false]
  split_ifs at h with h₁ h₂ h₃
  · exact Or.inl h₁
  · exact Or.inr (Or.inl h₂)
  · exact Or.inr (Or.inr h₃)
  · cases h

theorem run_hexDigits {a b : Char} (ha : '0' ≤ a ∧ a ≤ '7') (hb : (hexValue b).isSome)
    (t g : List Char) : run (seq octDigit hexDigit) ⟨a :: b :: t, g⟩ = [⟨t, g⟩] := by
  have hoct : run octDigit ⟨a :: b :: t, g⟩ = [⟨b :: t, g⟩] := by
    simp [octDigit, run_cls_cons, CharClass.mem, ha]
  have hhex : run hexDigit ⟨b :: t, g⟩ = [⟨t, g⟩] := by
    have hmem := hexDigit_of_hexValue hb
    simp [hexDigit, run_cls_cons, hmem]
  rw [run_seq, hoct, List.flatMap_cons, hhex]
  rfl

theorem run_stringItem (i : StrItem) (t g : List Char) :
    run stringItem ⟨i.spell ++ t, g⟩ = if i.isParen then [] else [⟨t, g⟩] := by
  cases i with
  | raw c h =>
    have hrun : run stringItem ⟨c :: t, g⟩ = run asciiForString ⟨c :: t, g⟩ := by
      show run asciiForString _ ++ run (alt quoteEscape (alt asciiEscape stringContinue)) _ = _
      rw [run_backslash_eq_nil h.2.1, List.append_nil]
    have hmem : (CharClass.notOf (['"', '\\'] ++ classText crChar)).mem c = !(c == '(' || c == ')') := by
      rw [Bool.eq_iff_iff, CharClass.mem_notOf]
      simp [classText, crChar, h]
    show run stringItem ⟨c :: t, g⟩ = _
    rw [hrun, asciiForString, run_cls_cons]
    simp only [hmem, isParen]
    by_cases hparen : (c == '(' || c == ')') = true
    · simp only [hparen, Bool.not_true, Bool.false_eq_true, if_false, if_true]
    · simp only [hparen, Bool.not_false, Bool.false_eq_true, if_false, if_true]
  | escape c d h =>
    unfold simpleEscape at h
    split at h
    all_goals first | rfl | cases h
  | hex a b ha hb =>
    show ((run (seq octDigit hexDigit) ⟨a :: b :: t, g⟩ ++ []) ++ []) ++ [] = _
    rw [run_hexDigits ha hb]
    rfl
  | lineContinue => rfl

/-! ## Strings -/

theorem run_stringItem_quote (t g : List Char) : run stringItem ⟨'"' :: t, g⟩ = [] :=
  run_eq_nil_of_not_starts (by decide) (by decide) rfl

theorem spell_ne_nil (i : StrItem) : i.spell ≠ [] := by
  cases i <;> exact List.cons_ne_nil _ _

theorem prefers_items {items : List StrItem} (h : ∀ i ∈ items, i.isParen = false)
    (t g : List Char) :
    (star stringItem true).Prefers ⟨spellAll items ++ '"' :: t, g⟩ ⟨'"' :: t, g⟩ := by
  induction items with
  | nil => exact .star_stop (run_stringItem_quote t g)
  | cons i items ih =>
    have hrun : stringItem.Prefers ⟨i.spell ++ (spellAll items ++ '"' :: t), g⟩
        ⟨spellAll items ++ '"' :: t, g⟩ := by
      rw [Prefers, run_stringItem, h i List.mem_cons_self]
      rfl
    have htext : spellAll (i :: items) ++ '"' :: t = i.spell ++ (spellAll items ++ '"' :: t) :=
      List.append_assoc _ _ _
    rw [htext]
    refine .star_step hrun ?_ (ih fun j hj => h j (List.mem_cons_of_mem i hj))
    have hlen := List.length_pos_of_ne_nil i.spell_ne_nil
    simp only [List.length_append]
    omega

theorem quoted_drop (items : List StrItem) (after : List Char) :
    quoted items (identPrefix after) ++ after.drop (identPrefix after).length =
      quoted items after := by
  have hsplit : quoted items (identPrefix after) ++ after.drop (identPrefix after).length =
      quoted items (identPrefix after ++ after.drop (identPrefix after).length) := by
    simp [quoted]
  rw [hsplit, identPrefix_drop]

theorem find_string {items : List StrItem} (h : ∀ i ∈ items, i.isParen = false)
    (after : List Char) :
    stringLiteral.find (quoted items after) = some (quoted items (identPrefix after)) := by
  have hprefers : stringLiteral.Prefers ⟨quoted items after, []⟩
      ⟨after.drop (identPrefix after).length, []⟩ :=
    .seq (.cls rfl _ _) (.seq (prefers_items h after []) (.seq (.cls rfl _ _)
      (prefers_suffix after [])))
  rw [← quoted_drop items after] at hprefers
  conv_lhs => rw [← quoted_drop items after]
  exact hprefers.find

/-- The repetition does not come past a parenthesis. -/
theorem find_string_paren {items : List StrItem} (h : ∃ i ∈ items, i.isParen = true)
    (after : List Char) : stringLiteral.find (quoted items after) = none := by
  rw [find_eq_none_iff]
  -- no end of the content leaves quotes behind
  refine List.eq_nil_iff_forall_not_mem.mpr fun s hs => ?_
  obtain ⟨s₁, hs₁, hs⟩ := List.mem_flatMap.mp hs
  obtain rfl : s₁ = ⟨spellAll items ++ '"' :: after, []⟩ := List.mem_singleton.mp hs₁
  obtain ⟨s₂, hs₂, hs⟩ := List.mem_flatMap.mp hs
  -- the content stops before the parenthesis
  obtain ⟨items', hrest, hparen⟩ := star_induction
    (P := fun s => ∃ items', s.rest = spellAll items' ++ '"' :: after ∧ ∃ i ∈ items', i.isParen = true)
    (fun s₁ s₂ hs₁ hs₂ => by
      obtain ⟨items', hrest, j, hj, hparen⟩ := hs₁
      cases items' with
      | nil => cases hj
      | cons i items' =>
        obtain ⟨rest, g⟩ := s₁
        -- the text that is left starts with an item
        have htext : rest = i.spell ++ (spellAll items' ++ '"' :: after) :=
          hrest.trans (List.append_assoc _ _ _)
        subst htext
        rw [run_stringItem] at hs₂
        split at hs₂
        · cases hs₂
        · next hi =>
          obtain rfl := List.mem_singleton.mp hs₂
          rcases List.mem_cons.mp hj with rfl | hj
          · exact absurd hparen hi
          · exact ⟨items', rfl, j, hj, hparen⟩)
    ⟨items, rfl, h⟩ hs₂
  -- the quotes at the end would have to stand where an item does
  cases items' with
  | nil => obtain ⟨i, hi, -⟩ := hparen; cases hi
  | cons i items' =>
    obtain ⟨s₃, hs₃, -⟩ := List.mem_flatMap.mp hs
    have hnil : run (Lex.char '"') s₂ = [] := by
      refine run_cls_eq_nil fun ch hch => ?_
      rw [hrest] at hch
      cases i with
      | raw c hc =>
        cases hch
        exact Bool.eq_false_iff.mpr fun h => hc.1 (List.mem_singleton.mp (CharClass.mem_of.mp h))
      | _ =>
        cases hch
        rfl
    rw [hnil] at hs₃
    cases hs₃

/-! ## Characters -/

/-- A literal in single quotes with its suffix. -/
def charQuoted (i : StrItem) (suffix : List Char) : List Char :=
  '\'' :: i.spell ++ '\'' :: suffix

/-- The items that the rule for characters takes. -/
def isCharItem : StrItem → Bool
  | raw c _ => !(c == '\'' || c == '\n' || c == '\t' || c == '(' || c == ')')
  | lineContinue => false
  | _ => true

def charItem : Regex := alts [asciiForChar, quoteEscape, asciiEscape]

theorem run_charItem (i : StrItem) (t g : List Char) :
    run charItem ⟨i.spell ++ t, g⟩ = if i.isCharItem then [⟨t, g⟩] else [] := by
  cases i with
  | raw c h =>
    have hnil : run (alt quoteEscape asciiEscape) ⟨c :: t, g⟩ = [] := by
      refine run_eq_nil_of_not_starts (by decide) ?_ rfl
      have hmem : (CharClass.of ['\\']).mem c = false :=
        Bool.eq_false_iff.mpr fun hc => h.2.1 (List.mem_singleton.mp (CharClass.mem_of.mp hc))
      simp [quoteEscape, asciiEscape, alts, keyword, lit, starts, nullable, hmem]
    have hrun : run charItem ⟨c :: t, g⟩ = run asciiForChar ⟨c :: t, g⟩ := by
      show run asciiForChar _ ++ run (alt quoteEscape asciiEscape) _ = _
      rw [hnil, List.append_nil]
    have hmem : (CharClass.notOf (['\'', '\\'] ++ classText lfChar ++ classText crChar ++
        classText tabChar)).mem c = (raw c h).isCharItem := by
      rw [Bool.eq_iff_iff, CharClass.mem_notOf]
      simp [classText, crChar, lfChar, tabChar, isCharItem, h]
      tauto
    show run charItem ⟨c :: t, g⟩ = _
    rw [hrun, asciiForChar, run_cls_cons]
    simp only [hmem]
  | escape c d h =>
    unfold simpleEscape at h
    split at h
    all_goals first | rfl | cases h
  | hex a b ha hb =>
    show ((run (seq octDigit hexDigit) ⟨a :: b :: t, g⟩ ++ []) ++ []) = _
    rw [run_hexDigits ha hb]
    rfl
  | lineContinue => rfl

theorem charQuoted_drop (i : StrItem) (after : List Char) :
    i.charQuoted (identPrefix after) ++ after.drop (identPrefix after).length =
      i.charQuoted after := by
  have hsplit : i.charQuoted (identPrefix after) ++ after.drop (identPrefix after).length =
      i.charQuoted (identPrefix after ++ after.drop (identPrefix after).length) := by
    simp [charQuoted]
  rw [hsplit, identPrefix_drop]

theorem find_char {i : StrItem} (h : i.isCharItem = true) (after : List Char) :
    charLiteral.find (i.charQuoted after) = some (i.charQuoted (identPrefix after)) := by
  have hitem : charItem.Prefers ⟨i.spell ++ '\'' :: after, []⟩ ⟨'\'' :: after, []⟩ := by
    rw [Prefers, run_charItem, h]
    rfl
  have hprefers : charLiteral.Prefers ⟨i.charQuoted after, []⟩
      ⟨after.drop (identPrefix after).length, []⟩ :=
    .seq (.cls rfl _ _) (.seq hitem (.seq (.cls rfl _ _) (prefers_suffix after [])))
  rw [← charQuoted_drop i after] at hprefers
  conv_lhs => rw [← charQuoted_drop i after]
  exact hprefers.find

theorem find_char_none {i : StrItem} (h : ¬i.isCharItem = true) (after : List Char) :
    charLiteral.find (i.charQuoted after) = none := by
  rw [find_eq_none_iff]
  have hitem : run charItem ⟨i.spell ++ '\'' :: after, []⟩ = [] := by rw [run_charItem, if_neg h]
  show run (seq charItem (seq (Lex.char '\'') (opt suffix))) ⟨i.spell ++ '\'' :: after, []⟩ ++ [] = []
  rw [run_seq_eq_nil hitem]
  rfl

end StrItem

/-! ## One token -/

/-- The lexer takes the lexeme before `rest` as one token, wherever it stands. -/
def TokenAt (t : TokenType) (lexeme rest : List Char) : Prop :=
  ∀ line col, (⟨lexeme ++ rest, line, col⟩ : Lexer).nextToken =
    some (.ok ⟨t, lexeme, ⟨line, col⟩⟩, Lexer.consume ⟨lexeme ++ rest, line, col⟩ lexeme)

/-- Only the rules that may start with the first character find something. -/
theorem ruleMatches_starts (ch : Char) (u : List Char) :
    ruleMatches (ch :: u) = (allTokens.filter fun rule => rule.2.starts ch).filterMap fun rule =>
      (rule.2.find (ch :: u)).map fun lexeme => (rule.1, lexeme) := by
  rw [List.filterMap_filter]
  refine List.filterMap_congr fun rule hrule => ?_
  split
  · rfl
  · next hstarts =>
    have hrun : run rule.2 ⟨ch :: u, []⟩ = [] := run_eq_nil_of_not_starts
      (allTokens_not_nullable rule hrule) (Bool.eq_false_of_not_eq_true hstarts) rfl
    rw [find_eq_none_iff.mpr hrun]
    rfl

variable {ch : Char} {t : TokenType} {r : Regex}

theorem tokenAt_iff (hrules : (allTokens.filter fun rule => rule.2.starts ch) = [(t, r)])
    (hint : t ≠ .integer) (herr : t.shouldErr = false) (hskip : t.shouldSkip = false)
    (u rest : List Char) :
    TokenAt t (ch :: u) rest ↔ r.find (ch :: u ++ rest) = some (ch :: u) := by
  -- only the one rule can match
  have hmatches : ruleMatches (ch :: u ++ rest) =
      ((r.find (ch :: u ++ rest)).map fun lexeme => (t, lexeme)).toList := by
    rw [List.cons_append, ruleMatches_starts, hrules, List.filterMap_cons]
    dsimp only
    cases r.find (ch :: (u ++ rest)) <;> rfl
  -- so the lexer returns the token of that rule, or its error
  have hnext : ∀ line col, (⟨ch :: u ++ rest, line, col⟩ : Lexer).nextToken =
      match r.find (ch :: u ++ rest) with
      | none => some (.error ⟨"Can't match any tokens!", ⟨line, col⟩⟩, ⟨ch :: u ++ rest, line, col⟩)
      | some lexeme => some (.ok ⟨t, lexeme, ⟨line, col⟩⟩,
          Lexer.consume ⟨ch :: u ++ rest, line, col⟩ lexeme) := by
    intro line col
    rw [Lexer.nextToken, Lexer.nextTokenIn, if_neg (by exact List.cons_ne_nil _ _)]
    dsimp only
    rw [hmatches]
    cases r.find (ch :: u ++ rest) with
    | none => rfl
    | some lexeme =>
      show (if t = .integer ∧ _ then _ else if t.shouldErr then _ else if t.shouldSkip then _ else _) = _
      rw [if_neg fun h => hint h.1, herr, hskip]
      rfl
  constructor
  -- the token is what the rule finds
  · intro htoken
    have h := (hnext 0 0).symm.trans (htoken 0 0)
    cases hfind : r.find (ch :: u ++ rest) with
    | none =>
      rw [hfind] at h
      cases h
    | some lexeme =>
      rw [hfind] at h
      injection h with h
      injection (Prod.mk.inj h).1 with h
      injection h with _ h
      rw [h]
  -- and the rule finds what the token is
  · intro hfind line col
    rw [hnext, hfind]

theorem string_rules :
    (allTokens.filter fun rule => rule.2.starts '"') = [(.string, stringLiteral)] := rfl

theorem char_rules :
    (allTokens.filter fun rule => rule.2.starts '\'') = [(.character, charLiteral)] := rfl

namespace StrItem

theorem tokenAt_string_iff (items : List StrItem) (after : List Char) :
    TokenAt .string (quoted items (identPrefix after)) (after.drop (identPrefix after).length) ↔
      ∀ i ∈ items, i.isParen = false := by
  have hiff := tokenAt_iff string_rules (by decide) rfl rfl
    (spellAll items ++ '"' :: identPrefix after) (after.drop (identPrefix after).length)
  have htext : '"' :: (spellAll items ++ '"' :: identPrefix after) ++
      after.drop (identPrefix after).length = quoted items after := quoted_drop items after
  rw [htext] at hiff
  refine hiff.trans ⟨fun hfind => ?_, fun h => find_string h after⟩
  by_contra hparen
  simp only [not_forall, Bool.not_eq_false] at hparen
  obtain ⟨i, hi, hparen⟩ := hparen
  rw [find_string_paren ⟨i, hi, hparen⟩] at hfind
  cases hfind

theorem tokenAt_char_iff (i : StrItem) (after : List Char) :
    TokenAt .character (i.charQuoted (identPrefix after))
      (after.drop (identPrefix after).length) ↔ i.isCharItem = true := by
  have hiff := tokenAt_iff char_rules (by decide) rfl rfl
    (i.spell ++ '\'' :: identPrefix after) (after.drop (identPrefix after).length)
  have htext : '\'' :: (i.spell ++ '\'' :: identPrefix after) ++
      after.drop (identPrefix after).length = i.charQuoted after := charQuoted_drop i after
  rw [htext] at hiff
  refine hiff.trans ⟨fun hfind => ?_, fun h => find_char h after⟩
  by_contra hitem
  rw [find_char_none hitem] at hfind
  cases hfind

/-! ## Round trips -/

/-- The literal with the suffix behind it is one token, and what is decoded is what it denotes. -/
def RoundTrips (items : List StrItem) (after : List Char) : Prop :=
  TokenAt .string (quoted items (identPrefix after)) (after.drop (identPrefix after).length) ∧
    parseQuotedContent (quoted items (identPrefix after)) '"' =
      some (denote false items, suffixOf (identPrefix after))

/-- A string comes back where it holds no parenthesis as it is, no escaped double quote and no
backslash at the end of a line; the rule for characters leaves out a little more. -/
theorem roundTrips_iff (items : List StrItem) (i : StrItem) (after : List Char) :
    (RoundTrips items after ↔
      (items.all fun i => !i.isParen && !i.isQuote && !i.isContinue) = true) ∧
    (TokenAt .character (i.charQuoted (identPrefix after))
      (after.drop (identPrefix after).length) ↔ i.isCharItem = true) := by
  refine ⟨?_, tokenAt_char_iff i after⟩
  rw [RoundTrips, tokenAt_string_iff, parse_quoted_iff (quote_notMem_identPrefix after),
    List.all_eq_true, ← forall₂_and]
  refine forall₂_congr fun i hi => ?_
  simp [isPlain, Bool.and_assoc]

/-- `"a(b"` is no token, and of `"a\"b"` only what stands before the escaped quote is decoded. -/
theorem not_roundTrips_paren :
    ¬RoundTrips [.raw 'a' (by decide), .raw '(' (by decide), .raw 'b' (by decide)] [] ∧
      (⟨['"', 'a', '(', 'b', '"'], 0, 0⟩ : Lexer).nextToken =
        some (.error ⟨"Can't match any tokens!", ⟨0, 0⟩⟩, ⟨['"', 'a', '(', 'b', '"'], 0, 0⟩) ∧
      parseQuotedContent ['"', 'a', '\\', '"', 'b', '"'] '"' = some (['a', '\\'], some ['b']) := by
  refine ⟨fun h => ?_, rfl, rfl⟩
  have hplain := (tokenAt_string_iff _ _).mp h.1 (.raw '(' (by decide)) (by simp)
  cases hplain

end StrItem

end Lex
