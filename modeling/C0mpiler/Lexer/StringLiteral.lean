import C0mpiler.Lexer.NextTokenSound
import Mathlib

/-!
# String and character literals

A literal is written as items: characters as they are and escapes. `unescape_string` and
`parse_quoted_content` (`utils/string.rs`) are to give back what the items denote.
-/

namespace Lex

open Regex

/-! ## `utils/string.rs` -/

/-- The character of an escape of one letter. -/
def simpleEscape : Char → Option Char
  | 'n' => some '\n'
  | 'r' => some '\r'
  | 't' => some '\t'
  | '\\' => some '\\'
  | '0' => some '\u0000'
  | '\'' => some '\''
  | '"' => some '"'
  | _ => none

def hexValue (c : Char) : Option Nat :=
  if '0' ≤ c ∧ c ≤ '9' then some (c.toNat - '0'.toNat)
  else if 'a' ≤ c ∧ c ≤ 'f' then some (c.toNat - 'a'.toNat + 10)
  else if 'A' ≤ c ∧ c ≤ 'F' then some (c.toNat - 'A'.toNat + 10)
  else none

/-- `u8::from_str_radix` of two characters, base 16; a plus sign may stand first. -/
def u8FromHex (a b : Char) : Option Nat :=
  match hexValue a, hexValue b with
  | some x, some y => some (16 * x + y)
  | none, some y => if a = '+' then some y else none
  | _, none => none

/-- What `\x` and the characters behind it become. -/
def unescapeHex (hexChars : List Char) : List Char :=
  match hexChars with
  | [a, b] =>
    match u8FromHex a b with
    | some value => if byteLen hexChars = 2 then [Char.ofNat value] else '\\' :: 'x' :: hexChars
    | none => '\\' :: 'x' :: hexChars
  | _ => '\\' :: 'x' :: hexChars

def unescapeString : List Char → List Char
  | [] => []
  | ['\\'] => ['\\']
  | '\\' :: 'x' :: a :: b :: rest => unescapeHex [a, b] ++ unescapeString rest
  | '\\' :: 'x' :: rest => unescapeHex rest
  | '\\' :: c :: rest =>
    match simpleEscape c with
    | some d => d :: unescapeString rest
    | none => '\\' :: c :: unescapeString rest
  | c :: rest => c :: unescapeString rest

def parseQuotedContent (lexeme : List Char) (quoteChar : Char) :
    Option (List Char × Option (List Char)) :=
  match lexeme.splitOn quoteChar with
  | _ :: content :: suffix :: _ =>
    some (unescapeString content, if suffix = [] then none else some suffix)
  | _ => none

/-! ## Literals as they are written -/

inductive StrItem where
  | raw (c : Char) (h : c ≠ '"' ∧ c ≠ '\\' ∧ c ≠ '\r')
  | escape (c d : Char) (h : simpleEscape c = some d)
  | hex (a b : Char) (ha : '0' ≤ a ∧ a ≤ '7') (hb : (hexValue b).isSome)
  | lineContinue

namespace StrItem

def spell : StrItem → List Char
  | raw c _ => [c]
  | escape c _ _ => ['\\', c]
  | hex a b _ _ => ['\\', 'x', a, b]
  | lineContinue => ['\\', '\n']

/-- The character of an item that stands for one. -/
def char? : StrItem → Option Char
  | raw c _ => some c
  | escape _ d _ => some d
  | hex a b _ _ => (u8FromHex a b).map Char.ofNat
  | lineContinue => none

def isRawBlank : StrItem → Bool
  | raw c _ => c == ' ' || c == '\t' || c == '\n'
  | _ => false

def spellAll (items : List StrItem) : List Char := items.flatMap spell

/-- What a literal denotes. A backslash at the end of a line leaves out what is blank behind it. -/
def denote : Bool → List StrItem → List Char
  | _, [] => []
  | skipping, i :: items =>
    if skipping && i.isRawBlank then denote true items
    else
      match i.char? with
      | some c => c :: denote false items
      | none => denote true items

/-- Decoding keeps a backslash at the end of a line. -/
def decode (i : StrItem) : List Char := (i.char?.map fun c => [c]).getD ['\\', '\n']

end StrItem

/-! ## Decoding -/

theorem utf8Size_of_le {c d : Char} (h : c ≤ d) (hd : d.toNat < 128) : c.utf8Size = 1 := by
  have hle : c.toNat ≤ d.toNat := h
  exact Char.utf8Size_eq_one_iff.mpr (show c.val ≤ 127 from UInt32.le_iff_toNat_le.mpr (by
    show c.toNat ≤ 127
    omega))

theorem utf8Size_of_hexValue {c : Char} (h : (hexValue c).isSome) : c.utf8Size = 1 := by
  unfold hexValue at h
  split_ifs at h with h₁ h₂ h₃
  · exact utf8Size_of_le h₁.2 (by decide)
  · exact utf8Size_of_le h₂.2 (by decide)
  · exact utf8Size_of_le h₃.2 (by decide)
  · cases h

theorem hexValue_of_octal {a : Char} (h : '0' ≤ a ∧ a ≤ '7') :
    hexValue a = some (a.toNat - '0'.toNat) :=
  if_pos ⟨h.1, le_trans h.2 (by decide)⟩

theorem u8FromHex_eq {a b : Char} (ha : '0' ≤ a ∧ a ≤ '7') (hb : (hexValue b).isSome) :
    ∃ value, u8FromHex a b = some value := by
  obtain ⟨y, hy⟩ := Option.isSome_iff_exists.mp hb
  exact ⟨_, by rw [u8FromHex, hexValue_of_octal ha, hy]⟩

namespace StrItem

theorem unescape_spell (i : StrItem) (rest : List Char) :
    unescapeString (i.spell ++ rest) = i.decode ++ unescapeString rest := by
  cases i with
  | raw c h =>
    show unescapeString (c :: rest) = c :: unescapeString rest
    simp [unescapeString, h.2.1]
  | escape c d h =>
    have hx : c ≠ 'x' := by
      rintro rfl
      cases h
    show unescapeString ('\\' :: c :: rest) = d :: unescapeString rest
    simp [unescapeString, hx, h]
  | hex a b ha hb =>
    obtain ⟨value, hvalue⟩ := u8FromHex_eq ha hb
    have hlen : byteLen [a, b] = 2 := by
      simp [byteLen, utf8Size_of_hexValue hb, utf8Size_of_le ha.2 (by decide)]
    show unescapeHex [a, b] ++ unescapeString rest = _
    simp [unescapeHex, hvalue, hlen, decode, char?]
  | lineContinue => rfl

theorem unescape_spellAll (items : List StrItem) (rest : List Char) :
    unescapeString (spellAll items ++ rest) = items.flatMap decode ++ unescapeString rest := by
  induction items with
  | nil => rfl
  | cons i items ih =>
    show unescapeString (i.spell ++ spellAll items ++ rest) = _
    rw [List.append_assoc, unescape_spell, ih, List.flatMap_cons, List.append_assoc]

/-! ## What is lost -/

/-- Whether an item stands for a backslash at the end of a line. -/
def isContinue : StrItem → Bool
  | lineContinue => true
  | _ => false

/-- Whether the item is an escaped double quote. -/
def isQuote : StrItem → Bool
  | escape c _ _ => c == '"'
  | _ => false

theorem char?_eq_none {i : StrItem} : i.char? = none ↔ i.isContinue = true := by
  cases i with
  | hex a b ha hb =>
    obtain ⟨value, hvalue⟩ := u8FromHex_eq ha hb
    simp [char?, hvalue, isContinue]
  | _ => simp [char?, isContinue]

theorem denote_eq {items : List StrItem} (h : ∀ i ∈ items, i.isContinue = false) :
    denote false items = items.flatMap decode := by
  induction items with
  | nil => rfl
  | cons i items ih =>
    cases hc : i.char? with
    | none =>
      have hcontinue := char?_eq_none.mp hc
      rw [h i List.mem_cons_self] at hcontinue
      cases hcontinue
    | some c =>
      rw [denote, Bool.false_and, if_neg Bool.false_ne_true, hc, List.flatMap_cons, decode, hc,
        ih fun j hj => h j (List.mem_cons_of_mem _ hj)]
      rfl

theorem length_denote_le (skipping : Bool) (items : List StrItem) :
    (denote skipping items).length + 2 * items.countP isContinue ≤
      (items.flatMap decode).length := by
  induction items generalizing skipping with
  | nil => rfl
  | cons i items ih =>
    rw [denote, List.flatMap_cons, List.length_append, List.countP_cons]
    -- blanks are skipped only after a continuation
    split
    · have hone : 1 ≤ i.decode.length := by
        unfold decode
        cases i.char? <;> simp
      have hcontinue : i.isContinue = false := by
        cases i <;> simp_all [isRawBlank, isContinue]
      have hle := ih true
      rw [hcontinue]
      simp only [Bool.false_eq_true, if_false]
      omega
    -- an item stands for one character, or continues the line
    · cases hc : i.char? with
      | some c =>
        have hcontinue : i.isContinue = false := by
          refine Bool.of_not_eq_true fun h => ?_
          rw [char?_eq_none.mpr h] at hc
          cases hc
        have hle := ih false
        have hdecode : i.decode.length = 1 := by rw [decode, hc]; rfl
        rw [hcontinue, hdecode]
        simp only [List.length_cons, Bool.false_eq_true, if_false]
        omega
      | none =>
        have hle := ih true
        have hdecode : i.decode.length = 2 := by rw [decode, hc]; rfl
        rw [char?_eq_none.mp hc, hdecode]
        simp only [if_true]
        omega

/-- No quote is lost where blanks are left out. -/
theorem count_quote_denote (skipping : Bool) (items : List StrItem) :
    (denote skipping items).count '"' = (items.flatMap decode).count '"' := by
  induction items generalizing skipping with
  | nil => rfl
  | cons i items ih =>
    rw [denote, List.flatMap_cons, List.count_append]
    split
    · next hblank =>
      have hnone : i.decode.count '"' = 0 := by
        cases i with
        | raw c h => simp [decode, char?, h.1]
        | _ => simp [isRawBlank] at hblank
      rw [ih, hnone, Nat.zero_add]
    · cases hc : i.char? with
      | some c =>
        rw [decode, hc]
        simp only [List.count_cons, ih, Option.map_some, Option.getD_some, List.count_nil]
        omega
      | none =>
        rw [decode, hc, ih]
        simp

/-! ## `parse_quoted_content` -/

theorem quote_mem_spell {i : StrItem} (h : '"' ∈ i.spell) : i.isQuote = true := by
  cases i with
  | raw c hc => exact absurd (List.mem_singleton.mp h).symm hc.1
  | escape c d hd =>
    simp only [spell, List.mem_cons, List.not_mem_nil, or_false] at h
    rcases h with h | h
    · cases h
    · exact beq_iff_eq.mpr h.symm
  | hex a b ha hb =>
    simp only [spell, List.mem_cons, List.not_mem_nil, or_false] at h
    rcases h with h | h | rfl | rfl
    · cases h
    · cases h
    · exact absurd ha.1 (by decide)
    · exact absurd hb (by decide)
  | lineContinue => simp [spell] at h

theorem quote_notMem_spellAll {items : List StrItem} (h : ∀ i ∈ items, i.isQuote = false) :
    '"' ∉ spellAll items := by
  intro hmem
  obtain ⟨i, hi, hspell⟩ := List.mem_flatMap.mp hmem
  have hquote := quote_mem_spell hspell
  rw [h i hi] at hquote
  cases hquote

/-- A literal in double quotes with its suffix. -/
def quoted (items : List StrItem) (suffix : List Char) : List Char :=
  '"' :: spellAll items ++ '"' :: suffix

def suffixOf (suffix : List Char) : Option (List Char) := if suffix = [] then none else some suffix

theorem parse_quoted {items : List StrItem} {suffix : List Char}
    (hitems : ∀ i ∈ items, i.isQuote = false) (hsuffix : '"' ∉ suffix) :
    parseQuotedContent (quoted items suffix) '"' =
      some (items.flatMap decode, suffixOf suffix) := by
  have hsplit : (quoted items suffix).splitOn '"' = [[], spellAll items, suffix] := by
    show ([] ++ '"' :: (spellAll items ++ '"' :: suffix)).splitOn '"' = _
    rw [List.splitOn_append_cons_self_of_not_mem List.not_mem_nil,
      List.splitOn_append_cons_self_of_not_mem (quote_notMem_spellAll hitems),
      List.splitOn_eq_singleton hsuffix]
  have hdecode := unescape_spellAll items []
  rw [List.append_nil] at hdecode
  rw [parseQuotedContent, hsplit]
  dsimp only
  rw [hdecode, unescapeString, List.append_nil]
  rfl

/-- The first escaped double quote ends what is read. -/
theorem parse_quoted_cut {before : List StrItem} {i : StrItem} (after : List StrItem)
    (suffix : List Char) (hbefore : ∀ j ∈ before, j.isQuote = false) (hi : i.isQuote = true) :
    ∃ o, parseQuotedContent (quoted (before ++ i :: after) suffix) '"' =
      some (before.flatMap decode ++ ['\\'], o) := by
  have hspell : i.spell = ['\\', '"'] := by
    cases i with
    | escape c d h =>
      obtain rfl := beq_iff_eq.mp hi
      rfl
    | _ => cases hi
  have hnone : '"' ∉ spellAll before ++ ['\\'] := by
    rw [List.mem_append, not_or]
    exact ⟨quote_notMem_spellAll hbefore, by decide⟩
  obtain ⟨part, parts, hparts⟩ := List.exists_cons_of_ne_nil
    (List.splitOn_ne_nil '"' (spellAll after ++ '"' :: suffix))
  have hsplit : (quoted (before ++ i :: after) suffix).splitOn '"' =
      [] :: (spellAll before ++ ['\\']) :: part :: parts := by
    have hspellAll : spellAll (before ++ i :: after) ++ '"' :: suffix =
        (spellAll before ++ ['\\']) ++ '"' :: (spellAll after ++ '"' :: suffix) := by
      simp [spellAll, hspell]
    show ([] ++ '"' :: (spellAll (before ++ i :: after) ++ '"' :: suffix)).splitOn '"' = _
    rw [List.splitOn_append_cons_self_of_not_mem List.not_mem_nil, hspellAll,
      List.splitOn_append_cons_self_of_not_mem hnone, hparts]
  rw [parseQuotedContent, hsplit]
  dsimp only
  rw [unescape_spellAll]
  exact ⟨_, rfl⟩

theorem exists_first_quote {items : List StrItem} (h : ¬∀ i ∈ items, i.isQuote = false) :
    ∃ i before after, items = before ++ i :: after ∧ i.isQuote = true ∧
      ∀ j ∈ before, j.isQuote = false := by
  simp only [not_forall, Bool.not_eq_false] at h
  obtain ⟨i, hi, hquote⟩ := h
  obtain ⟨j, hj⟩ := Option.isSome_iff_exists.mp (List.find?_isSome.mpr ⟨i, hi, hquote⟩)
  obtain ⟨hquote', before, after, rfl, hbefore⟩ := List.find?_eq_some_iff_append.mp hj
  exact ⟨j, before, after, rfl, hquote', fun k hk => by simpa using hbefore k hk⟩

/-- The items that `parse_quoted_content` gives back. -/
def isPlain (i : StrItem) : Bool := !i.isQuote && !i.isContinue

theorem parse_quoted_iff {items : List StrItem} {suffix : List Char} (hsuffix : '"' ∉ suffix) :
    parseQuotedContent (quoted items suffix) '"' = some (denote false items, suffixOf suffix) ↔
      ∀ i ∈ items, i.isPlain = true := by
  constructor
  · intro hparse
    have hquotes : ∀ i ∈ items, i.isQuote = false := by
      by_contra hsome
      obtain ⟨i, before, after, rfl, hi, hbefore⟩ := exists_first_quote hsome
      obtain ⟨o, hcut⟩ := parse_quoted_cut after suffix hbefore hi
      have hdenote : before.flatMap decode ++ ['\\'] = denote false (before ++ i :: after) :=
        (Prod.mk.inj (Option.some.inj (hcut.symm.trans hparse))).1
      -- the escaped double quote itself is missing
      have hcount := congrArg (List.count '"') hdenote
      have hone : i.decode.count '"' = 1 := by
        cases i with
        | escape c d h =>
          obtain rfl := beq_iff_eq.mp hi
          cases h
          rfl
        | _ => cases hi
      rw [count_quote_denote, List.flatMap_append, List.flatMap_cons, List.count_append,
        List.count_append, List.count_append, hone] at hcount
      have hnone : List.count '"' ['\\'] = 0 := by decide
      omega
    rw [parse_quoted hquotes hsuffix] at hparse
    have hdenote := congrArg List.length (Prod.mk.inj (Option.some.inj hparse)).1
    have hle := length_denote_le false items
    have hcontinue : items.countP isContinue = 0 := by omega
    intro i hi
    rw [isPlain, hquotes i hi, Bool.eq_false_of_not_eq_true (List.countP_eq_zero.mp hcontinue i hi)]
    rfl
  · intro hplain
    have hitems : ∀ i ∈ items, i.isQuote = false ∧ i.isContinue = false := fun i hi => by
      simpa [isPlain] using hplain i hi
    rw [parse_quoted (fun i hi => (hitems i hi).1) hsuffix, denote_eq fun i hi => (hitems i hi).2]

end StrItem

end Lex
