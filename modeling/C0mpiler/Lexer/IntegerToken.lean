import C0mpiler.Lexer.StringLiteral
import Mathlib

/-!
# Integer tokens

The lexemes that the lexer returns as integers, their split into digits and suffix, and the number
that `parse_u32` (`const_eval.rs`) reads.
-/

namespace Lex

open Regex

/-! ## `parse_u32` -/

/-- `char::to_digit`, for a radix up to 16. -/
def toDigit (radix : Nat) (c : Char) : Option Nat := (hexValue c).filter (· < radix)

def pushDigit (radix acc : Nat) (c : Char) : Option Nat :=
  match toDigit radix c with
  | some digit => if acc * radix + digit < 2 ^ 32 then some (acc * radix + digit) else none
  | none => none

/-- `u32::from_str_radix`. -/
def fromStrRadix (radix : Nat) : List Char → Option Nat
  | [] | ['+'] | ['-'] => none
  | '+' :: digits => digits.foldlM (pushDigit radix) 0
  | digits => digits.foldlM (pushDigit radix) 0

def stripRadix (s : List Char) : List Char × Nat :=
  if ['0', 'b'] <+: s ∨ ['0', 'B'] <+: s then (s.drop 2, 2)
  else if ['0', 'o'] <+: s ∨ ['0', 'O'] <+: s then (s.drop 2, 8)
  else if ['0', 'x'] <+: s ∨ ['0', 'X'] <+: s then (s.drop 2, 16)
  else (s, 10)

def parseU32 (s : List Char) : Option Nat :=
  let cleaned := (stripRadix s).1.filter (· != '_')
  if cleaned = [] then none else fromStrRadix (stripRadix s).2 cleaned

/-! ## The value of a literal -/

/-- The base of a literal by its prefix. -/
def literalBase (symbol : List Char) : Nat :=
  if ['0', 'b'] <+: symbol then 2
  else if ['0', 'o'] <+: symbol then 8
  else if ['0', 'x'] <+: symbol then 16
  else 10

/-- The digits of a literal, behind its prefix. -/
def literalDigits (symbol : List Char) : List Char :=
  (if literalBase symbol = 10 then symbol else symbol.drop 2).filter (· != '_')

def digitsValue (base : Nat) (digits : List Char) : Nat :=
  Nat.ofDigits base (digits.reverse.map fun c => (hexValue c).getD 0)

/-- The positional value of a literal that has digits. -/
def literalValue (symbol : List Char) : Option Nat :=
  if literalDigits symbol = [] then none
  else some (digitsValue (literalBase symbol) (literalDigits symbol))

/-- All digits of a literal are digits of its base. -/
def DigitsOf (base : Nat) (digits : List Char) : Prop :=
  ∀ c ∈ digits, ∃ d, hexValue c = some d ∧ d < base

theorem digitsValue_concat (base : Nat) (digits : List Char) (c : Char) :
    digitsValue base (digits ++ [c]) = digitsValue base digits * base + (hexValue c).getD 0 := by
  rw [digitsValue, List.reverse_append, List.reverse_singleton, List.singleton_append, List.map_cons,
    Nat.ofDigits_cons, Nat.mul_comm, Nat.add_comm]
  rfl

/-- A number that fits in 32 bits. -/
def fitsU32 (value : Nat) : Option Nat := if value < 2 ^ 32 then some value else none

/-- Reading digits from the left gives their value, or stops where it leaves 32 bits. -/
theorem foldlM_pushDigit {base : Nat} (hbase : 0 < base) {digits : List Char}
    (h : DigitsOf base digits) :
    digits.foldlM (pushDigit base) 0 = fitsU32 (digitsValue base digits) := by
  induction digits using List.reverseRecOn with
  | nil => rfl
  | append_singleton digits c ih =>
    obtain ⟨d, hd, hlt⟩ := h c (List.mem_append_right _ (List.mem_singleton.mpr rfl))
    have hdigit : toDigit base c = some d := by simp [toDigit, hd, hlt]
    rw [List.foldlM_append, ih fun c' hc' => h c' (List.mem_append_left _ hc'), digitsValue_concat, hd]
    by_cases hfits : digitsValue base digits < 2 ^ 32
    · rw [fitsU32, if_pos hfits]
      show (pushDigit base (digitsValue base digits) c).bind some = _
      rw [Option.bind_fun_some, pushDigit, hdigit]
      rfl
    · have hover : ¬digitsValue base digits * base + d < 2 ^ 32 := by
        have hle := Nat.le_mul_of_pos_right (digitsValue base digits) hbase
        omega
      rw [fitsU32, if_neg hfits, fitsU32, Option.getD_some, if_neg hover]
      rfl

theorem fromStrRadix_digits {base : Nat} (hbase : 0 < base) {digits : List Char}
    (h : DigitsOf base digits) (hne : digits ≠ []) :
    fromStrRadix base digits = fitsU32 (digitsValue base digits) := by
  have hsign : ∀ c ∈ digits, c ≠ '+' ∧ c ≠ '-' := fun c hc => by
    obtain ⟨d, hd, -⟩ := h c hc
    constructor <;> (rintro rfl; cases hd)
  rw [← foldlM_pushDigit hbase h]
  cases digits with
  | nil => exact absurd rfl hne
  | cons c rest =>
    obtain ⟨hplus, hminus⟩ := hsign c List.mem_cons_self
    unfold fromStrRadix
    split <;> simp_all

/-! ## The split of a lexeme -/

/-- What `find` of the first character behind the digits leaves before it. -/
theorem take_findSuffix (skip : Nat) (isDigit : Char → Bool) (lexeme : List Char) :
    (match findSuffix skip isDigit lexeme with
      | some pos => lexeme.take pos
      | none => lexeme) =
    lexeme.take skip ++ (lexeme.drop skip).takeWhile fun c => isDigit c || c == '_' := by
  have hpred : (fun c => !isDigit c && c != '_') = fun c => !(isDigit c || c == '_') := by
    funext c
    simp [bne]
  have htake : (lexeme.drop skip).takeWhile (fun c => isDigit c || c == '_') =
      (lexeme.drop skip).take ((lexeme.drop skip).findIdx fun c => !isDigit c && c != '_') := by
    rw [List.takeWhile_eq_take_findIdx_not, hpred]
  rw [htake, findSuffix]
  cases hfind : (lexeme.drop skip).findIdx? fun c => !isDigit c && c != '_' with
  | none =>
    rw [List.findIdx?_eq_none_iff_findIdx_eq] at hfind
    rw [hfind, List.take_length]
    exact (List.take_append_drop skip lexeme).symm
  | some i =>
    obtain ⟨-, hi⟩ := List.findIdx?_eq_some_iff_findIdx_eq.mp hfind
    rw [hi]
    show lexeme.take (i + skip) = _
    rw [Nat.add_comm, List.take_add]

/-- The digits of a lexeme end where its suffix starts. -/
theorem parseNumberLiteral_append (lexeme : List Char) :
    (parseNumberLiteral lexeme).1 ++ (parseNumberLiteral lexeme).2.getD [] = lexeme := by
  unfold parseNumberLiteral
  cases (suffixPos lexeme).1 with
  | some pos => exact List.take_append_drop pos lexeme
  | none => exact List.append_nil lexeme

/-! ## `parse_u32` of the digits -/

theorem digitsOf_takeWhile {base : Nat} {isDigit : Char → Bool}
    (h : ∀ c, isDigit c = true → ∃ d, hexValue c = some d ∧ d < base) (text : List Char) :
    DigitsOf base ((text.takeWhile fun c => isDigit c || c == '_').filter (· != '_')) := by
  intro c hc
  obtain ⟨hmem, hne⟩ := List.mem_filter.mp hc
  have hdigit := List.mem_takeWhile_imp hmem
  rcases Bool.or_eq_true_iff.mp hdigit with hdigit | heq
  · exact h c hdigit
  · exact absurd (beq_iff_eq.mp heq) (bne_iff_ne.mp hne)

theorem literalBase_pos (symbol : List Char) : 0 < literalBase symbol := by
  unfold literalBase
  split_ifs <;> decide

/-- What is read of a symbol whose digits are digits of its base. -/
theorem parseU32_eq {symbol : List Char} (h : DigitsOf (literalBase symbol) (literalDigits symbol))
    (hstrip : ((stripRadix symbol).1.filter (· != '_'), (stripRadix symbol).2) =
      (literalDigits symbol, literalBase symbol)) :
    parseU32 symbol = (literalValue symbol).bind fitsU32 := by
  obtain ⟨hdigits, hradix⟩ := Prod.mk.inj hstrip
  rw [parseU32, literalValue, hdigits, hradix]
  split
  · rfl
  · next hne => exact fromStrRadix_digits (literalBase_pos symbol) h hne

theorem hexValue_digit {c : Char} (h : '0' ≤ c) {m : Char} (hm : c ≤ m) (hnine : m ≤ '9') :
    ∃ d, hexValue c = some d ∧ d ≤ m.toNat - '0'.toNat := by
  refine ⟨c.toNat - '0'.toNat, if_pos ⟨h, le_trans hm hnine⟩, ?_⟩
  have hle : c.toNat ≤ m.toNat := hm
  omega

theorem hexValue_hexdigit {c : Char} (h : isAsciiHexdigit c = true) :
    ∃ d, hexValue c = some d ∧ d < 16 := by
  simp only [isAsciiHexdigit, isAsciiDigit, Bool.or_eq_true, Bool.and_eq_true, decide_eq_true_eq] at h
  unfold hexValue
  split_ifs with h₁ h₂ h₃
  · have hle : c.toNat ≤ '9'.toNat := h₁.2
    exact ⟨_, rfl, lt_of_le_of_lt (Nat.sub_le_sub_right hle _) (by decide)⟩
  · have hle : c.toNat ≤ 'f'.toNat := h₂.2
    exact ⟨_, rfl, lt_of_le_of_lt (Nat.add_le_add_right (Nat.sub_le_sub_right hle _) _) (by decide)⟩
  · have hle : c.toNat ≤ 'F'.toNat := h₃.2
    exact ⟨_, rfl, lt_of_le_of_lt (Nat.add_le_add_right (Nat.sub_le_sub_right hle _) _) (by decide)⟩
  · tauto

/-- The symbol of a lexeme with a prefix. -/
theorem symbol_marked {lexeme : List Char} (m : Char) (base : Nat) {isDigit : Char → Bool}
    (hmark : (m, base) ∈ [('b', 2), ('o', 8), ('x', 16)])
    (hdigit : ∀ c, isDigit c = true → ∃ d, hexValue c = some d ∧ d < base)
    (hlexeme : ['0', m] <+: lexeme)
    (hsuffix : suffixPos lexeme = (findSuffix 2 isDigit lexeme, true)) :
    DigitsOf (literalBase (parseNumberLiteral lexeme).1) (literalDigits (parseNumberLiteral lexeme).1) ∧
      parseU32 (parseNumberLiteral lexeme).1 =
        (literalValue (parseNumberLiteral lexeme).1).bind fitsU32 := by
  obtain ⟨rest, rfl⟩ := hlexeme
  have hsymbol : (parseNumberLiteral (['0', m] ++ rest)).1 =
      '0' :: m :: rest.takeWhile fun c => isDigit c || c == '_' := by
    refine Eq.trans ?_ (take_findSuffix 2 isDigit (['0', m] ++ rest))
    rw [parseNumberLiteral, hsuffix]
    cases findSuffix 2 isDigit (['0', m] ++ rest) <;> rfl
  rw [hsymbol]
  have hdigits := digitsOf_takeWhile hdigit rest
  simp only [List.mem_cons, Prod.mk.injEq, List.not_mem_nil, or_false] at hmark
  rcases hmark with ⟨rfl, rfl⟩ | ⟨rfl, rfl⟩ | ⟨rfl, rfl⟩ <;>
    exact ⟨hdigits, parseU32_eq hdigits rfl⟩

theorem symbol_decimal {lexeme : List Char}
    (hsuffix : suffixPos lexeme = (findSuffix 0 isAsciiDigit lexeme, false)) :
    DigitsOf (literalBase (parseNumberLiteral lexeme).1) (literalDigits (parseNumberLiteral lexeme).1) ∧
      parseU32 (parseNumberLiteral lexeme).1 =
        (literalValue (parseNumberLiteral lexeme).1).bind fitsU32 := by
  have hsymbol : (parseNumberLiteral lexeme).1 =
      lexeme.takeWhile fun c => isAsciiDigit c || c == '_' := by
    refine Eq.trans ?_ (take_findSuffix 0 isAsciiDigit lexeme)
    rw [parseNumberLiteral, hsuffix]
    cases findSuffix 0 isAsciiDigit lexeme <;> rfl
  rw [hsymbol]
  -- a prefix would have a letter among the digits
  have hmark : ∀ m : Char, (isAsciiDigit m || m == '_') = false →
      ¬['0', m] <+: lexeme.takeWhile fun c => isAsciiDigit c || c == '_' := by
    intro m hm hpre
    have hmem := List.mem_takeWhile_imp (hpre.subset (List.mem_cons_of_mem _ List.mem_cons_self))
    rw [hm] at hmem
    cases hmem
  have hbase : literalBase (lexeme.takeWhile fun c => isAsciiDigit c || c == '_') = 10 := by
    rw [literalBase, if_neg (hmark 'b' rfl), if_neg (hmark 'o' rfl), if_neg (hmark 'x' rfl)]
  have hstrip : stripRadix (lexeme.takeWhile fun c => isAsciiDigit c || c == '_') =
      (lexeme.takeWhile fun c => isAsciiDigit c || c == '_', 10) := by
    rw [stripRadix, if_neg (not_or.mpr ⟨hmark 'b' rfl, hmark 'B' rfl⟩),
      if_neg (not_or.mpr ⟨hmark 'o' rfl, hmark 'O' rfl⟩),
      if_neg (not_or.mpr ⟨hmark 'x' rfl, hmark 'X' rfl⟩)]
  have hdigits : DigitsOf (literalBase (lexeme.takeWhile fun c => isAsciiDigit c || c == '_'))
      (literalDigits (lexeme.takeWhile fun c => isAsciiDigit c || c == '_')) := by
    rw [literalDigits, hbase, if_pos rfl]
    refine digitsOf_takeWhile (fun c hc => ?_) lexeme
    obtain ⟨hzero, hnine⟩ := Bool.and_eq_true_iff.mp hc
    obtain ⟨d, hd, hle⟩ := hexValue_digit (of_decide_eq_true hzero) (of_decide_eq_true hnine) (le_refl _)
    exact ⟨d, hd, Nat.lt_succ_of_le hle⟩
  refine ⟨hdigits, parseU32_eq hdigits ?_⟩
  rw [hstrip, literalDigits, hbase, if_pos rfl]

/-- The digits of a lexeme are digits of its base, and `parse_u32` reads their value. -/
theorem parseU32_symbol (lexeme : List Char) :
    DigitsOf (literalBase (parseNumberLiteral lexeme).1) (literalDigits (parseNumberLiteral lexeme).1) ∧
      parseU32 (parseNumberLiteral lexeme).1 =
        (literalValue (parseNumberLiteral lexeme).1).bind fitsU32 := by
  by_cases hb : ['0', 'b'] <+: lexeme
  · refine symbol_marked 'b' 2 (by decide) (fun c hc => ?_) hb (if_pos hb)
    rcases Bool.or_eq_true_iff.mp hc with hc | hc <;>
      (rw [beq_iff_eq.mp hc]; exact ⟨_, rfl, by decide⟩)
  · by_cases ho : ['0', 'o'] <+: lexeme
    · refine symbol_marked 'o' 8 (by decide) (fun c hc => ?_) ho
        (by rw [suffixPos, if_neg hb, if_pos ho])
      obtain ⟨hzero, hseven⟩ := Bool.and_eq_true_iff.mp hc
      obtain ⟨d, hd, hle⟩ := hexValue_digit (of_decide_eq_true hzero) (of_decide_eq_true hseven)
        (by decide)
      exact ⟨d, hd, Nat.lt_succ_of_le hle⟩
    · by_cases hx : ['0', 'x'] <+: lexeme
      · exact symbol_marked 'x' 16 (by decide) (fun c hc => hexValue_hexdigit hc) hx
          (by rw [suffixPos, if_neg hb, if_neg ho, if_pos hx])
      · exact symbol_decimal (by rw [suffixPos, if_neg hb, if_neg ho, if_neg hx])

end Lex
