import C0mpiler.Lexer.Tokens
import Mathlib

/-!
# The lexer

`lexer.rs`: `next_token` takes the longest match of any rule, the earliest rule winning ties, checks
an integer once more and goes on behind what is to be skipped; `TokenBuffer::new` collects tokens up
to the end of the text. Texts are lists of characters. The recursions are on a number of turns that
is given by the length of the text; `none` would mean that this is not enough.
-/

namespace Lex

structure TokenPosition where
  line : Nat
  col : Nat
  deriving DecidableEq, Repr

structure Token where
  tokenType : TokenType
  lexeme : List Char
  pos : TokenPosition
  deriving DecidableEq, Repr

/-- `Lexer`, without its compiled rules. -/
structure Lexer where
  codes : List Char
  line : Nat
  col : Nat
  deriving DecidableEq

structure LexError where
  message : String
  pos : TokenPosition
  deriving DecidableEq, Repr

/-! ## Numbers -/

def isAsciiDigit (c : Char) : Bool := '0' ≤ c && c ≤ '9'

def isAsciiHexdigit (c : Char) : Bool :=
  isAsciiDigit c || ('a' ≤ c && c ≤ 'f') || ('A' ≤ c && c ≤ 'F')

def isAsciiAlphabetic (c : Char) : Bool := ('a' ≤ c && c ≤ 'z') || ('A' ≤ c && c ≤ 'Z')

def isAsciiAlphanumeric (c : Char) : Bool := isAsciiAlphabetic c || isAsciiDigit c

/-- The first character behind the prefix that is neither a digit nor an underscore. -/
def findSuffix (skip : Nat) (isDigit : Char → Bool) (lexeme : List Char) : Option Nat :=
  ((lexeme.drop skip).findIdx? fun c => !isDigit c && c != '_').map (· + skip)

/-- Where the suffix of a number starts, and whether the number has a prefix. -/
def suffixPos (lexeme : List Char) : Option Nat × Bool :=
  if ['0', 'b'] <+: lexeme then (findSuffix 2 (fun c => c == '0' || c == '1') lexeme, true)
  else if ['0', 'o'] <+: lexeme then (findSuffix 2 (fun c => '0' ≤ c && c ≤ '7') lexeme, true)
  else if ['0', 'x'] <+: lexeme then (findSuffix 2 isAsciiHexdigit lexeme, true)
  else (findSuffix 0 isAsciiDigit lexeme, false)

/-- `parse_number_literal`: the digits and the suffix. -/
def parseNumberLiteral (lexeme : List Char) : List Char × Option (List Char) :=
  match (suffixPos lexeme).1 with
  | some pos => (lexeme.take pos, some (lexeme.drop pos))
  | none => (lexeme, none)

/-- A suffix that is not an identifier. A suffix is not empty. -/
def badSuffix (text : List Char) : Bool :=
  !(text.head?.any isAsciiAlphabetic) || text.any fun c => !isAsciiAlphanumeric c && c != '_'

/-- The integers that `next_token` refuses. -/
def invalidInteger (lexeme : List Char) : Bool :=
  let (symbol, suffix) := parseNumberLiteral lexeme
  ((suffixPos lexeme).2 && symbol.length == 2) || suffix.any badSuffix

/-! ## One token -/

/-- `str::len`. -/
def byteLen (text : List Char) : Nat := (text.map Char.utf8Size).sum

/-- What the rules find, in their order. -/
def ruleMatches (text : List Char) : List (TokenType × List Char) :=
  allTokens.filterMap fun rule => (rule.2.find text).map fun lexeme => (rule.1, lexeme)

def longer (a b : TokenType × List Char) : TokenType × List Char :=
  if byteLen a.2 < byteLen b.2 then b else a

def longest : List (TokenType × List Char) → Option (TokenType × List Char)
  | [] => none
  | m :: ms => some (ms.foldl longer m)

namespace Lexer

def getPos (lx : Lexer) : TokenPosition := ⟨lx.line, lx.col⟩

def consumeChar (lx : Lexer) (c : Char) : Lexer :=
  if c = '\n' then { lx with line := lx.line + 1, col := 0 } else { lx with col := lx.col + 1 }

/-- Go behind a lexeme. -/
def consume (lx : Lexer) (lexeme : List Char) : Lexer :=
  { lexeme.foldl consumeChar lx with codes := lx.codes.drop lexeme.length }

def nextTokenIn : Nat → Lexer → Option (Except LexError Token × Lexer)
  | 0, _ => none
  | turns + 1, lx =>
    if lx.codes = [] then some (.ok ⟨.eof, [], lx.getPos⟩, lx)
    else
      match longest (ruleMatches lx.codes) with
      | none => some (.error ⟨"Can't match any tokens!", lx.getPos⟩, lx)
      | some (t, lexeme) =>
        let next := lx.consume lexeme
        if t = .integer ∧ invalidInteger lexeme = true then
          some (.error ⟨"Invalid integer literal: " ++ String.ofList lexeme, next.getPos⟩, next)
        else if t.shouldErr then
          some (.error ⟨"The token \n \t " ++ String.ofList lexeme ++
            " \n was deliberately marked as an error", next.getPos⟩, next)
        else if t.shouldSkip then nextTokenIn turns next
        else some (.ok ⟨t, lexeme, lx.getPos⟩, next)

def nextToken (lx : Lexer) : Option (Except LexError Token × Lexer) :=
  nextTokenIn (lx.codes.length + 1) lx

def collect : Nat → Lexer → Option (Except LexError (List Token))
  | 0, _ => none
  | turns + 1, lx =>
    match lx.nextToken with
    | none => none
    | some (.error e, _) => some (.error e)
    | some (.ok token, next) =>
      if token.tokenType = .eof then some (.ok [])
      else
        match collect turns next with
        | some (.ok tokens) => some (.ok (token :: tokens))
        | r => r

end Lexer

/-- `TokenBuffer::new` of a lexer at the start of the text. -/
def tokenBuffer (codes : List Char) : Option (Except LexError (List Token)) :=
  Lexer.collect (codes.length + 1) ⟨codes, 0, 0⟩

end Lex
