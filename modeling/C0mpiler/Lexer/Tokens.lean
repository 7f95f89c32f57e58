import C0mpiler.Data.Regex
import Mathlib

/-!
# The token rules

`tokens.rs`: the lexical rules and the table of tokens, in its order. The rules are texts that are
pasted into one another, each in parentheses; inside a bracket class these parentheses are members
of the class (`classText`). A literal token matches its own text.
-/

namespace Lex

inductive TokenType where
  | kwAs | kwBreak | kwConst | kwContinue | kwCrate | kwElse | kwEnum | kwExtern | kwFalse | kwFn
  | kwFor | kwIf | kwImpl | kwIn | kwLet | kwLoop | kwMatch | kwMod | kwMove | kwMut | kwPub
  | kwRef | kwReturn | lSelfType | selfType | kwStatic | kwStruct | kwSuper | kwTrait | kwTrue
  | kwType | kwUnsafe | kwUse | kwWhere | kwWhile | kwAsync | kwAwait | kwDyn | kwAbstract
  | kwBecome | kwBox | kwDo | kwFinal | kwMacro | kwOverride | kwPriv | kwTypeof | kwUnsized
  | kwVirtual | kwYield | underscor | reservedGuardedString | reservedNumber | id | character
  | string | rawString | byte | byteString | rawByteString | cString | rawCString | integer
  | float | plus | minus | star | slash | percent | caret | not | and | or | andAnd | orOr | shl
  | shr | plusEq | minusEq | starEq | slashEq | percentEq | caretEq | andEq | orEq | shlEq | shrEq
  | eq | eqEq | ne | gt | lt | ge | le | at | dot | dotDot | dotDotDot | dotDotEq | comma | semi
  | colon | pathSep | rArrow | fatArrow | lArrow | pound | dollar | question | tilde | openPar
  | closePar | openSqu | closeSqu | openCurly | closeCurly | comment | commentsBlock
  | unfinishedCommentBlock | whitespace | eof
  deriving DecidableEq, Repr

open Regex CharClass

/-! ## `define_rules` -/

def nulChar : Char := '\u0000'

def tabChar : Char := '\t'

def lfChar : Char := '\n'

def crChar : Char := '\r'

/-- A rule for one character pasted into a bracket class. -/
def classText (c : Char) : List Char := ['(', c, ')']

def char (c : Char) : Regex := cls (.of [c])

def keyword (text : String) : Regex := lit text.toList

def binDigit : Regex := cls ⟨false, [('0', '1')]⟩

def octDigit : Regex := cls ⟨false, [('0', '7')]⟩

def decDigit : Regex := cls ⟨false, [('0', '9')]⟩

def hexDigit : Regex := cls ⟨false, [('0', '9'), ('a', 'f'), ('A', 'F')]⟩

/-- Digits and underscores. -/
def digits (digit : Regex) : Regex := star (alt digit (char '_')) true

def decLiteral : Regex := seq decDigit (digits decDigit)

def prefixedLiteral (mark : String) (digit : Regex) : Regex :=
  seq (keyword mark) (seq (digits digit) (seq digit (digits digit)))

def binLiteral : Regex := prefixedLiteral "0b" binDigit

def octLiteral : Regex := prefixedLiteral "0o" octDigit

def hexLiteral : Regex := prefixedLiteral "0x" hexDigit

def identStart : CharClass := ⟨false, [('A', 'Z'), ('a', 'z'), ('_', '_')]⟩

def identContinue : CharClass := ⟨false, [('A', 'Z'), ('a', 'z'), ('0', '9'), ('_', '_')]⟩

def identifierOrKeyword : Regex := seq (cls identStart) (star (cls identContinue) true)

def suffix : Regex := identifierOrKeyword

def suffixNoE : Regex := seq (look (cls (.of ['e', 'E'])) false) suffix

def integerLiteral : Regex :=
  seq (alts [decLiteral, binLiteral, octLiteral, hexLiteral]) (opt suffixNoE)

def quoteEscape : Regex := alt (keyword "\\'") (keyword "\\\"")

def asciiEscape : Regex :=
  alts [seq (keyword "\\x") (seq octDigit hexDigit), keyword "\\n", keyword "\\r", keyword "\\t",
    keyword "\\\\", keyword "\\0"]

def asciiForChar : Regex :=
  cls (.notOf (['\'', '\\'] ++ classText lfChar ++ classText crChar ++ classText tabChar))

def charLiteral : Regex :=
  seq (char '\'') (seq (alts [asciiForChar, quoteEscape, asciiEscape]) (seq (char '\'') (opt suffix)))

def stringContinue : Regex := seq (char '\\') (char lfChar)

def asciiForString : Regex := cls (.notOf (['"', '\\'] ++ classText crChar))

def stringItem : Regex := alts [asciiForString, quoteEscape, asciiEscape, stringContinue]

def stringLiteral : Regex :=
  seq (char '"') (seq (star stringItem true) (seq (char '"') (opt suffix)))

/-- A raw string after its prefix: as many number signs behind the quotes as before them. -/
def rawContent (excluded : List Char) : Regex :=
  seq (group (star (char '#') true))
    (seq (char '"') (seq (star (cls (.notOf excluded)) false) (seq (char '"') backref)))

def rawLiteral (mark : String) (excluded : List Char) : Regex :=
  seq (keyword mark) (seq (rawContent excluded) (opt suffix))

def rawStringLiteral : Regex := rawLiteral "r" (classText crChar)

def byteEscape : Regex :=
  alts [seq (keyword "\\x") (seq hexDigit hexDigit), keyword "\\n", keyword "\\r", keyword "\\t",
    keyword "\\\\", keyword "\\0", keyword "\\'", keyword "\\\""]

def byteLiteral : Regex :=
  seq (keyword "b'") (seq (alt asciiForChar byteEscape) (seq (char '\'') (opt suffix)))

def byteStringLiteral : Regex :=
  seq (keyword "b\"") (seq (star (alts [asciiForString, byteEscape, stringContinue]) true)
    (seq (char '"') (opt suffix)))

def rawByteStringLiteral : Regex := rawLiteral "br" (classText crChar)

/-- The names of the other rules stand in this rule without braces. -/
def cStringLiteral : Regex :=
  alts [seq (keyword "c\"") (cls (.notOf (['"', '\\'] ++ classText crChar ++ classText nulChar))),
    keyword "BYTE_ESCAPE", seq (keyword "STRING_CONTINUE\"") (opt suffix)]

def rawCStringLiteral : Regex := rawLiteral "cr" (classText crChar ++ classText nulChar)

def floatLiteral : Regex :=
  alt (seq decLiteral (seq (char '.') (seq decLiteral (opt suffixNoE))))
    (seq decLiteral (seq (char '.')
      (look (cls ⟨false, [('.', '.'), ('_', '_'), ('a', 'z'), ('A', 'Z')]⟩) false)))

def reservedGuardedStringLiteral : Regex := seq (plus (char '#')) stringLiteral

/-- Only underscores behind the prefix of a number, up to the end of the text or to something else
than the characters of the rule for its digits. -/
def emptyNumber (mark : String) (notDigit : CharClass) : Regex :=
  seq (keyword mark) (seq (star (char '_') true) (look (alt atEnd (cls notDigit)) true))

def reservedNumber : Regex :=
  alts [seq binLiteral (cls ⟨false, [('2', '9')]⟩), seq octLiteral (cls ⟨false, [('8', '9')]⟩),
    seq (alts [binLiteral, octLiteral, hexLiteral])
      (seq (char '.') (look (cls ⟨false, [('.', '.'), ('_', '_'), ('a', 'z'), ('A', 'Z')]⟩) false)),
    emptyNumber "0b" ⟨true, [('(', '('), ('0', '1'), (')', ')')]⟩,
    emptyNumber "0o" ⟨true, [('(', '('), ('0', '7'), (')', ')')]⟩,
    emptyNumber "0x" ⟨true, [('(', '('), ('0', '9'), ('a', 'f'), ('A', 'F'), (')', ')')]⟩]

/-! ## `define_tokens` -/

def comment : Regex :=
  seq (keyword "//") (seq (star (cls (.notOf [crChar, lfChar])) true)
    (seq (opt (char crChar)) (char lfChar)))

def anyChar : CharClass := .notOf []

def commentsBlock : Regex := seq (keyword "/*") (seq (star (cls anyChar) false) (keyword "*/"))

def unfinishedCommentBlock : Regex := keyword "/*"

def blank : CharClass := .of [tabChar, lfChar, '\x0b', '\x0c', crChar, ' ']

def whitespace : Regex := plus (cls blank)

/-- `get_all_tokens`. -/
def allTokens : List (TokenType × Regex) :=
  [(.kwAs, keyword "as"), (.kwBreak, keyword "break"), (.kwConst, keyword "const"),
  (.kwContinue, keyword "continue"), (.kwCrate, keyword "crate"), (.kwElse, keyword "else"),
  (.kwEnum, keyword "enum"), (.kwExtern, keyword "extern"), (.kwFalse, keyword "false"),
  (.kwFn, keyword "fn"), (.kwFor, keyword "for"), (.kwIf, keyword "if"), (.kwImpl, keyword "impl"),
  (.kwIn, keyword "in"), (.kwLet, keyword "let"), (.kwLoop, keyword "loop"),
  (.kwMatch, keyword "match"), (.kwMod, keyword "mod"), (.kwMove, keyword "move"),
  (.kwMut, keyword "mut"), (.kwPub, keyword "pub"), (.kwRef, keyword "ref"),
  (.kwReturn, keyword "return"), (.lSelfType, keyword "self"), (.selfType, keyword "Self"),
  (.kwStatic, keyword "static"), (.kwStruct, keyword "struct"), (.kwSuper, keyword "super"),
  (.kwTrait, keyword "trait"), (.kwTrue, keyword "true"), (.kwType, keyword "type"),
  (.kwUnsafe, keyword "unsafe"), (.kwUse, keyword "use"), (.kwWhere, keyword "where"),
  (.kwWhile, keyword "while"), (.kwAsync, keyword "async"), (.kwAwait, keyword "await"),
  (.kwDyn, keyword "dyn"), (.kwAbstract, keyword "abstract"), (.kwBecome, keyword "become"),
  (.kwBox, keyword "box"), (.kwDo, keyword "do"), (.kwFinal, keyword "final"),
  (.kwMacro, keyword "macro"), (.kwOverride, keyword "override"), (.kwPriv, keyword "priv"),
  (.kwTypeof, keyword "typeof"), (.kwUnsized, keyword "unsized"), (.kwVirtual, keyword "virtual"),
  (.kwYield, keyword "yield"), (.underscor, keyword "_"),
  (.reservedGuardedString, reservedGuardedStringLiteral), (.reservedNumber, reservedNumber),
  (.id, identifierOrKeyword), (.character, charLiteral), (.string, stringLiteral),
  (.rawString, rawStringLiteral), (.byte, byteLiteral), (.byteString, byteStringLiteral),
  (.rawByteString, rawByteStringLiteral), (.cString, cStringLiteral),
  (.rawCString, rawCStringLiteral), (.integer, integerLiteral), (.float, floatLiteral),
  (.plus, keyword "+"), (.minus, keyword "-"), (.star, keyword "*"), (.slash, keyword "/"),
  (.percent, keyword "%"), (.caret, keyword "^"), (.not, keyword "!"), (.and, keyword "&"),
  (.or, keyword "|"), (.andAnd, keyword "&&"), (.orOr, keyword "||"), (.shl, keyword "<<"),
  (.shr, keyword ">>"), (.plusEq, keyword "+="), (.minusEq, keyword "-="), (.starEq, keyword "*="),
  (.slashEq, keyword "/="), (.percentEq, keyword "%="), (.caretEq, keyword "^="),
  (.andEq, keyword "&="), (.orEq, keyword "|="), (.shlEq, keyword "<<="), (.shrEq, keyword ">>="),
  (.eq, keyword "="), (.eqEq, keyword "=="), (.ne, keyword "!="), (.gt, keyword ">"),
  (.lt, keyword "<"), (.ge, keyword ">="), (.le, keyword "<="), (.at, keyword "@"),
  (.dot, keyword "."), (.dotDot, keyword ".."), (.dotDotDot, keyword "..."),
  (.dotDotEq, keyword "..="), (.comma, keyword ","), (.semi, keyword ";"), (.colon, keyword ":"),
  (.pathSep, keyword "::"), (.rArrow, keyword "->"), (.fatArrow, keyword "=>"),
  (.lArrow, keyword "<-"), (.pound, keyword "#"), (.dollar, keyword "$"), (.question, keyword "?"),
  (.tilde, keyword "~"), (.openPar, keyword "("), (.closePar, keyword ")"),
  (.openSqu, keyword "["), (.closeSqu, keyword "]"), (.openCurly, keyword "\x7b"),
  (.closeCurly, keyword "\x7d"), (.comment, comment), (.commentsBlock, commentsBlock),
  (.unfinishedCommentBlock, unfinishedCommentBlock), (.whitespace, whitespace)]

def TokenType.shouldSkip : TokenType → Bool
  | comment | commentsBlock | whitespace => true
  | _ => false

def TokenType.shouldErr : TokenType → Bool
  | reservedGuardedString | reservedNumber | unfinishedCommentBlock => true
  | _ => false

end Lex
