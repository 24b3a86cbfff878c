import Formula.Number.Layout
import Formula.Text.Quoted

/-! # Tokens

The words of the language, and how messages describe them.
-/
namespace Formula

/-- The words that are values and cannot be names. -/
inductive Keyword
  | trueWord
  | falseWord
  | undefinedWord
  deriving DecidableEq, Repr

namespace Keyword

/-- How the keyword is written. -/
def spelling : Keyword → String
  | trueWord => "true"
  | falseWord => "false"
  | undefinedWord => "undefined"

/-- The keyword that is written so. -/
def ofSpelling? (text : String) : Option Keyword :=
  [trueWord, falseWord, undefinedWord].find? fun k => k.spelling = text

theorem ofSpelling?_spelling (k : Keyword) : ofSpelling? k.spelling = some k := by
  cases k <;> decide

end Keyword

/-- The operator signs. -/
inductive Sign
  | plus | minus | times | slash | percent | caret | question | colon | dot | bang
  | assign | equal | notEqual | less | lessEqual | greater | greaterEqual | bars
  deriving DecidableEq, Repr

namespace Sign

/-- How the sign is written in messages and canonical text. -/
def spelling : Sign → String
  | plus => "+" | minus => "-" | times => "*" | slash => "/" | percent => "%" | caret => "^"
  | question => "?" | colon => ":" | dot => "." | bang => "!" | assign => "="
  | equal => "==" | notEqual => "!=" | less => "<" | lessEqual => "<=" | greater => ">"
  | greaterEqual => ">=" | bars => "||"

end Sign

/-- Brackets of three shapes. -/
inductive Bracket
  | roundOpen | roundClose | squareOpen | squareClose | curlyOpen | curlyClose
  deriving DecidableEq, Repr

namespace Bracket

/-- How the bracket is written. -/
def spelling : Bracket → String
  | roundOpen => "(" | roundClose => ")" | squareOpen => "[" | squareClose => "]"
  | curlyOpen => "\x7b" | curlyClose => "\x7d"

end Bracket

/-- A word of the language. -/
inductive Token
  /-- The end of the text. -/
  | finish
  | sign (s : Sign)
  | number (x : Float)
  | string (s : String)
  | bracket (b : Bracket)
  | comma
  | semicolon
  | name (n : String)
  | keyword (k : Keyword)
  deriving DecidableEq

namespace Token

/-- A text between apostrophes. -/
def inApostrophes (text : String) : String := "'" ++ text ++ "'"

/-- How messages name a token. -/
def describe : Token → String
  | finish => "end of input"
  | sign s => inApostrophes s.spelling
  | number x => "number " ++ Number.messageText x
  | string s => "string " ++ Text.shown s
  | bracket b => inApostrophes b.spelling
  | comma => "','"
  | semicolon => "';'"
  | name n => "name " ++ inApostrophes n
  | keyword k => inApostrophes k.spelling

end Token

/-- A token and the bytes of the text that it covers. -/
structure PlacedToken where
  token : Token
  /-- The offset of the first byte. -/
  start : Nat
  /-- The offset behind the last byte. -/
  stop : Nat
  deriving DecidableEq

end Formula
