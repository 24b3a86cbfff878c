import Formula.Error
import Formula.Number.Reading

/-! # From text to tokens

At each place of a text stands a gap (white space or a comment), a token, or text that is
rejected.  What stands there is the longest such piece, and `scan` finds its length from its first
characters: two-character signs go before their first halves, a number that a further point or a
dangling power of ten spoils is rejected as far as it goes, and a string ends only at its quote.

The pieces of a text follow each other without overlap, so the whole text is read in one pass that
skips the characters of the piece just found.
-/
namespace Formula

/-- What stands at a place of a text. -/
inductive Reading
  | gap
  | token (t : Token)
  | rejected (fault : LexFault)
  deriving DecidableEq

/-- What stands at the beginning of a text and how many characters it takes, at least one. -/
structure Scan where
  reading : Reading
  length : Nat
  deriving DecidableEq

namespace Scan

/-- Blank, tab, line ends and form feed separate tokens. -/
def isGap (c : Char) : Bool :=
  c = ' ' || c = '\t' || c = '\r' || c = '\n' || c = '\x0c'

/-- A decimal digit. -/
def isDigit (c : Char) : Bool := Number.isDigit 10 c

/-- A letter of a name: ASCII letters and the underscore. -/
def isNameStart (c : Char) : Bool := c.isAlpha || c = '_'

/-- A letter of a name behind its first. -/
def isNameChar (c : Char) : Bool := isNameStart c || isDigit c

/-- How many characters of a comment are left: up to its end mark, or all of them. -/
def commentLength : List Char → Nat
  | [] => 0
  | c :: rest =>
    match c, rest with
    | '*', '/' :: _ => 2
    | _, _ => 1 + commentLength rest

/-- How many characters of a string are left: up to the next `quote` that no backslash precedes,
or all of them.  `escaped` tells whether a backslash has just been read. -/
def stringLength (quote : Char) (escaped : Bool) : List Char → Nat
  | [] => 0
  | c :: rest =>
    if escaped then 1 + stringLength quote false rest
    else if c = quote then 1
    else 1 + stringLength quote (c = '\\') rest

/-- The character that a letter behind a backslash stands for. -/
def escapedChar? (c : Char) : Option Char :=
  match c with
  | '\\' => some '\\'
  | '\x27' => some '\x27'
  | '\x22' => some '\x22'
  | '/' => some '/'
  | 'b' => some '\x08'
  | 'f' => some '\x0c'
  | 'n' => some '\n'
  | 'r' => some '\r'
  | 't' => some '\t'
  | _ => none

/-- The number of the four hexadecimal digits behind `\u`. -/
def codeUnit (text : List Char) : Except LexFault Nat :=
  let digits := text.take 4
  if digits.length = 4 ∧ digits.all (Number.isDigit 16) then .ok (Number.ofDigits 16 digits)
  else .error (.malformedCodeEscape (String.ofList digits))

/-- The character of a code point that is no surrogate. -/
def charOfCode (code : Nat) : Except LexFault Char :=
  if h : code.isValidChar then .ok (Char.ofNatAux code h) else .error (.unpairedSurrogate code)

/-- The character that a code escape stands for, and how many characters follow the `u`.  A code
beyond the first 65536 is written as two escapes in a row, the halves of a surrogate pair. -/
def codeEscape (text : List Char) : Except LexFault (Char × Nat) := do
  let high ← codeUnit text
  if 0xD800 ≤ high ∧ high < 0xDC00 then
    match text.drop 4 with
    | '\\' :: 'u' :: more =>
      let low ← codeUnit more
      if 0xDC00 ≤ low ∧ low < 0xE000 then
        pure (← charOfCode (0x10000 + (high - 0xD800) * 0x400 + (low - 0xDC00)), 10)
      else throw (.unpairedSurrogate high)
    | _ => throw (.unpairedSurrogate high)
  else
    pure (← charOfCode high, 4)

/-- The characters of a string, given what stands behind its first quote.  The first `skip`
characters have been read already. -/
def stringChars (quote : Char) : Nat → List Char → Except LexFault (List Char)
  | _, [] => .error .unterminatedString
  | skip + 1, _ :: rest => stringChars quote skip rest
  | 0, c :: rest =>
    if c = quote then .ok []
    else if c = '\\' then
      match rest with
      | [] => .error .unterminatedString
      | 'u' :: more => do
        let (char, length) ← codeEscape more
        (char :: ·) <$> stringChars quote (1 + length) rest
      | letter :: _ =>
        match escapedChar? letter with
        | some char => (char :: ·) <$> stringChars quote 1 rest
        | none => .error (.unknownEscape letter)
    else (c :: ·) <$> stringChars quote 0 rest

/-- A string; `quote` is its first character. -/
def string (quote : Char) (rest : List Char) : Scan :=
  let length := stringLength quote false rest
  let reading := match stringChars quote 0 (rest.take length) with
    | .ok chars => .token (.string (String.ofList chars))
    | .error fault => .rejected fault
  ⟨reading, 1 + length⟩

/-- The first `length` characters as a number that cannot be read. -/
def malformedNumber (text : List Char) (length : Nat) : Scan :=
  ⟨.rejected (.malformedNumber (String.ofList (text.take length))), length⟩

/-- A number in the digits of a base, behind the two characters that announce it.  Letters, digits
and points that follow belong to it and spoil it. -/
def code (base : Nat) (text : List Char) : Scan :=
  let digits := (text.drop 2).takeWhile fun c => isNameChar c || c = '.'
  match Number.readCode? base digits with
  | some x => ⟨.token (.number x), 2 + digits.length⟩
  | none => malformedNumber text (2 + digits.length)

/-- A decimal number; the text begins with a digit, or with a point and a digit. -/
def decimal (text : List Char) : Scan :=
  let whole := text.takeWhile isDigit
  let behind := text.drop whole.length
  let point := if behind.head? = some '.' then 1 else 0
  let fraction := if point = 1 then (behind.drop 1).takeWhile isDigit else []
  let mantissa := whole.length + point + fraction.length
  match text.drop mantissa with
  | '.' :: more =>
    malformedNumber text (mantissa + 1 + (more.takeWhile fun c => isDigit c || c = '.').length)
  | c :: more =>
    if c = 'e' ∨ c = 'E' then
      let sign := if more.head? = some '+' ∨ more.head? = some '-' then 1 else 0
      let power := (more.drop sign).takeWhile isDigit
      if power.isEmpty then malformedNumber text (mantissa + 1 + sign)
      else
        let magnitude : Int := Number.ofDigits 10 power
        let power10 := if more.head? = some '-' then -magnitude else magnitude
        ⟨.token (.number (Number.ofDecimalText whole fraction power10)),
          mantissa + 1 + sign + power.length⟩
    else ⟨.token (.number (Number.ofDecimalText whole fraction 0)), mantissa⟩
  | [] => ⟨.token (.number (Number.ofDecimalText whole fraction 0)), mantissa⟩

/-- A number of any form. -/
def number (text : List Char) : Scan :=
  match text with
  | '0' :: 'x' :: _ | '0' :: 'X' :: _ => code 16 text
  | '0' :: 'b' :: _ | '0' :: 'B' :: _ => code 2 text
  | _ => decimal text

/-- A name or keyword; `c` is its first character. -/
def word (c : Char) (rest : List Char) : Scan :=
  let text := String.ofList (c :: rest.takeWhile isNameChar)
  let token := match Keyword.ofSpelling? text with
    | some keyword => .keyword keyword
    | none => .name text
  ⟨.token token, 1 + (rest.takeWhile isNameChar).length⟩

/-- A name that begins with a dollar sign, which a letter has to follow. -/
def dollarName (rest : List Char) : Scan :=
  let letters := rest.takeWhile isNameChar
  let text := String.ofList ('$' :: letters)
  let reading := if (rest.head?.any Char.isAlpha) then Reading.token (.name text)
    else .rejected (.malformedName text)
  ⟨reading, 1 + letters.length⟩

/-- Signs, brackets and separators.  Bullets stand for the sign of multiplication, one bar for
two. -/
def punctuation? (c : Char) (next? : Option Char) : Option (Token × Nat) :=
  let pair (next : Char) (both one : Sign) : Option (Token × Nat) :=
    if next? = some next then some (.sign both, 2) else some (.sign one, 1)
  match c with
  | '(' => some (.bracket .roundOpen, 1)
  | ')' => some (.bracket .roundClose, 1)
  | '[' => some (.bracket .squareOpen, 1)
  | ']' => some (.bracket .squareClose, 1)
  | '\x7b' => some (.bracket .curlyOpen, 1)
  | '\x7d' => some (.bracket .curlyClose, 1)
  | ',' => some (.comma, 1)
  | ';' => some (.semicolon, 1)
  | '+' => some (.sign .plus, 1)
  | '-' => some (.sign .minus, 1)
  | '*' => some (.sign .times, 1)
  | '\u2219' => some (.sign .times, 1)
  | '\u2022' => some (.sign .times, 1)
  | '/' => some (.sign .slash, 1)
  | '%' => some (.sign .percent, 1)
  | '^' => some (.sign .caret, 1)
  | '?' => some (.sign .question, 1)
  | ':' => some (.sign .colon, 1)
  | '.' => some (.sign .dot, 1)
  | '!' => pair '=' .notEqual .bang
  | '=' => pair '=' .equal .assign
  | '<' => pair '=' .lessEqual .less
  | '>' => pair '=' .greaterEqual .greater
  | '|' => pair '|' .bars .bars
  | _ => none

/-- What stands at the beginning of the text `c :: rest`. -/
def scan (c : Char) (rest : List Char) : Scan :=
  if isGap c then ⟨.gap, 1 + (rest.takeWhile isGap).length⟩
  else if c = '/' ∧ rest.head? = some '*' then ⟨.gap, 2 + commentLength (rest.drop 1)⟩
  else if isDigit c ∨ (c = '.' ∧ rest.head?.any isDigit) then number (c :: rest)
  else if c = '\x22' ∨ c = '\x27' then string c rest
  else if isNameStart c then word c rest
  else if c = '$' then dollarName rest
  else match punctuation? c rest.head? with
    | some (token, length) => ⟨.token token, length⟩
    | none => ⟨.rejected (.unknownCharacter c), 1⟩

end Scan

/-- A piece of a text that is no gap. -/
inductive Lexeme
  | token (t : PlacedToken)
  /-- Text that is no token, with the bytes that it covers. -/
  | rejected (fault : LexFault) (start stop : Nat)
  deriving DecidableEq

namespace Lexeme

/-- The offset of the first byte. -/
def start : Lexeme → Nat
  | token t => t.start
  | rejected _ start _ => start

/-- The offset behind the last byte. -/
def stop : Lexeme → Nat
  | token t => t.stop
  | rejected _ _ stop => stop

/-- What was found, at its place. -/
def ofReading? (reading : Reading) (start stop : Nat) : Option Lexeme :=
  match reading with
  | .gap => none
  | .token t => some (.token ⟨t, start, stop⟩)
  | .rejected fault => some (.rejected fault start stop)

end Lexeme

/-- The pieces of a text that begins at byte `offset` and whose first `skip` characters belong to
the piece before. -/
def lexemesFrom : Nat → Nat → List Char → List Lexeme
  | _, _, [] => []
  | skip + 1, offset, c :: rest => lexemesFrom skip (offset + c.utf8Size) rest
  | 0, offset, c :: rest =>
    let scanned := Scan.scan c rest
    let stop := offset + byteLength ((c :: rest).take scanned.length)
    let later := lexemesFrom (scanned.length - 1) (offset + c.utf8Size) rest
    match Lexeme.ofReading? scanned.reading offset stop with
    | some lexeme => lexeme :: later
    | none => later

/-- The pieces of a source text, without the gaps. -/
def lexemes (source : List Char) : List Lexeme := lexemesFrom 0 0 source

/-- The token behind a source text. -/
def finishOf (source : List Char) : PlacedToken :=
  ⟨.finish, byteLength source, byteLength source⟩

/-- The error for text that is no token. -/
def LexFault.toError (fault : LexFault) (source : String) (start : Nat) : Error :=
  ⟨.lex fault, some (Position.locate source.toList start), some source⟩

/-- All tokens of a row of pieces, or the first error. -/
def tokensOf (source : String) : List Lexeme → Except Error (List PlacedToken)
  | [] => .ok []
  | .token t :: rest => (t :: ·) <$> tokensOf source rest
  | .rejected fault start _ :: _ => .error (fault.toError source start)

/-- The tokens of a source text and the end behind them, or the first error. -/
def tokenize (source : String) : Except Error (List PlacedToken) :=
  (· ++ [finishOf source.toList]) <$> tokensOf source (lexemes source.toList)

end Formula
