import Formula.Text.Printable

/-! # Quoted text

Two quoted forms of a text.  `literal` is a string literal of the language and reads back as the
text; `shown` is for messages and makes every character visible.
-/
namespace Formula.Text

/-- At least `width` lower-case hexadecimal digits. -/
def hexDigits (width n : Nat) : List Char :=
  let digits := Nat.toDigits 16 n
  List.replicate (width - digits.length) '0' ++ digits

/-- Whether a character is one of the control codes. -/
def isControl (c : Char) : Bool := c.toNat < 0x20 || (0x7f ≤ c.toNat && c.toNat < 0xa0)

/-- A character inside a string literal. -/
def literalChar (c : Char) : List Char :=
  match c with
  | '\\' => ['\\', '\\']
  | '\x22' => ['\\', '\x22']
  | '\n' => ['\\', 'n']
  | '\r' => ['\\', 'r']
  | '\t' => ['\\', 't']
  | '\x08' => ['\\', 'b']
  | '\x0c' => ['\\', 'f']
  | c => if isControl c then '\\' :: 'u' :: hexDigits 4 c.toNat else [c]

/-- A text between double quotes, as the language writes it. -/
def literal (text : String) : String :=
  String.ofList ('\x22' :: text.toList.flatMap literalChar ++ ['\x22'])

/-- A character inside a shown text. -/
def shownChar (c : Char) : List Char :=
  match c with
  | '\\' => ['\\', '\\']
  | '\x22' => ['\\', '\x22']
  | '\n' => ['\\', 'n']
  | '\r' => ['\\', 'r']
  | '\t' => ['\\', 't']
  | '\x00' => ['\\', '0']
  | c =>
    if isPrintable c then [c] else '\\' :: 'u' :: '\x7b' :: hexDigits 1 c.toNat ++ ['\x7d']

/-- A text between double quotes, as messages show it. -/
def shown (text : String) : String :=
  String.ofList ('\x22' :: text.toList.flatMap shownChar ++ ['\x22'])

end Formula.Text
