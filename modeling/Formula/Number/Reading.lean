import Formula.Number.Shortest
import Formula.Text.Blank

/-! # Reading numbers

The value of decimal, hexadecimal and binary digits, and the conversion of a whole text to a
number.  A decimal goes to the nearest number, of two to the even one.
-/
namespace Formula.Number

/-- The value of a digit, for bases up to sixteen. -/
def digitValue? (base : Nat) (c : Char) : Option Nat :=
  let value? :=
    if '0' ≤ c ∧ c ≤ '9' then some (c.toNat - '0'.toNat)
    else if 'a' ≤ c ∧ c ≤ 'f' then some (c.toNat - 'a'.toNat + 10)
    else if 'A' ≤ c ∧ c ≤ 'F' then some (c.toNat - 'A'.toNat + 10)
    else none
  value?.filter (· < base)

/-- Whether a character is a digit of the base. -/
def isDigit (base : Nat) (c : Char) : Bool := (digitValue? base c).isSome

/-- The number that a row of digits denotes. -/
def ofDigits (base : Nat) (digits : List Char) : Nat :=
  digits.foldl (fun n c => base * n + (digitValue? base c).getD 0) 0

/-- The number nearest to `coefficient · 10 ^ exponent`.  Far outside the range of the format the
answer is known without computing the power. -/
def ofDecimal (d : Decimal) : Float :=
  if d.coefficient = 0 then 0.0
  else
    let top : Int := Decimal.digitCount d.coefficient + d.exponent
    if 400 < top then Binary64.infinity
    else if top < -400 then 0.0
    else Float.ofModel (Float.Model.ofScientific d.coefficient d.exponent)

/-- The number written as `whole.fraction` times a power of ten. -/
def ofDecimalText (whole fraction : List Char) (power : Int) : Float :=
  ofDecimal ⟨ofDigits 10 (whole ++ fraction), power - fraction.length⟩

/-- Takes a sign off a text: whether it was a minus, and what stands behind it. -/
def splitSign : List Char → Bool × List Char
  | '-' :: rest => (true, rest)
  | '+' :: rest => (false, rest)
  | text => (false, text)

/-- A whole number in decimal digits with an optional sign. -/
def readPower? (text : List Char) : Option Int :=
  let (negative, digits) := splitSign text
  if digits.isEmpty || !digits.all (isDigit 10) then none
  else
    let n : Int := ofDigits 10 digits
    some (if negative then -n else n)

/-- A whole text as a decimal number: sign, digits with an optional point and an optional power of
ten.  At least one digit stands before the power. -/
def readDecimal? (text : List Char) : Option Float :=
  let (negative, body) := splitSign text
  let whole := body.takeWhile (isDigit 10)
  let (fraction, rest) := match body.dropWhile (isDigit 10) with
    | '.' :: behind => (behind.takeWhile (isDigit 10), behind.dropWhile (isDigit 10))
    | behind => ([], behind)
  let power? := match rest with
    | [] => some 0
    | c :: behind => if c = 'e' ∨ c = 'E' then readPower? behind else none
  if whole.isEmpty && fraction.isEmpty then none
  else power?.map fun power => Binary64.signed negative (ofDecimalText whole fraction power)

/-- The largest number that hexadecimal and binary digits may denote. -/
def maxCode : Nat := Nat.pow 2 64 - 1

/-- Digits of a base as a number up to `maxCode`. -/
def readCode? (base : Nat) (digits : List Char) : Option Float :=
  if digits.isEmpty || !digits.all (isDigit base) then none
  else
    let n := ofDigits base digits
    if n ≤ maxCode then some (Binary64.ofNat n) else none

/-- Drops one leading plus sign. -/
def dropPlus : List Char → List Char
  | '+' :: rest => rest
  | text => text

/-- Whether a character is an ASCII letter other than the one that announces a power of ten. -/
def isForeignLetter (c : Char) : Bool := c.isAlpha && c != 'e' && c != 'E'

/-- The number a text stands for in arithmetic.  White space at the ends does not count, a blank
text is zero, and a text that is no number is `NaN`.  Hexadecimal and binary digits follow `0x` and
`0b`; a plus sign may stand between. -/
def ofText (text : String) : Float :=
  let body := Text.trim text.toList
  let read? : Option Float :=
    if body = [] then some 0.0
    else if body = "Infinity".toList ∨ body = "+Infinity".toList then some Binary64.infinity
    else if body = "-Infinity".toList then some (-Binary64.infinity)
    else match body with
      | '0' :: 'x' :: digits | '0' :: 'X' :: digits => readCode? 16 (dropPlus digits)
      | '0' :: 'b' :: digits | '0' :: 'B' :: digits => readCode? 2 (dropPlus digits)
      | _ => if body.any isForeignLetter then none else readDecimal? body
  read?.getD Binary64.nan

example : ofText " 12.5e-1 " = 1.25 ∧ ofText "0xFF" = 255.0 ∧ ofText "-.5" = -0.5 ∧ ofText "" = 0.0
    ∧ (ofText "1e").isNaN := by decide +kernel

end Formula.Number
