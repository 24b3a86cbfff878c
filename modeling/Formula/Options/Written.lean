import Formula.Number.Reading
import Formula.Options

/-! # Configuration text

A configuration is written in JSON, as an object with the fields `allowMemberAccess`, `operators`
and `maxDepth`, or as an array with these values in this order.  What is missing has its default,
fields of other names are ignored, and a field of these names stands at most once.

The reader first takes the text apart by the grammar of JSON.  Numbers stay as they are written,
and a string whose surrogate escapes do not pair up stays without a text: only where a value is
used does it matter what it denotes.
-/
namespace Formula

/-- A JSON text, taken apart. -/
inductive Written
  | null
  | bool (b : Bool)
  | number (digits : List Char)
  | string (text : Option String)
  | array (items : List Written)
  | object (fields : List (Option String × Written))

namespace Written

/-- White space of JSON. -/
def isSpace (c : Char) : Bool := c = ' ' || c = '\n' || c = '\t' || c = '\r'

/-- The text behind its leading white space. -/
def skipSpace (text : List Char) : List Char := text.dropWhile isSpace

/-- The code point that a letter behind a backslash stands for. -/
def escapedCode? (c : Char) : Option Nat :=
  match c with
  | '\x22' => some 0x22
  | '\\' => some 0x5c
  | '/' => some 0x2f
  | 'b' => some 0x08
  | 'f' => some 0x0c
  | 'n' => some 0x0a
  | 'r' => some 0x0d
  | 't' => some 0x09
  | _ => none

/-- The code points of a string whose first quote has been read, with surrogates unpaired, and the
text behind the string.  The first `skip` characters belong to the escape before. -/
def codes : Nat → List Char → Option (List Nat × List Char)
  | _, [] => none
  | skip + 1, _ :: rest => codes skip rest
  | 0, c :: rest =>
    if c = '\x22' then some ([], rest)
    else if c.toNat < 0x20 then none
    else if c = '\\' then
      match rest with
      | [] => none
      | 'u' :: more =>
        let digits := more.take 4
        if digits.length = 4 ∧ digits.all (Number.isDigit 16) then
          (codes 5 rest).map fun (later, behind) => (Number.ofDigits 16 digits :: later, behind)
        else none
      | letter :: _ =>
        match escapedCode? letter, codes 1 rest with
        | some code, some (later, behind) => some (code :: later, behind)
        | _, _ => none
    else (codes 0 rest).map fun (later, behind) => (c.toNat :: later, behind)

/-- The characters of a row of code points; surrogates have to come in pairs. -/
def pairUp : List Nat → Option (List Char)
  | [] => some []
  | high :: rest =>
    if 0xD800 ≤ high ∧ high < 0xDC00 then
      match rest with
      | low :: more =>
        if 0xDC00 ≤ low ∧ low < 0xE000 then
          (Char.ofNat (0x10000 + (high - 0xD800) * 0x400 + (low - 0xDC00)) :: ·) <$> pairUp more
        else none
      | [] => none
    else if 0xDC00 ≤ high ∧ high < 0xE000 then none
    else (Char.ofNat high :: ·) <$> pairUp rest

/-- A string behind its first quote. -/
def readString? (text : List Char) : Option (Option String × List Char) :=
  (codes 0 text).map fun (found, behind) => ((pairUp found).map String.ofList, behind)

/-- A decimal digit. -/
def isDigit (c : Char) : Bool := Number.isDigit 10 c

/-- How long the number is with which a text begins: a whole number without leading zeros, and
optionally a fraction and a power of ten. -/
def numberLength? (text : List Char) : Option Nat := do
  let sign := if text.head? = some '-' then 1 else 0
  let whole := (text.drop sign).takeWhile isDigit
  if whole.isEmpty ∨ (1 < whole.length ∧ whole.head? = some '0') then none
  let wholeEnd := sign + whole.length
  let fractionEnd ← match text.drop wholeEnd with
    | '.' :: more =>
      let digits := more.takeWhile isDigit
      if digits.isEmpty then none else some (wholeEnd + 1 + digits.length)
    | _ => some wholeEnd
  match text.drop fractionEnd with
  | c :: more =>
    if c = 'e' ∨ c = 'E' then
      let powerSign := if more.head? = some '-' ∨ more.head? = some '+' then 1 else 0
      let digits := (more.drop powerSign).takeWhile isDigit
      if digits.isEmpty then none else some (fractionEnd + 1 + powerSign + digits.length)
    else some fractionEnd
  | [] => some fractionEnd

mutual

/-- The value with which a text begins, and the text behind it.  `fuel` bounds the nesting. -/
def readValue? : Nat → List Char → Option (Written × List Char)
  | 0, _ => none
  | fuel + 1, text =>
    match skipSpace text with
    | '\x7b' :: rest =>
      match skipSpace rest with
      | '\x7d' :: behind => some (.object [], behind)
      | rest => (readFields? fuel rest).map fun (fields, behind) => (.object fields, behind)
    | '[' :: rest =>
      match skipSpace rest with
      | ']' :: behind => some (.array [], behind)
      | rest => (readItems? fuel rest).map fun (items, behind) => (.array items, behind)
    | '\x22' :: rest => (readString? rest).map fun (s, behind) => (.string s, behind)
    | 't' :: 'r' :: 'u' :: 'e' :: behind => some (.bool true, behind)
    | 'f' :: 'a' :: 'l' :: 's' :: 'e' :: behind => some (.bool false, behind)
    | 'n' :: 'u' :: 'l' :: 'l' :: behind => some (.null, behind)
    | text => (numberLength? text).map fun n => (.number (text.take n), text.drop n)

/-- The items of an array behind its bracket, at least one. -/
def readItems? : Nat → List Char → Option (List Written × List Char)
  | 0, _ => none
  | fuel + 1, text => do
    let (item, behind) ← readValue? fuel text
    match skipSpace behind with
    | ',' :: rest =>
      let (items, behind) ← readItems? fuel rest
      pure (item :: items, behind)
    | ']' :: behind => pure ([item], behind)
    | _ => none

/-- The fields of an object behind its bracket, at least one. -/
def readFields? : Nat → List Char → Option (List (Option String × Written) × List Char)
  | 0, _ => none
  | fuel + 1, text =>
    match skipSpace text with
    | '\x22' :: rest => do
      let (key, behind) ← readString? rest
      match skipSpace behind with
      | ':' :: rest =>
        let (value, behind) ← readValue? fuel rest
        match skipSpace behind with
        | ',' :: rest =>
          let (fields, behind) ← readFields? fuel rest
          pure ((key, value) :: fields, behind)
        | '\x7d' :: behind => pure ([(key, value)], behind)
        | _ => none
      | _ => none
    | _ => none

end

/-- A whole text. -/
def read? (text : List Char) : Option Written :=
  match readValue? (text.length + 1) text with
  | some (written, behind) => if (skipSpace behind).isEmpty then some written else none
  | none => none

/-- A truth value. -/
def toBool? : Written → Option Bool
  | bool b => some b
  | _ => none

/-- A natural number of at most 64 bits, without sign, fraction and power of ten. -/
def toNat? : Written → Option Nat
  | number digits =>
    let n := Number.ofDigits 10 digits
    if digits.all isDigit ∧ n < Nat.pow 2 64 then some n else none
  | _ => none

/-- An object of truth values; of one name the last counts. -/
def toSwitches? : Written → Option (Dict Bool)
  | object fields => do
    let pairs ← fields.mapM fun (key?, value) => do pure (← key?, ← value.toBool?)
    pure (Dict.ofPairs pairs)
  | _ => none

end Written

namespace Options

/-- A configuration from its three values, those that are there. -/
def ofValues? (access switches depth : Option Written) : Option Options := do
  let allowMemberAccess ← match access with
    | some written => written.toBool?
    | none => some (default : Options).allowMemberAccess
  let operators ← match switches with
    | some written => written.toSwitches?
    | none => some (default : Options).operators
  let maxDepth ← match depth with
    | some written => written.toNat?
    | none => some (default : Options).maxDepth
  pure { allowMemberAccess, operators, maxDepth }

/-- The only value under a name: none if there is none, a failure if there are more. -/
def only? (fields : List (Option String × Written)) (name : String) : Option (Option Written) :=
  match fields.filter fun field => field.1 = some name with
  | [] => some none
  | [field] => some (some field.2)
  | _ => none

/-- A configuration from a JSON text that has been taken apart. -/
def ofWritten? : Written → Option Options
  | .object fields =>
    if fields.any fun field => field.1.isNone then none
    else do
      ofValues? (← only? fields "allowMemberAccess") (← only? fields "operators")
        (← only? fields "maxDepth")
  | .array items =>
    if 3 < items.length then none else ofValues? items[0]? items[1]? items[2]?
  | _ => none

/-- A configuration from its text. -/
def ofText? (text : String) : Option Options :=
  (Written.read? text.toList).bind ofWritten?

end Options
end Formula
