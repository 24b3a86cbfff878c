import Formula.Position
import Formula.Token

/-! # Errors

A fault is a cause, with what a message needs to know of it; `Fault.message` words it.  An error
is a fault with the place in the source text where it was noticed, if it was noticed while reading,
and with the text of the expression that it belongs to.
-/
namespace Formula

/-- Why the beginning of a text is no token. -/
inductive LexFault
  | unknownCharacter (c : Char)
  | malformedNumber (text : String)
  | unterminatedString
  | unknownEscape (c : Char)
  /-- `\u` without four hexadecimal digits; `digits` is what was found instead. -/
  | malformedCodeEscape (digits : String)
  /-- A surrogate that is not the first half of a pair with its second half. -/
  | unpairedSurrogate (code : Nat)
  | malformedName (text : String)
  deriving DecidableEq

namespace LexFault

/-- The wording of a lexical fault. -/
def message : LexFault → String
  | unknownCharacter c => "unknown character '" ++ c.toString ++ "'"
  | malformedNumber text => "invalid number literal '" ++ text ++ "'"
  | unterminatedString => "unterminated string literal"
  | unknownEscape c => "invalid escape sequence '\\" ++ c.toString ++ "'"
  | malformedCodeEscape digits => "invalid unicode escape '\\u" ++ digits ++ "'"
  | unpairedSurrogate code =>
    "invalid unicode escape '\\u" ++ String.ofList ((Text.hexDigits 4 code).map Char.toUpper) ++ "'"
  | malformedName text => "invalid name '" ++ text ++ "': '$' must be followed by a letter"

end LexFault

/-- Why tokens are no expression. -/
inductive ParseFault
  | unexpected (found : Token)
  | expected (wanted found : Token)
  /-- One of the words of a `case` block is missing. -/
  | expectedWord (word : String) (found : Token)
  | expectedKey (found : Token)
  /-- One of the words of a `case` block stands outside of any. -/
  | strayWord (word : String)
  | operatorOff (symbol : String)
  | definitionOff
  | arraysOff
  /-- What is assigned to is no variable and no path from one. -/
  | noTarget
  /-- A parameter of a definition, or the function, is not just a name. -/
  | noParameter
  | tooDeep (limit : Nat)
  /-- A fault that the user of a token cursor words. -/
  | note (text : String)
  deriving DecidableEq

/-- The wording for nesting beyond the limit, while reading and while running. -/
def tooDeepMessage (limit : Nat) : String :=
  "expression nesting exceeds maximum depth of " ++ toString limit

namespace ParseFault

/-- The wording of a fault of grammar. -/
def message : ParseFault → String
  | unexpected found => "unexpected " ++ found.describe
  | expected wanted found => "expected " ++ wanted.describe ++ ", got " ++ found.describe
  | expectedWord word found => "expected '" ++ word ++ "', got " ++ found.describe
  | expectedKey found => "expected object key, got " ++ found.describe
  | strayWord word => "'" ++ word ++ "' outside of a case block"
  | operatorOff symbol => "operator '" ++ symbol ++ "' is not enabled"
  | definitionOff => "function definition is not enabled"
  | arraysOff => "array literals are not enabled"
  | noTarget => "expected variable for assignment"
  | noParameter => "function parameters must be plain variable names"
  | tooDeep limit => tooDeepMessage limit
  | note text => text

end ParseFault

/-- Why a name may not be used to reach into a value. -/
inductive AccessFault
  | memberAccessOff
  | protectedName (name : String)
  /-- Raised by a function of the host. -/
  | host (text : String)
  deriving DecidableEq

namespace AccessFault

/-- The wording of a fault of access. -/
def message : AccessFault → String
  | memberAccessOff => "member access is not permitted"
  | protectedName name => "prototype access detected: '" ++ name ++ "'"
  | host text => text

end AccessFault

/-- Why a value cannot be called. -/
inductive CallFault
  | notAFunction (typeName : String)
  | notAllowed (name : String)
  /-- Raised by a function of the host. -/
  | host (text : String)
  deriving DecidableEq

namespace CallFault

/-- The wording of a fault of a call. -/
def message : CallFault → String
  | notAFunction typeName => typeName ++ " is not a function"
  | notAllowed name => "'" ++ name ++ "' is not an allowed function"
  | host text => text

end CallFault

/-- Why a program cannot go on. -/
inductive EvaluationFault
  /-- An instruction found too few operands. -/
  | underflow
  /-- An operand was of the wrong sort, or operands were left over. -/
  | parity
  | unknownUnary (spelling : String)
  | unknownBinary (spelling : String)
  | unknownTernary (spelling : String)
  | undefinedVariable (name : String)
  /-- A value was to be stored to something that is not a name. -/
  | noTarget
  | tooDeep (limit : Nat)
  | noProperties (name typeName : String)
  | noEntries (key typeName : String)
  | fractionalIndex (index : Float)
  | cannotSetProperty (name typeName : String)
  /-- Raised by a function of the host. -/
  | host (text : String)
  deriving DecidableEq

namespace EvaluationFault

/-- The wording of a fault of evaluation. -/
def message : EvaluationFault → String
  | underflow => "invalid expression: stack underflow"
  | parity => "invalid expression: stack parity"
  | unknownUnary spelling => "unknown unary operator '" ++ spelling ++ "'"
  | unknownBinary spelling => "unknown binary operator '" ++ spelling ++ "'"
  | unknownTernary spelling => "unknown ternary operator '" ++ spelling ++ "'"
  | undefinedVariable name => "undefined variable: " ++ name
  | noTarget => "expected variable for assignment"
  | tooDeep limit => tooDeepMessage limit
  | noProperties name typeName => "cannot read property '" ++ name ++ "' of " ++ typeName
  | noEntries key typeName => "cannot index " ++ typeName ++ " with '" ++ key ++ "'"
  | fractionalIndex index =>
    "array index must be an integer, got " ++ Number.messageText index
  | cannotSetProperty name typeName => "cannot set property '" ++ name ++ "' on " ++ typeName
  | host text => text

end EvaluationFault

/-- The five kinds of errors. -/
inductive ErrorKind
  | lex | parse | access | call | evaluation
  deriving DecidableEq, Repr

/-- A cause of an error. -/
inductive Fault
  | lex (f : LexFault)
  | parse (f : ParseFault)
  | access (f : AccessFault)
  | call (f : CallFault)
  | evaluation (f : EvaluationFault)
  deriving DecidableEq

namespace Fault

/-- The kind of error that a fault makes. -/
def kind : Fault → ErrorKind
  | lex _ => .lex
  | parse _ => .parse
  | access _ => .access
  | call _ => .call
  | evaluation _ => .evaluation

/-- What is wrong, in words. -/
def message : Fault → String
  | lex f => f.message
  | parse f => f.message
  | access f => f.message
  | call f => f.message
  | evaluation f => f.message

end Fault

/-- A fault, where it was noticed, and the expression it belongs to. -/
structure Error where
  fault : Fault
  /-- The place in the source text; faults of running have none. -/
  position : Option Position
  /-- The text of the expression, as far as known. -/
  source : Option String
  deriving DecidableEq

namespace Error

/-- A fault of running a program, before it is known from which text the program came. -/
def ofFault (fault : Fault) : Error := ⟨fault, none, none⟩

/-- The kind of the error. -/
def kind (e : Error) : ErrorKind := e.fault.kind

/-- What is wrong, in words. -/
def message (e : Error) : String := e.fault.message

/-- Names the text of the expression, unless one is named already. -/
def withSource (e : Error) (source : String) : Error :=
  { e with source := e.source.or (some source) }

/-- The error in one line: kind, place and message. -/
def display (e : Error) : String :=
  let place := match e.position with
    | some p => " [" ++ p.text ++ "]"
    | none => ""
  match e.kind with
  | .lex => "lex error" ++ place ++ " " ++ e.message
  | .parse => "parse error" ++ place ++ " " ++ e.message
  | .access => "access error" ++ place ++ ": " ++ e.message
  | .call => "function error: " ++ e.message
  | .evaluation => "evaluation error: " ++ e.message

theorem withSource_source (e : Error) {text : String} (known : e.source = some text)
    (other : String) : e.withSource other = e := by
  cases e; simp_all [withSource]

end Error
end Formula
