/-! # Operators

The operators of the language and the spelling of each.  Compiled programs may also name operators
that do not exist; these are kept under the spelling that was asked for and fail when they run.
-/
namespace Formula

/-- The named operators: each is written before its operand, is called like a function, and is a
function value. -/
inductive NamedOp
  | sin | cos | tan | asin | acos | atan | sinh | cosh | tanh | asinh | acosh | atanh
  | sqrt | cbrt | log | ln | log2 | log10 | lg | expm1 | log1p | abs | ceil | floor | round
  | trunc | exp | sign | length | not
  deriving DecidableEq, Repr

namespace NamedOp

/-- Every named operator. -/
def all : List NamedOp :=
  [sin, cos, tan, asin, acos, atan, sinh, cosh, tanh, asinh, acosh, atanh, sqrt, cbrt, log, ln,
    log2, log10, lg, expm1, log1p, abs, ceil, floor, round, trunc, exp, sign, length, not]

/-- The name. -/
def name : NamedOp → String
  | sin => "sin" | cos => "cos" | tan => "tan" | asin => "asin" | acos => "acos"
  | atan => "atan" | sinh => "sinh" | cosh => "cosh" | tanh => "tanh" | asinh => "asinh"
  | acosh => "acosh" | atanh => "atanh" | sqrt => "sqrt" | cbrt => "cbrt" | log => "log"
  | ln => "ln" | log2 => "log2" | log10 => "log10" | lg => "lg" | expm1 => "expm1"
  | log1p => "log1p" | abs => "abs" | ceil => "ceil" | floor => "floor" | round => "round"
  | trunc => "trunc" | exp => "exp" | sign => "sign" | length => "length" | not => "not"

/-- The operator of a name. -/
def ofName? (text : String) : Option NamedOp := all.find? fun op => op.name = text

theorem mem_all (op : NamedOp) : op ∈ all := by cases op <;> decide

theorem ofName?_name (op : NamedOp) : ofName? op.name = some op := by cases op <;> decide

theorem name_of_ofName? {text : String} {op : NamedOp} (found : ofName? text = some op) :
    op.name = text := by
  simpa using List.find?_some found

end NamedOp

/-- Operators with one operand. -/
inductive UnaryOp
  | negate
  | plus
  | factorial
  | named (op : NamedOp)
  /-- A spelling that no operator has. -/
  | unknown (spelling : String)
  deriving DecidableEq, Repr

namespace UnaryOp

/-- How the operator is written. -/
def symbol : UnaryOp → String
  | negate => "-"
  | plus => "+"
  | factorial => "!"
  | named op => op.name
  | unknown spelling => spelling

/-- The operator that is written so. -/
def ofSymbol (spelling : String) : UnaryOp :=
  if spelling = "-" then negate
  else if spelling = "+" then plus
  else if spelling = "!" then factorial
  else match NamedOp.ofName? spelling with
    | some op => named op
    | none => unknown spelling

theorem symbol_ofSymbol (spelling : String) : (ofSymbol spelling).symbol = spelling := by
  unfold ofSymbol
  split
  · simp_all [symbol]
  · split
    · simp_all [symbol]
    · split
      · simp_all [symbol]
      · split
        · next found => exact NamedOp.name_of_ofName? found
        · rfl

end UnaryOp

/-- Operators with two operands that both are evaluated, the left one first. -/
inductive BinaryOp
  | add | subtract | multiply | divide | remainder | power
  | equal | notEqual | less | lessEqual | greater | greaterEqual
  | concatenate
  | isIn
  /-- A spelling that no operator has. -/
  | unknown (spelling : String)
  deriving DecidableEq, Repr

namespace BinaryOp

/-- How the operator is written. -/
def symbol : BinaryOp → String
  | add => "+" | subtract => "-" | multiply => "*" | divide => "/" | remainder => "%"
  | power => "^"
  | equal => "==" | notEqual => "!=" | less => "<" | lessEqual => "<=" | greater => ">"
  | greaterEqual => ">="
  | concatenate => "||"
  | isIn => "in"
  | unknown spelling => spelling

/-- Every operator there is. -/
def all : List BinaryOp :=
  [add, subtract, multiply, divide, remainder, power, equal, notEqual, less, lessEqual, greater,
    greaterEqual, concatenate, isIn]

/-- The operator that is written so. -/
def ofSymbol (spelling : String) : BinaryOp :=
  (all.find? fun op => op.symbol = spelling).getD (unknown spelling)

theorem symbol_ofSymbol (spelling : String) : (ofSymbol spelling).symbol = spelling := by
  unfold ofSymbol
  cases found : all.find? fun op => op.symbol = spelling with
  | none => rfl
  | some op => simpa using List.find?_some found

end BinaryOp

/-- The side of its operands on which an operator symbol stands.  Signs are switched on and off
like the sums they look like, so the side matters to the configuration. -/
inductive Fixity
  | before
  | between
  | after
  deriving DecidableEq, Repr

end Formula
