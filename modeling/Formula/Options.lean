import Formula.Dict
import Formula.Operator

/-! # Configuration

Every operator is on unless a switch turns it off.  A switch has a name of its own; some switches
govern several operator signs, and a sign may belong to different switches on different sides of
its operand.
-/
namespace Formula

/-- What expressions may use. -/
structure Options where
  /-- Whether `.` and `[…]` may reach into values. -/
  allowMemberAccess : Bool := true
  /-- The switches that are set; all others are on. -/
  operators : Dict Bool := []
  /-- How deep expressions may nest, and programs and calls when they run. -/
  maxDepth : Nat := 128
  deriving DecidableEq

instance : Inhabited Options := ⟨{}⟩

namespace Options

/-- The switch that governs an operator on a side of its operand, if any does. -/
def switch? (symbol : String) : Fixity → Option String
  | .before =>
    match symbol with
    | "+" => some "add"
    | "-" => some "subtract"
    | "not" => some "logical"
    | name => if (NamedOp.ofName? name).isSome then some name else none
  | .between =>
    match symbol with
    | "+" => some "add"
    | "-" => some "subtract"
    | "*" => some "multiply"
    | "/" => some "divide"
    | "%" => some "remainder"
    | "^" => some "power"
    | "==" | "!=" | "<" | "<=" | ">" | ">=" => some "comparison"
    | "||" => some "concatenate"
    | "and" | "or" => some "logical"
    | "?" | ":" => some "conditional"
    | "in" => some "in"
    | "=" => some "assignment"
    | _ => none
  | .after => if symbol = "!" then some "factorial" else none

variable (options : Options)

/-- Whether a switch is on. -/
def isOn (switch : String) : Bool := (options.operators.get? switch).getD true

/-- Whether an operator may be used on a side of its operand. -/
def allows (symbol : String) (fixity : Fixity) : Bool :=
  match switch? symbol fixity with
  | some switch => options.isOn switch
  | none => true

/-- Whether functions may be defined: that also takes assignment. -/
def allowsDefinition : Bool := options.isOn "fndef" && options.isOn "assignment"

/-- Whether conditions with `?` and `case` blocks may be used. -/
def allowsConditional : Bool := options.isOn "conditional"

/-- Whether arrays may be written. -/
def allowsArray : Bool := options.isOn "array"

/-- The operator of a name, if there is one and it is on. -/
def namedOp? (name : String) : Option NamedOp :=
  if options.allows name .before then NamedOp.ofName? name else none

/-- Sets a switch. -/
def withOperator (switch : String) (on : Bool) : Options :=
  { options with operators := options.operators.insert switch on }

/-- Allows or forbids reaching into values. -/
def withMemberAccess (allow : Bool) : Options := { options with allowMemberAccess := allow }

/-- Sets the limit of nesting. -/
def withMaxDepth (depth : Nat) : Options := { options with maxDepth := depth }

end Options
end Formula
