import Formula.Number.Gamma
import Formula.Number.Transcendental
import Formula.Value.Access

/-! # What operators compute

Arithmetic, comparison, concatenation and membership.  All of these operators have a result for
all operands; only an operator that does not exist fails.
-/
namespace Formula

/-- Applies a function of numbers to the number that a value stands for. -/
def Value.onNumber (f : Float → Float) (operand : Value) : Value := .number (f operand.toNumber)

/-- What a named operator makes of its operand. -/
def NamedOp.apply (op : NamedOp) (operand : Value) : Value :=
  match op with
  | .sin => operand.onNumber Float.sin
  | .cos => operand.onNumber Float.cos
  | .tan => operand.onNumber Float.tan
  | .asin => operand.onNumber Float.asin
  | .acos => operand.onNumber Float.acos
  | .atan => operand.onNumber Float.atan
  | .sinh => operand.onNumber Float.sinh
  | .cosh => operand.onNumber Float.cosh
  | .tanh => operand.onNumber Float.tanh
  | .asinh => operand.onNumber Float.asinh
  | .acosh => operand.onNumber Float.acosh
  | .atanh => operand.onNumber Number.atanh
  | .sqrt => operand.onNumber Float.sqrt
  | .cbrt => operand.onNumber Float.cbrt
  | .log => operand.onNumber Float.log
  | .ln => operand.onNumber Float.log
  | .log2 => operand.onNumber Float.log2
  | .log10 => operand.onNumber Float.log10
  | .lg => operand.onNumber Float.log10
  | .expm1 => operand.onNumber Number.expm1
  | .log1p => operand.onNumber Number.log1p
  | .abs => operand.onNumber Float.abs
  | .ceil => operand.onNumber Binary64.ceiling
  | .floor => operand.onNumber Binary64.floor
  | .round => operand.onNumber Binary64.round
  | .trunc => operand.onNumber Binary64.truncate
  | .exp => operand.onNumber Float.exp
  | .sign => operand.onNumber Binary64.sign
  | .length => .number (Binary64.ofNat operand.length)
  | .not => .bool (!operand.isTruthy)

/-- What an operator makes of its operand. -/
def UnaryOp.apply (op : UnaryOp) (operand : Value) : Except Fault Value :=
  match op with
  | .negate => .ok (operand.onNumber Float.neg)
  | .plus => .ok (operand.onNumber id)
  | .factorial => .ok (operand.onNumber Number.factorial)
  | .named op => .ok (op.apply operand)
  | .unknown spelling => .error (.evaluation (.unknownUnary spelling))

/-- Whether some part of a text is `part`. -/
def Text.occursIn (part : List Char) : List Char → Bool
  | [] => part.isEmpty
  | c :: rest => part.isPrefixOf (c :: rest) || occursIn part rest

namespace Value

/-- Texts compare by their characters, all else by numbers; `NaN` compares with nothing. -/
def less (left right : Value) : Bool :=
  match left, right with
  | string a, string b => a < b
  | _, _ => left.toNumber < right.toNumber

/-- Like `less`, or equal. -/
def lessEqual (left right : Value) : Bool :=
  match left, right with
  | string a, string b => !(b < a)
  | _, _ => left.toNumber ≤ right.toNumber

/-- Arrays are joined to an array, all else to a text. -/
def concatenate (left right : Value) : Value :=
  match left, right with
  | array a, array b => array (a ++ b)
  | _, _ => string (left.text ++ right.text)

/-- Whether a value is an item of an array, or its text a part of a text or a field's name. -/
def isIn (needle container : Value) : Bool :=
  match container with
  | array items => items.any fun item => item.same needle
  | string s => Text.occursIn needle.text.toList s.toList
  | object fields => Dict.contains fields needle.text
  | _ => false

end Value

/-- What an operator makes of its operands. -/
def BinaryOp.apply (op : BinaryOp) (left right : Value) : Except Fault Value :=
  match op with
  | .add => .ok (.number (left.toNumber + right.toNumber))
  | .subtract => .ok (.number (left.toNumber - right.toNumber))
  | .multiply => .ok (.number (left.toNumber * right.toNumber))
  | .divide => .ok (.number (left.toNumber / right.toNumber))
  | .remainder => .ok (.number (Binary64.remainder left.toNumber right.toNumber))
  | .power => .ok (.number (left.toNumber.pow right.toNumber))
  | .equal => .ok (.bool (left.same right))
  | .notEqual => .ok (.bool (!left.same right))
  | .less => .ok (.bool (left.less right))
  | .lessEqual => .ok (.bool (left.lessEqual right))
  | .greater => .ok (.bool (right.less left))
  | .greaterEqual => .ok (.bool (right.lessEqual left))
  | .concatenate => .ok (left.concatenate right)
  | .isIn => .ok (.bool (left.isIn right))
  | .unknown spelling => .error (.evaluation (.unknownBinary spelling))

end Formula
