import Formula.Number.Layout
import Formula.Number.Reading
import Formula.Value

/-! # Conversions of values

Truth, number and text of a value.  Operators convert their operands; nothing converts silently
where values are compared for equality.
-/
namespace Formula

namespace Value

/-- Whether a value counts as true. -/
def isTruthy : Value → Bool
  | undefined | null => false
  | bool b => b
  | number x => !(x == 0.0) && !x.isNaN
  | string s => s != ""
  | array _ | object _ | function _ => true

end Value

mutual

/-- The number that a value stands for in arithmetic. -/
def Value.toNumber : Value → Float
  | .undefined => Binary64.nan
  | .null => 0.0
  | .bool b => if b then 1.0 else 0.0
  | .number x => x
  | .string s => Number.ofText s
  | .array items => itemsToNumber items
  | .object _ => Binary64.nan
  | .function _ => Binary64.nan

/-- The number of an array: none is zero, one item counts as itself. -/
def itemsToNumber : List Value → Float
  | [] => 0.0
  | [item] => item.toNumber
  | _ => Binary64.nan

end

mutual

/-- The text that a value is shown as. -/
def Value.text : Value → String
  | .undefined => "undefined"
  | .null => "null"
  | .bool b => if b then "true" else "false"
  | .number x => Number.text x
  | .string s => s
  | .array items => ",".intercalate (itemTexts items)
  | .object _ => "[object Object]"
  | .function f => "function " ++ f.name

/-- The text of an item of an array; what is missing shows nothing. -/
def itemText : Value → String
  | .undefined | .null => ""
  | .bool b => if b then "true" else "false"
  | .number x => Number.text x
  | .string s => s
  | .array items => ",".intercalate (itemTexts items)
  | .object _ => "[object Object]"
  | .function f => "function " ++ f.name

/-- The texts of the items of an array. -/
def itemTexts : List Value → List String
  | [] => []
  | item :: rest => itemText item :: itemTexts rest

end

/-- Items that are there are shown as they would be alone. -/
theorem itemText_eq (v : Value) :
    itemText v = match v with
      | .undefined | .null => ""
      | v => v.text := by
  cases v <;> simp [itemText, Value.text]

namespace Value

/-- The number of items or characters of a value; of other values, of their text. -/
def length : Value → Nat
  | array items => items.length
  | string s => s.length
  | other => other.text.length

end Value
end Formula
