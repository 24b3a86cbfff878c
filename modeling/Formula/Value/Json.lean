import Formula.Value.Coercion

/-! # Values as JSON

JSON has no undefined value, no functions and no infinite numbers; they become null.  All other
values go to JSON and come back unchanged.
-/
namespace Formula

/-- JSON data. -/
inductive Json
  | null
  | bool (b : Bool)
  | number (x : Float)
  | string (s : String)
  | array (items : List Json)
  /-- Fields in ascending order of their names. -/
  | object (fields : List (String × Json))

instance : Inhabited Json := ⟨.null⟩

mutual

/-- A value as JSON. -/
def Value.toJson : Value → Json
  | .undefined => .null
  | .null => .null
  | .bool b => .bool b
  | .number x => if Binary64.isFinite x then .number x else .null
  | .string s => .string s
  | .array items => .array (itemsToJson items)
  | .object fields => .object (fieldsToJson fields)
  | .function _ => .null

/-- Items of an array as JSON. -/
def itemsToJson : List Value → List Json
  | [] => []
  | item :: rest => item.toJson :: itemsToJson rest

/-- Fields of an object as JSON. -/
def fieldsToJson : List (String × Value) → List (String × Json)
  | [] => []
  | (key, value) :: rest => (key, value.toJson) :: fieldsToJson rest

end

mutual

/-- JSON as a value. -/
def Value.ofJson : Json → Value
  | .null => .null
  | .bool b => .bool b
  | .number x => .number x
  | .string s => .string s
  | .array items => .array (itemsOfJson items)
  | .object fields => .object (fieldsOfJson fields)

/-- JSON items as items of an array. -/
def itemsOfJson : List Json → List Value
  | [] => []
  | item :: rest => Value.ofJson item :: itemsOfJson rest

/-- JSON fields as fields of an object. -/
def fieldsOfJson : List (String × Json) → List (String × Value)
  | [] => []
  | (key, value) :: rest => (key, Value.ofJson value) :: fieldsOfJson rest

end

end Formula
