import Formula.Error
import Formula.Value.Coercion

/-! # Reaching into values

Fields of objects, items of arrays and characters of texts.  Three names are protected: nothing is
ever read or stored under them.
-/
namespace Formula

/-- The names that reach nothing. -/
def protectedNames : List String := ["__proto__", "prototype", "constructor"]

/-- Whether a name is protected. -/
def isProtected (name : String) : Bool := protectedNames.contains name

/-- Lets every name pass that is not protected. -/
def checkName (name : String) : Except Fault Unit :=
  if isProtected name then .error (.access (.protectedName name)) else .ok ()

namespace Value

/-- The value under a plain name: a field of an object, or the length of an array or text. -/
def field (target : Value) (name : String) : Except Fault Value :=
  match target with
  | object fields => .ok ((Dict.get? fields name).getD undefined)
  | array items =>
    .ok (if name = "length" then number (Binary64.ofNat items.length) else undefined)
  | string s => .ok (if name = "length" then number (Binary64.ofNat s.length) else undefined)
  | undefined | null => .error (.evaluation (.noProperties name target.typeName))
  | bool _ | number _ | function _ => .ok undefined

/-- The value under a plain name that is not protected. -/
def member (target : Value) (name : String) : Except Fault Value := do
  checkName name
  target.field name

/-- The place that a number points to; none for a negative number. -/
def place? (i : Float) : Except Fault (Option Nat) :=
  if !Binary64.isWhole i then .error (.evaluation (.fractionalIndex i))
  else .ok (if i < 0.0 then none else some (Binary64.wholePart i))

/-- The item of an array at a place. -/
def itemAt (items : List Value) (place : Option Nat) : Value :=
  (place.bind fun n => items[n]?).getD undefined

/-- The character of a text at a place, as a text. -/
def characterAt (s : String) (place : Option Nat) : Value :=
  ((place.bind fun n => s.toList[n]?).map fun c => string c.toString).getD undefined

/-- The value under a computed key: an item or character by its place, all else by the text of the
key. -/
def entry (target key : Value) : Except Fault Value :=
  match target, key with
  | array items, number i => (place? i).map (itemAt items)
  | string s, number i => (place? i).map (characterAt s)
  | undefined, _ | null, _ => .error (.evaluation (.noEntries key.text target.typeName))
  | array _, string name | string _, string name => target.member name
  | object fields, _ => do
    let name := key.text
    checkName name
    pure ((Dict.get? fields name).getD undefined)
  | _, _ => .ok undefined

/-- The value under a computed key; a text may not be a protected name. -/
def index (target key : Value) : Except Fault Value := do
  if let string name := key then checkName name
  target.entry key

end Value
end Formula
