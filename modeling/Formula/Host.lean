import Formula.Error
import Formula.Value

/-! # Functions of the host

A host lends functions to expressions by registering them under names.  Every registration has an
identity of its own, and a registry lets only those functions be called whose registration it
holds.  What a host function answers may depend on its arguments and on all calls before.
-/
namespace Formula

/-- One call of a host function. -/
structure HostCall where
  /-- The registration that was called. -/
  id : Nat
  /-- The name it was registered under. -/
  name : String
  arguments : List Value

/-- A registered function. -/
structure HostFunction where
  id : Nat
  name : String
  /-- The answer to arguments after the calls made before, the earliest first. -/
  answer : List HostCall → List Value → Except Error Value

/-- The function as a value. -/
def HostFunction.value (f : HostFunction) : Value := .function (.host f.id f.name)

/-- The functions that may be called, by name. -/
structure Registry where
  functions : Dict HostFunction := []

namespace Registry
variable (registry : Registry)

/-- The function that is registered under a name. -/
def get? (name : String) : Option HostFunction := registry.functions.get? name

/-- Whether a function is registered under a name. -/
def contains (name : String) : Bool := (registry.get? name).isSome

/-- The function of a registration. -/
def ofId? (id : Nat) : Option HostFunction :=
  (registry.functions.find? fun entry => entry.2.id = id).map Prod.snd

/-- Whether a registration is held. -/
def containsId (id : Nat) : Bool := (registry.ofId? id).isSome

/-- Registers a function under its name, in place of one that was registered before. -/
def register (f : HostFunction) : Registry := ⟨registry.functions.insert f.name f⟩

/-- Takes the function of a name out. -/
def remove (name : String) : Registry := ⟨registry.functions.erase name⟩

/-- The registered names, in order. -/
def names : List String := registry.functions.names

/-- The registered names in a line for logs. -/
def describe : String := "[" ++ ", ".intercalate (registry.names.map Text.shown) ++ "]"

/-- How many functions are registered. -/
def size : Nat := registry.functions.length

end Registry
end Formula
