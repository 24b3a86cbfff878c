import Formula.Dict
import Formula.Operator

/-! # Values and programs

A value may be a function, a function may have been defined by running a program, and a program
may hold values, so the three are defined together.

A program is a list of instructions for a machine with one stack of operands.  A program inside a
program is an operand that is run only when an instruction asks for its value; that is how
branches, right sides of `and` and `or`, assigned values and function bodies wait.
-/
namespace Formula

mutual

/-- What an expression can evaluate to and what a variable can hold. -/
inductive Value
  /-- The value of what is missing. -/
  | undefined
  | null
  | bool (b : Bool)
  | number (x : Float)
  | string (s : String)
  | array (items : List Value)
  /-- Fields in ascending order of their names. -/
  | object (fields : List (String × Value))
  | function (f : Callable)

/-- What can be called. -/
inductive Callable
  /-- A named operator used as a value. -/
  | named (op : NamedOp)
  /-- A function of the host.  The registration it comes from is its identity: registering the
  same name again makes another function. -/
  | host (id : Nat) (name : String)
  /-- A function that a program defined. -/
  | closure (c : Closure)

/-- A function that a program defined. -/
structure Closure where
  /-- Two closures are the same function if the same run of a definition made them. -/
  id : Nat
  name : String
  params : List String
  body : List Instr
  /-- The local variables of the function body in which it was defined; a function defined outside
  of all others has none and reads the variables as they are when it is called. -/
  captured : Option (List (String × Value))

/-- One step of a program. -/
inductive Instr
  | literal (v : Value)
  | undefined
  | unary (op : UnaryOp)
  | binary (op : BinaryOp)
  /-- Whether both operands are true; the right one is run only after a true left one. -/
  | and
  /-- Whether an operand is true; the right one is run only after a false left one. -/
  | or
  /-- The entry of an operand under a computed key. -/
  | index
  /-- Stores an operand under the name that lies below it. -/
  | assign
  /-- Runs one of two operands, as the one below them decides. -/
  | choose
  /-- An operator with three operands that does not exist. -/
  | unknownTernary (spelling : String)
  /-- The value of a variable. -/
  | var (name : String)
  /-- A name that is stored to, not read: a variable with its path, a function or a parameter. -/
  | name (path : String)
  | call (arguments : Nat)
  /-- Makes a function of a name, names of parameters and a body. -/
  | define (params : Nat)
  | sub (body : List Instr)
  | member (name : String)
  | array (items : Nat)
  | objectStart
  | property (key : String)
  | objectEnd
  /-- Tests conditions in order and runs the result of the first that holds: of a subject, the
  first that equals it.  The flags tell whether there is a subject and a last result for the case
  that none holds. -/
  | caseOf (subject : Bool) (arms : Nat) (otherwise : Bool)
  /-- Runs the statement that came before and drops its value. -/
  | endStatement

end

/-- Instructions in the order in which they run. -/
abbrev Program := List Instr

instance : Inhabited Value := ⟨.undefined⟩

instance : Inhabited Instr := ⟨.undefined⟩

namespace Callable

/-- The name under which a function was registered or defined. -/
def name : Callable → String
  | named op => op.name
  | host _ name => name
  | closure c => c.name

/-- The function in a word for logs: what sort it is, its name, and what tells it from others. -/
def describe : Callable → String
  | named op => "Builtin(" ++ op.name ++ ")"
  | host id name => "Native(" ++ name ++ "#" ++ toString id ++ ")"
  | closure c => "Closure(" ++ c.name ++ "(" ++ ", ".intercalate c.params ++ "))"

/-- Functions are equal if they have one identity. -/
def same : Callable → Callable → Bool
  | named a, named b => a = b
  | host a _, host b _ => a = b
  | closure a, closure b => a.id = b.id
  | _, _ => false

end Callable

/-- The name of the kind of a value. -/
def Value.typeName : Value → String
  | .undefined => "undefined"
  | .null => "null"
  | .bool _ => "boolean"
  | .number _ => "number"
  | .string _ => "string"
  | .array _ => "array"
  | .object _ => "object"
  | .function _ => "function"

mutual

/-- Equality of the language: without conversion, item by item, with `NaN` unequal to itself and
the zeros equal. -/
def Value.same : Value → Value → Bool
  | .undefined, .undefined => true
  | .null, .null => true
  | .bool a, .bool b => a = b
  | .number a, .number b => a == b
  | .string a, .string b => a = b
  | .array a, .array b => sameItems a b
  | .object a, .object b => sameFields a b
  | .function a, .function b => a.same b
  | _, _ => false

/-- Equality item by item. -/
def sameItems : List Value → List Value → Bool
  | [], [] => true
  | a :: as, b :: bs => a.same b && sameItems as bs
  | _, _ => false

/-- Equality field by field. -/
def sameFields : List (String × Value) → List (String × Value) → Bool
  | [], [] => true
  | (j, a) :: as, (k, b) :: bs => (j = k) && a.same b && sameFields as bs
  | _, _ => false

end

mutual

/-- Equality of instructions; literals compare like values. -/
def Instr.same : Instr → Instr → Bool
  | .literal a, .literal b => a.same b
  | .undefined, .undefined => true
  | .unary a, .unary b => a = b
  | .binary a, .binary b => a = b
  | .and, .and => true
  | .or, .or => true
  | .index, .index => true
  | .assign, .assign => true
  | .choose, .choose => true
  | .unknownTernary a, .unknownTernary b => a = b
  | .var a, .var b => a = b
  | .name a, .name b => a = b
  | .call a, .call b => a = b
  | .define a, .define b => a = b
  | .sub a, .sub b => sameProgram a b
  | .member a, .member b => a = b
  | .array a, .array b => a = b
  | .objectStart, .objectStart => true
  | .property a, .property b => a = b
  | .objectEnd, .objectEnd => true
  | .caseOf s a e, .caseOf t b f => s = t && a = b && e = f
  | .endStatement, .endStatement => true
  | _, _ => false

/-- Equality of programs, instruction by instruction. -/
def sameProgram : List Instr → List Instr → Bool
  | [], [] => true
  | i :: is, j :: js => i.same j && sameProgram is js
  | _, _ => false

end

namespace Instr

/-- The instruction for an operator with two operands, by its spelling. -/
def ofBinarySymbol (spelling : String) : Instr :=
  if spelling = "and" then and
  else if spelling = "or" then or
  else if spelling = "[" then index
  else if spelling = "=" then assign
  else binary (BinaryOp.ofSymbol spelling)

/-- The instruction for an operator with three operands, by its spelling. -/
def ofTernarySymbol (spelling : String) : Instr :=
  if spelling = "?" then choose else unknownTernary spelling

end Instr
end Formula
