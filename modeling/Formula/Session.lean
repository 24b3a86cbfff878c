import Formula.Expression

/-! # Sessions

A session is a compiler, the variables of its caller and expressions under names, and what a caller
can do with them one after the other.  Every registration and every function that a program
defines takes a new identity from the one supply of the session, so an identity never comes back.
-/
namespace Formula

/-- How a host function answers: after the calls made before, to its arguments. -/
abbrev HostAnswer := List HostCall → List Value → Except Error Value

/-- A compiler, variables and named expressions. -/
structure Session where
  compiler : Compiler := {}
  context : Context := {}
  expressions : Dict Expression := []

namespace Session
variable (s : Session)

/-- Compiles and runs a text. -/
def evaluate (source : String) : Except Error Value × Session :=
  let (result, context) := s.compiler.evaluate source s.context
  (result, { s with context })

/-- Compiles a text; a compiled expression is kept under a name. -/
def compile (source name : String) : Except Error Expression × Session :=
  match s.compiler.compile source with
  | .ok e => (.ok e, { s with expressions := s.expressions.insert name e })
  | .error error => (.error error, s)

/-- Runs an expression. -/
def run (e : Expression) : Except Error Value × Session :=
  let (result, context) := e.evaluate s.context
  (result, { s with context })

/-- Keeps an expression under a name. -/
def keep (name : String) (e : Expression) : Session :=
  { s with expressions := s.expressions.insert name e }

/-- Registers a function under a name, with an identity of its own. -/
def register (name : String) (answer : HostAnswer) : HostFunction × Session :=
  let f : HostFunction := ⟨s.context.nextId, name, answer⟩
  (f, { s with
    compiler := s.compiler.register f
    context := { s.context with nextId := s.context.nextId + 1 } })

/-- Takes a registration out and answers the function that was registered. -/
def unregister (name : String) : Option HostFunction × Session :=
  (s.compiler.functions.get? name, { s with compiler := s.compiler.unregister name })

/-- Calls a registered function from outside of any expression. -/
def call (name : String) (arguments : List Value) : Option (Except Error Value) × Session :=
  match s.compiler.functions.get? name with
  | some f =>
    match Evaluation.callHost f arguments { s.context with } with
    | .ok v scope => (some (.ok v), { s with context := scope.toContext })
    | .error e scope => (some (.error e), { s with context := scope.toContext })
  | none => (none, s)

/-- Makes a name stand for a value in texts compiled from now on. -/
def defineConstant (name : String) (v : Value) : Session :=
  { s with compiler := s.compiler.defineConstant name v }

/-- Takes a constant away and answers its value. -/
def removeConstant (name : String) : Option Value × Session :=
  (s.compiler.constants.get? name, { s with compiler := s.compiler.removeConstant name })

/-- Starts over with a new compiler; variables and expressions stay. -/
def reset (options : Options) : Session := { s with compiler := { options } }

/-- Stores to a variable. -/
def setVariable (name : String) (v : Value) : Session :=
  { s with context := { s.context with globals := s.context.globals.insert name v } }

/-- Takes a variable away and answers whether there was one. -/
def removeVariable (name : String) : Bool × Session :=
  (s.context.globals.contains name,
    { s with context := { s.context with globals := s.context.globals.erase name } })

end Session
end Formula
