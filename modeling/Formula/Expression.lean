import Formula.Evaluation.Machine
import Formula.Number.Gamma
import Formula.Program.Canonical
import Formula.Program.Folding
import Formula.Program.Names
import Formula.Program.Substitution
import Formula.Term.Parser

/-! # Expressions

A compiler turns source texts into expressions.  An expression carries its program and everything
that running it depends on: the configuration and the registered functions as they were when it was
compiled.  Later changes of the compiler do not reach it.

An expression keeps its source text for as long as its program is the program of that text.
-/
namespace Formula

/-- A compiled expression. -/
structure Expression where
  program : Program
  options : Options
  functions : Registry
  /-- The text that the program comes from. -/
  source : Option String

namespace Expression
variable (e : Expression)

/-- The same expression with another program. -/
def withProgram (program : Program) : Expression :=
  { e with program, source := if sameProgram program e.program then e.source else none }

/-- Runs the expression on the variables of a context.  An error names the text of the
expression. -/
def evaluate (context : Context) : Except Error Value × Context :=
  let (result, context) := e.program.evaluate e.options e.functions context
  match result, e.source with
  | .error error, some source => (.error (error.withSource source), context)
  | result, _ => (result, context)

variable {e} in
theorem evaluate_of_ok {context : Context} {v : Value} {s : Scope}
    (h : Evaluation.run e.options e.functions e.options.maxDepth e.program { context with }
      = .ok v s) : e.evaluate context = (.ok v, s.toContext) := by
  unfold evaluate Program.evaluate
  rw [h]

variable {e} in
/-- An error is the error of the run, but for the text that it names. -/
theorem evaluate_of_error {context : Context} {error : Error} {s : Scope}
    (h : Evaluation.run e.options e.functions e.options.maxDepth e.program { context with }
      = .error error s) :
    ∃ named, e.evaluate context = (.error named, s.toContext) ∧ named.fault = error.fault := by
  unfold evaluate Program.evaluate
  rw [h]
  cases e.source with
  | none => exact ⟨error, rfl, rfl⟩
  | some source => exact ⟨error.withSource source, rfl, rfl⟩

/-- Computes ahead of time what the known variables determine. -/
def simplify (known : Dict Value) : Expression :=
  e.withProgram (e.program.fold e.options known)

/-- Puts another expression in place of a variable. -/
def substitute (name : String) (replacement : Expression) : Expression :=
  e.withProgram (e.program.substitute name replacement.program)

@[simp] theorem program_simplify (known : Dict Value) :
    (e.simplify known).program = e.program.fold e.options known := rfl

@[simp] theorem program_substitute (name : String) (replacement : Expression) :
    (e.substitute name replacement).program
      = e.program.substitute name replacement.program := rfl

/-- The names in the expression; with members, as dotted paths. -/
def symbols (withMembers : Bool) : List String := e.program.names withMembers

/-- The names in the expression that are not registered functions. -/
def variableNames (withMembers : Bool) : List String :=
  e.program.namesBut e.functions.contains withMembers

/-- The canonical text. -/
def text : String := e.program.text

/-- Expressions are equal if their programs are. -/
def same (other : Expression) : Bool := sameProgram e.program other.program

end Expression

/-- What turns source texts into expressions. -/
structure Compiler where
  options : Options := {}
  functions : Registry := {}
  /-- Names that compile to values. -/
  constants : Dict Value :=
    Dict.ofPairs [("PI", .number Number.pi), ("E", .number Number.euler)]

namespace Compiler
variable (c : Compiler)

/-- The expression of a source text. -/
def compile (source : String) : Except Error Expression :=
  (Term.parse c.options c.constants source).map fun term =>
    ⟨term.code, c.options, c.functions, some source⟩

/-- Compiles a source text and runs it once. -/
def evaluate (source : String) (context : Context) : Except Error Value × Context :=
  match c.compile source with
  | .ok e => e.evaluate context
  | .error error => (.error error, context)

/-- Makes a name stand for a value in texts compiled from now on. -/
def defineConstant (name : String) (v : Value) : Compiler :=
  { c with constants := c.constants.insert name v }

/-- Takes a constant away. -/
def removeConstant (name : String) : Compiler :=
  { c with constants := c.constants.erase name }

/-- Registers a function for expressions compiled from now on. -/
def register (f : HostFunction) : Compiler := { c with functions := c.functions.register f }

/-- Takes the function of a name out of the registry. -/
def unregister (name : String) : Compiler := { c with functions := c.functions.remove name }

end Compiler
end Formula
