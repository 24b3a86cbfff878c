import Formula.Evaluation.Scope
import Formula.Value.Operation

/-! # Running programs

The machine takes the instructions of a program one after the other and keeps its operands on a
stack.  A program inside the program is an operand that waits; `resolve` runs it when its value is
wanted, and not at all if it never is.

Running a program inside a program and calling a function a program defined both go one level
deeper.  The number of levels that are left is what the recursion counts down.
-/
namespace Formula

/-- What lies on the stack. -/
inductive Operand
  | value (v : Value)
  /-- A program whose value has not been wanted yet. -/
  | waiting (program : Program)
  /-- A name to store to. -/
  | name (path : String)
  /-- Where the fields of an object begin. -/
  | mark
  | key (name : String)

namespace Evaluation

/-- Takes the topmost operand. -/
def pop : List Operand → Evaluation (Operand × List Operand)
  | [] => fail (.evaluation .underflow)
  | top :: rest => pure (top, rest)

/-- Takes the `n` topmost operands and answers the deepest first. -/
def popMany (n : Nat) (stack : List Operand) : Evaluation (List Operand × List Operand) :=
  if n ≤ stack.length then pure ((stack.take n).reverse, stack.drop n)
  else fail (.evaluation .underflow)

/-- Takes the operands above the mark nearest to the top, and the mark; the deepest is answered
first. -/
def popToMark : List Operand → List Operand → Evaluation (List Operand × List Operand)
  | _, [] => fail (.evaluation .underflow)
  | above, .mark :: rest => pure (above, rest)
  | above, operand :: rest => popToMark (operand :: above) rest

/-- Takes `n` names off the stack and answers the deepest first. -/
def popNames : Nat → List String → List Operand → Evaluation (List String × List Operand)
  | 0, names, stack => pure (names, stack)
  | n + 1, names, stack => do
    match ← pop stack with
    | (.name path, rest) => popNames n (path :: names) rest
    | _ => fail (.evaluation .parity)

section Levels
variable (options : Options) (functions : Registry) (run : Program → Evaluation Value)

/-- The value of an operand. -/
def resolve : Operand → Evaluation Value
  | .value v => pure v
  | .waiting program => run program
  | .name path => pure (.string path)
  | .mark | .key _ => fail (.evaluation .parity)

/-- The local variables at the beginning of a call.  Parameters that get no argument are undefined,
of two parameters of one name the last counts.  A function that was defined in another one sees the
locals it was defined among, and itself. -/
def localsOf (c : Closure) (arguments : List Value) : Dict Value :=
  let outer : Dict Value := match c.captured with
    | none => []
    | some captured =>
      if Dict.contains captured c.name then captured
      else Dict.insert captured c.name (.function (.closure c))
  c.params.zipIdx.foldl
    (fun locals (param, i) => locals.insert param (arguments[i]?.getD .undefined)) outer

/-- Runs a computation among other local variables. -/
def withLocals {α : Type} (locals : Dict Value) (body : Evaluation α) : Evaluation α := fun s =>
  match body { s with locals := some locals } with
  | .ok a inner => .ok a { inner with locals := s.locals }
  | .error e inner => .error e { inner with locals := s.locals }

/-- Calls a host function and keeps record of it. -/
def callHost (f : HostFunction) (arguments : List Value) : Evaluation Value := do
  let before := (← get).calls
  modify fun s => { s with calls := s.calls ++ [⟨f.id, f.name, arguments⟩] }
  match f.answer before arguments with
  | .ok v => pure v
  | .error e => throw e

/-- Calls a value. -/
def call (callee : Value) (arguments : List Value) : Evaluation Value :=
  match callee with
  | .function (.named op) => pure (op.apply (arguments.headD .undefined))
  | .function (.host id name) =>
    match functions.ofId? id with
    | some f => callHost f arguments
    | none => fail (.call (.notAllowed name))
  | .function (.closure c) => withLocals (localsOf c arguments) (run c.body)
  | other => fail (.call (.notAFunction other.typeName))

/-- Makes a function and stores it under its name. -/
def makeFunction (name : String) (params : List String) (body : Program) : Evaluation Value := do
  lift (checkName name)
  let id ← freshId
  let f := Value.function (.closure ⟨id, name, params, body, (← get).locals⟩)
  modify fun s => s.set name f
  pure f

/-- Makes the function whose body, parameters and name lie on the stack. -/
def define (params : Nat) (stack : List Operand) : Evaluation (Value × List Operand) := do
  match ← pop stack with
  | (.waiting body, stack) =>
    let (params, stack) ← popNames params [] stack
    match ← pop stack with
    | (.name name, stack) => pure (← makeFunction name params body, stack)
    | _ => fail (.evaluation .parity)
  | _ => fail (.evaluation .parity)

/-- The fields of an object from keys and values in turn; of one key the last counts. -/
def fields : Dict Value → List Operand → Evaluation (Dict Value)
  | entries, [] => pure entries
  | entries, .key name :: operand :: rest => do
    let v ← resolve run operand
    fields (entries.insert name v) rest
  | _, _ => fail (.evaluation .parity)

/-- The result of the first arm whose condition holds: is true, or equals the subject. -/
def chooseArm (subject : Option Value) (otherwise : Option Operand) :
    List Operand → Evaluation Value
  | condition :: result :: rest => do
    let v ← resolve run condition
    let holds := match subject with
      | some subject => v.same subject
      | none => v.isTruthy
    if holds then resolve run result else chooseArm subject otherwise rest
  | _ =>
    match otherwise with
    | some result => resolve run result
    | none => pure .undefined

/-- A `case` block: takes its operands off the stack and answers its value. -/
def caseOf (subject : Bool) (arms : Nat) (otherwise : Bool) (stack : List Operand) :
    Evaluation (Value × List Operand) := do
  let (last, stack) ←
    if otherwise then
      let (operand, stack) ← pop stack
      pure (some operand, stack)
    else pure (none, stack)
  let (pairs, stack) ← popMany (2 * arms) stack
  let (compared, stack) ←
    if subject then
      let (operand, stack) ← pop stack
      pure (some (← resolve run operand), stack)
    else pure (none, stack)
  pure (← chooseArm run compared last pairs, stack)

/-- Carries out one instruction. -/
def step (instr : Instr) (stack : List Operand) : Evaluation (List Operand) := do
  match instr with
  | .literal v => pure (.value v :: stack)
  | .undefined => pure (.value .undefined :: stack)
  | .var name => pure (.value (← lookup options functions name) :: stack)
  | .name path => pure (.name path :: stack)
  | .sub body => pure (.waiting body :: stack)
  | .unary op =>
    let (operand, stack) ← pop stack
    let x ← resolve run operand
    pure (.value (← lift (op.apply x)) :: stack)
  | .binary op =>
    let (right, stack) ← pop stack
    let (left, stack) ← pop stack
    let x ← resolve run left
    let y ← resolve run right
    pure (.value (← lift (op.apply x y)) :: stack)
  | .and =>
    let (right, stack) ← pop stack
    let (left, stack) ← pop stack
    let x ← resolve run left
    if x.isTruthy then
      let y ← resolve run right
      pure (.value (.bool y.isTruthy) :: stack)
    else pure (.value (.bool false) :: stack)
  | .or =>
    let (right, stack) ← pop stack
    let (left, stack) ← pop stack
    let x ← resolve run left
    if x.isTruthy then pure (.value (.bool true) :: stack)
    else
      let y ← resolve run right
      pure (.value (.bool y.isTruthy) :: stack)
  | .index =>
    let (right, stack) ← pop stack
    let (left, stack) ← pop stack
    if options.allowMemberAccess then
      let target ← resolve run left
      let key ← resolve run right
      pure (.value (← lift (target.index key)) :: stack)
    else fail (.access .memberAccessOff)
  | .assign =>
    let (right, stack) ← pop stack
    match ← pop stack with
    | (.name path, stack) =>
      let v ← resolve run right
      assign options path v
      pure (.value v :: stack)
    | _ => fail (.evaluation .noTarget)
  | .choose =>
    let (no, stack) ← pop stack
    let (yes, stack) ← pop stack
    let (condition, stack) ← pop stack
    let x ← resolve run condition
    pure (.value (← resolve run (if x.isTruthy then yes else no)) :: stack)
  | .unknownTernary spelling =>
    let _ ← popMany 3 stack
    fail (.evaluation (.unknownTernary spelling))
  | .call arguments =>
    let (operands, stack) ← popMany arguments stack
    let (operand, stack) ← pop stack
    let callee ← resolve run operand
    let values ← operands.mapM (resolve run)
    pure (.value (← call functions run callee values) :: stack)
  | .define params =>
    let (f, stack) ← define params stack
    pure (.value f :: stack)
  | .member name =>
    if options.allowMemberAccess then
      let (operand, stack) ← pop stack
      let target ← resolve run operand
      pure (.value (← lift (target.member name)) :: stack)
    else fail (.access .memberAccessOff)
  | .array items =>
    let (operands, stack) ← popMany items stack
    pure (.value (.array (← operands.mapM (resolve run))) :: stack)
  | .objectStart => pure (.mark :: stack)
  | .property key => pure (.key key :: stack)
  | .objectEnd =>
    let (operands, stack) ← popToMark [] stack
    pure (.value (.object (← fields run [] operands)) :: stack)
  | .caseOf subject arms otherwise =>
    let (v, stack) ← caseOf run subject arms otherwise stack
    pure (.value v :: stack)
  | .endStatement =>
    let (operand, stack) ← pop stack
    let _ ← resolve run operand
    pure stack

/-- Carries out the instructions of a program; the value of the program is the one operand that is
left, or undefined if none is. -/
def execute : Program → List Operand → Evaluation Value
  | [], [] => pure .undefined
  | [], [operand] => resolve run operand
  | [], _ => fail (.evaluation .parity)
  | instr :: rest, stack => do
    let stack ← step options functions run instr stack
    execute rest stack

end Levels

/-- The value of a program that may nest `depth` levels deep. -/
def run (options : Options) (functions : Registry) : Nat → Program → Evaluation Value
  | 0, _ => fail (.evaluation (.tooDeep options.maxDepth))
  | depth + 1, program => execute options functions (run options functions depth) program []

end Evaluation

/-- Runs a program on the variables of a context. -/
def Program.evaluate (options : Options) (functions : Registry) (program : Program)
    (context : Context) : Except Error Value × Context :=
  match Evaluation.run options functions options.maxDepth program { context with } with
  | .ok v s => (.ok v, s.toContext)
  | .error e s => (.error e, s.toContext)

theorem Program.exists_run_of_ok {options : Options} {functions : Registry} {program : Program}
    {context : Context} {v : Value} (h : (program.evaluate options functions context).1 = .ok v) :
    ∃ s, Evaluation.run options functions options.maxDepth program { context with } = .ok v s := by
  unfold Program.evaluate at h
  split at h
  · rename_i u s hrun
    obtain rfl := Except.ok.inj h
    exact ⟨s, hrun⟩
  · cases h

end Formula
