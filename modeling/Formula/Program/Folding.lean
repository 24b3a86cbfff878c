import Formula.Options
import Formula.Value.Operation

/-! # Folding what is known

Folding computes ahead of time what does not depend on unknown variables.  It replays a program
and holds back the values on top of the stack that are known.  An operation on known values
becomes its result; at every other instruction the values held back are written out as literals,
and the instruction after them.  An operation that would fail stays, so that the failure is
reported when the program runs, and so do all operations that run programs inside the program.
-/
namespace Formula

/-- The instruction for a known value. -/
def Value.toInstr : Value → Instr
  | .undefined => .undefined
  | v => .literal v

/-- A program under way: what has been written, and the known values on top of the stack behind
it, the topmost first. -/
structure FoldState where
  written : Program := []
  held : List Value := []

namespace FoldState

/-- The whole program so far. -/
def program (s : FoldState) : Program := s.written ++ s.held.reverse.map Value.toInstr

/-- Writes out what is held, and an instruction. -/
def emit (s : FoldState) (instr : Instr) : FoldState := ⟨s.program ++ [instr], []⟩

/-- Holds a known value. -/
def hold (s : FoldState) (v : Value) : FoldState := { s with held := v :: s.held }

/-- Puts the result of an operation in place of its operands, or writes out the operation if it
has none. -/
def replace (s : FoldState) (instr : Instr) (rest : List Value) (result : Except Fault Value) :
    FoldState :=
  match result with
  | .ok v => { s with held := v :: rest }
  | .error _ => s.emit instr

/-- Goes on with an instruction that holds no program. -/
def step (options : Options) (known : Dict Value) (s : FoldState) (instr : Instr) : FoldState :=
  match instr, s.held with
  | .literal v, _ => s.hold v
  | .undefined, _ => s.hold .undefined
  | .var name, _ =>
    match known.get? name with
    | none | some (.function _) => s.emit instr
    | some v => s.hold v
  | .unary op, operand :: rest => s.replace instr rest (op.apply operand)
  | .binary op, right :: left :: rest => s.replace instr rest (op.apply left right)
  | .index, key :: target :: rest =>
    if options.allowMemberAccess then s.replace instr rest (target.index key) else s.emit instr
  | .member name, target :: rest =>
    if options.allowMemberAccess then s.replace instr rest (target.member name)
    else s.emit instr
  | .array n, held =>
    if n ≤ held.length then
      { s with held := .array (held.take n).reverse :: held.drop n }
    else s.emit instr
  | _, _ => s.emit instr

end FoldState

/-- The names in a row of instructions that all are names. -/
def namesOnly? : List Instr → Option (List String)
  | [] => some []
  | .name n :: rest => (n :: ·) <$> namesOnly? rest
  | _ => none

/-- The parameters of the function whose body stands between the instructions `before`, the
nearest first, and `after`; none if it is no function's body. -/
def paramsAround? (before after : List Instr) : Option (List String) :=
  match after with
  | .define params :: _ =>
    if params ≤ before.length then namesOnly? (before.take params) else none
  | _ => none

/-- What stays known in a program between two others: a parameter hides a known variable of its
name. -/
def knownAround (known : Dict Value) (before after : List Instr) : Dict Value :=
  match paramsAround? before after with
  | some params => known.eraseAll params
  | none => known

mutual

/-- Goes on with an instruction.  In a program inside the program `inner` is known. -/
def Instr.fold (options : Options) (known inner : Dict Value) (s : FoldState) : Instr → FoldState
  | .sub body => s.emit (.sub (Program.foldFrom options inner [] {} body).program)
  | instr => s.step options known instr

/-- Goes on with a program; the instructions `before` it have been read, the nearest first. -/
def Program.foldFrom (options : Options) (known : Dict Value) (before : List Instr)
    (s : FoldState) : List Instr → FoldState
  | [] => s
  | instr :: rest =>
    Program.foldFrom options known (instr :: before)
      (instr.fold options known (knownAround known before rest) s) rest

end

/-- A program with everything computed that the known variables determine. -/
def Program.fold (options : Options) (known : Dict Value) (program : Program) : Program :=
  (Program.foldFrom options known [] {} program).program

end Formula
