import Formula.Value

/-! # Names in a program

The names that a program reads or stores to, each once, in the order of their first use.  With
members, a variable and the member accesses right behind it are one dotted path; a path is listed
when it can grow no further.
-/
namespace Formula

/-- The part of a dotted path before its first dot. -/
def pathRoot (path : String) : String := String.ofList (path.toList.takeWhile (· ≠ '.'))

/-- The names found so far, and the path that may still grow. -/
structure NameScan where
  found : List String := []
  growing? : Option String := none

namespace NameScan

/-- Lists a name that is not listed yet. -/
def list (s : NameScan) (name : String) : NameScan :=
  if name ∈ s.found then s else { s with found := s.found ++ [name] }

/-- Lists the path that was open. -/
def close (s : NameScan) : NameScan :=
  match s.growing? with
  | some path => { s with growing? := none }.list path
  | none => s

/-- Takes note of a name that is read or stored to. -/
def mention (withMembers : Bool) (s : NameScan) (name : String) : NameScan :=
  if withMembers then { s.close with growing? := some name } else s.close.list (pathRoot name)

end NameScan

mutual

/-- Takes note of the names in an instruction. -/
def Instr.noteNames (withMembers : Bool) (s : NameScan) : Instr → NameScan
  | .var name => s.mention withMembers name
  | .name path => s.mention withMembers path
  | .member name =>
    match s.growing? with
    | some path => { s with growing? := some (path ++ "." ++ name) }
    | none => s
  | .sub body => (Program.noteNames withMembers s.close body).close
  | _ => s.close

/-- Takes note of the names in a program. -/
def Program.noteNames (withMembers : Bool) (s : NameScan) : List Instr → NameScan
  | [] => s
  | instr :: rest => Program.noteNames withMembers (instr.noteNames withMembers s) rest

end

namespace Program

/-- The names in a program; with members, as dotted paths. -/
def names (withMembers : Bool) (program : Program) : List String :=
  (noteNames withMembers {} program).close.found

/-- The names in a program whose roots are not the given ones. -/
def namesBut (isKnown : String → Bool) (withMembers : Bool) (program : Program) : List String :=
  (program.names withMembers).filter fun name => !isKnown (pathRoot name)

end Program
end Formula
