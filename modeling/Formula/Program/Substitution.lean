import Formula.Value

/-! # Substitution

A program in place of a variable.  A program that is a whole expression leaves one value on the
stack, as the reference to a variable does, so it can stand wherever the reference stood.  Names
that are stored to are not references and stay.
-/
namespace Formula

mutual

/-- What an instruction becomes when `replacement` stands for the variable. -/
def Instr.substitute (instr : Instr) (variableName : String) (replacement : Program) : Program :=
  match instr with
  | .var name => if name = variableName then replacement else [.var name]
  | .sub body => [.sub (Program.substitute body variableName replacement)]
  | other => [other]

/-- A program with every reference to the variable replaced, at every depth. -/
def Program.substitute (program : Program) (variableName : String) (replacement : Program) :
    Program :=
  match program with
  | [] => []
  | instr :: rest =>
    instr.substitute variableName replacement
      ++ Program.substitute rest variableName replacement

end

namespace Program
variable (variableName : String) (replacement : Program)

@[simp] theorem substitute_nil : substitute [] variableName replacement = [] := by
  simp [substitute]

@[simp] theorem substitute_cons (instr : Instr) (rest : Program) :
    substitute (instr :: rest) variableName replacement
      = instr.substitute variableName replacement
        ++ substitute rest variableName replacement := by
  simp [substitute]

@[simp] theorem substitute_append (front back : Program) :
    substitute (front ++ back) variableName replacement
      = substitute front variableName replacement
        ++ substitute back variableName replacement := by
  induction front with
  | nil => simp
  | cons instr rest ih => simp [ih, List.append_assoc]

end Program
end Formula
