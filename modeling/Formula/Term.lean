import Formula.Value

/-! # Syntax trees and their code

A term is the syntax tree of an expression.  `Term.code` is the program of a term: operands before
their instruction, left before right, and everything that may be left out or run later (branches,
right sides of `and` and `or`, assigned values, function bodies) as a program of its own.
-/
namespace Formula

/-- The syntax tree of an expression. -/
inductive Term
  | literal (v : Value)
  | undefined
  | var (name : String)
  | unary (op : UnaryOp) (operand : Term)
  | binary (op : BinaryOp) (left right : Term)
  | and (left right : Term)
  | or (left right : Term)
  | choose (condition yes no : Term)
  | caseOf (subject : Option Term) (arms : List (Term × Term)) (otherwise : Option Term)
  | member (target : Term) (name : String)
  | index (target key : Term)
  | call (callee : Term) (arguments : List Term)
  | array (items : List Term)
  | object (fields : List (String × Term))
  /-- Stores to a variable, or to the end of a path of member names from one. -/
  | assign (root : String) (path : List String) (value : Term)
  | define (name : String) (params : List String) (body : Term)
  /-- Statements in a row; the value is that of the last. -/
  | sequence (first : Term) (rest : List Term)

/-- A variable and member names as one name to store to. -/
def targetName (root : String) (path : List String) : String := ".".intercalate (root :: path)

mutual

/-- The program of a term. -/
def Term.code : Term → Program
  | .literal v => [.literal v]
  | .undefined => [.undefined]
  | .var name => [.var name]
  | .unary op operand => operand.code ++ [.unary op]
  | .binary op left right => left.code ++ right.code ++ [.binary op]
  | .and left right => left.code ++ [.sub right.code, .and]
  | .or left right => left.code ++ [.sub right.code, .or]
  | .choose condition yes no => condition.code ++ [.sub yes.code, .sub no.code, .choose]
  | .caseOf subject arms otherwise =>
    subjectCode subject ++ armsCode arms ++ otherwiseCode otherwise
      ++ [.caseOf subject.isSome arms.length otherwise.isSome]
  | .member target name => target.code ++ [.member name]
  | .index target key => target.code ++ key.code ++ [.index]
  | .call callee arguments => callee.code ++ operandsCode arguments ++ [.call arguments.length]
  | .array items => operandsCode items ++ [.array items.length]
  | .object fields => .objectStart :: fieldsCode fields ++ [.objectEnd]
  | .assign root path value => [.name (targetName root path), .sub value.code, .assign]
  | .define name params body =>
    .name name :: params.map .name ++ [.sub body.code, .define params.length]
  | .sequence first rest => [.sub (first.code ++ statementsCode rest)]

/-- The subject of a `case` block, if it has one. -/
def subjectCode : Option Term → Program
  | none => []
  | some subject => subject.code

/-- Conditions and results, each a program of its own. -/
def armsCode : List (Term × Term) → Program
  | [] => []
  | (condition, result) :: rest => .sub condition.code :: .sub result.code :: armsCode rest

/-- The last result of a `case` block, if it has one. -/
def otherwiseCode : Option Term → Program
  | none => []
  | some result => [.sub result.code]

/-- Operands in a row. -/
def operandsCode : List Term → Program
  | [] => []
  | operand :: rest => operand.code ++ operandsCode rest

/-- Fields of an object, each behind its key. -/
def fieldsCode : List (String × Term) → Program
  | [] => []
  | (key, value) :: rest => .property key :: value.code ++ fieldsCode rest

/-- The statements behind the first. -/
def statementsCode : List Term → Program
  | [] => []
  | statement :: rest => .endStatement :: statement.code ++ statementsCode rest

end

end Formula
