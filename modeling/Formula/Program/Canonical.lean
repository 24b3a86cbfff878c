import Formula.Text.Quoted
import Formula.Value.Coercion

/-! # Canonical text

The text of a program with all brackets written.  It replays the program on a stack of texts, so
that every instruction builds its text from those of its operands.  Operands that are missing are
empty texts; texts that are left over are joined by semicolons.
-/
namespace Formula

/-- Whether a key can be written without quotes. -/
def isPlainKey (key : String) : Bool :=
  match key.toList with
  | [] => false
  | first :: rest =>
    (first.isAlpha || first = '_') && rest.all fun c => c.isAlphanum || c = '_'

/-- The text of a key of an object. -/
def keyText (key : String) : String := if isPlainKey key then key else Text.literal key

/-- A text in curly brackets. -/
def inCurly (text : String) : String := "\x7b" ++ text ++ "\x7d"

mutual

/-- The text of a value as a literal. -/
def Value.literalText : Value → String
  | .undefined => "undefined"
  | .null => "null"
  | .bool b => if b then "true" else "false"
  | .number x => if x < 0.0 then "(" ++ Number.text x ++ ")" else Number.text x
  | .string s => Text.literal s
  | .array items => "[" ++ ", ".intercalate (literalTexts items) ++ "]"
  | .object fields => inCurly (", ".intercalate (fieldTexts fields))
  | .function f => f.name

/-- The texts of the items of an array. -/
def literalTexts : List Value → List String
  | [] => []
  | item :: rest => item.literalText :: literalTexts rest

/-- The texts of the fields of an object. -/
def fieldTexts : List (String × Value) → List String
  | [] => []
  | (key, value) :: rest => (keyText key ++ ": " ++ value.literalText) :: fieldTexts rest

end

/-- The texts of the operands on the stack, and the objects that are being written. -/
structure TextStack where
  /-- The top of the stack comes first. -/
  texts : List String := []
  /-- For each object the height of the stack at its beginning, and its keys. -/
  objects : List (Nat × List String) := []

namespace TextStack

/-- Puts a text on the stack. -/
def push (s : TextStack) (text : String) : TextStack := { s with texts := text :: s.texts }

/-- Takes a text off the stack. -/
def pop (s : TextStack) : String × TextStack :=
  (s.texts.headD "", { s with texts := s.texts.tail })

/-- Takes `n` texts off the stack, or as many as there are, and answers the deepest first. -/
def popMany (s : TextStack) (n : Nat) : List String × TextStack :=
  ((s.texts.take n).reverse, { s with texts := s.texts.drop n })

/-- All texts, the deepest first. -/
def joined (s : TextStack) : String := ";".intercalate s.texts.reverse

/-- The arms of a `case` block: texts of conditions and results in turn. -/
def armTexts : List String → String
  | condition :: result :: rest =>
    " when " ++ condition ++ " then " ++ result ++ armTexts rest
  | _ => ""

/-- Replaces the operands of a `case` block by its text. -/
def caseOf (s : TextStack) (subject : Bool) (arms : Nat) (otherwise : Bool) : TextStack :=
  let (last, s) := if otherwise then
      let (text, s) := s.pop
      (" else " ++ text, s)
    else ("", s)
  let (pairs, s) := s.popMany (2 * arms)
  let (first, s) := if subject then
      let (text, s) := s.pop
      (" " ++ text, s)
    else ("", s)
  s.push ("(case" ++ first ++ armTexts pairs ++ last ++ " end)")

/-- Replaces the values of an object by its text. -/
def objectEnd (s : TextStack) : TextStack :=
  let (height, keys) := s.objects.headD (0, [])
  let deepestFirst := s.texts.reverse
  let fields := (keys.zip (deepestFirst.drop height)).map fun (key, value) =>
    keyText key ++ ": " ++ value
  ⟨inCurly (", ".intercalate fields) :: (deepestFirst.take height).reverse, s.objects.tail⟩

/-- Notes a key of the object that is being written. -/
def property (s : TextStack) (key : String) : TextStack :=
  match s.objects with
  | (height, keys) :: rest => { s with objects := (height, keys ++ [key]) :: rest }
  | [] => s

end TextStack

/-- The text of an operator with its operand. -/
def UnaryOp.textWith (op : UnaryOp) (operand : String) : String :=
  match op.symbol with
  | "-" => "(-" ++ operand ++ ")"
  | "+" => "(+" ++ operand ++ ")"
  | "!" => "(" ++ operand ++ "!)"
  | symbol => "(" ++ symbol ++ " " ++ operand ++ ")"

/-- The text of an operator between its operands. -/
def betweenText (left symbol right : String) : String :=
  "(" ++ left ++ " " ++ symbol ++ " " ++ right ++ ")"

/-- Replaces two operands by the text with an operator between them. -/
def TextStack.joinTwo (s : TextStack) (join : String → String → String) : TextStack :=
  let (right, s) := s.pop
  let (left, s) := s.pop
  s.push (join left right)

/-- Replaces three operands by the text of a condition with two branches. -/
def TextStack.joinThree (s : TextStack) : TextStack :=
  let (no, s) := s.pop
  let (yes, s) := s.pop
  let (condition, s) := s.pop
  s.push ("(" ++ condition ++ " ? " ++ yes ++ " : " ++ no ++ ")")

mutual

/-- Replays an instruction on texts. -/
def Instr.render (s : TextStack) : Instr → TextStack
  | .literal v => s.push v.literalText
  | .undefined => s.push "undefined"
  | .var name => s.push name
  | .name path => s.push path
  | .unary op =>
    let (operand, s) := s.pop
    s.push (op.textWith operand)
  | .binary op => s.joinTwo fun left right => betweenText left op.symbol right
  | .and => s.joinTwo fun left right => betweenText left "and" right
  | .or => s.joinTwo fun left right => betweenText left "or" right
  | .assign => s.joinTwo fun left right => betweenText left "=" right
  | .index => s.joinTwo fun left right => left ++ "[" ++ right ++ "]"
  | .choose => s.joinThree
  | .unknownTernary _ => s.joinThree
  | .call arguments =>
    let (texts, s) := s.popMany arguments
    let (callee, s) := s.pop
    s.push (callee ++ "(" ++ ", ".intercalate texts ++ ")")
  | .define params =>
    let (body, s) := s.pop
    let (names, s) := s.popMany params
    let (name, s) := s.pop
    s.push ("(" ++ name ++ "(" ++ ", ".intercalate names ++ ") = " ++ body ++ ")")
  | .sub body => s.push ("(" ++ (Program.render {} body).joined ++ ")")
  | .member name =>
    let (target, s) := s.pop
    s.push (target ++ "." ++ name)
  | .array items =>
    let (texts, s) := s.popMany items
    s.push ("[" ++ ", ".intercalate texts ++ "]")
  | .objectStart => { s with objects := (s.texts.length, []) :: s.objects }
  | .property key => s.property key
  | .objectEnd => s.objectEnd
  | .caseOf subject arms otherwise => s.caseOf subject arms otherwise
  | .endStatement => s

/-- Replays a program on texts. -/
def Program.render (s : TextStack) : List Instr → TextStack
  | [] => s
  | instr :: rest => Program.render (instr.render s) rest

end

/-- The canonical text of a program. -/
def Program.text (program : Program) : String := (Program.render {} program).joined

end Formula
