import Formula.Options
import Formula.Term
import Formula.Token.Lexer
import Formula.Value.Access

/-! # From tokens to terms

A reader for each level of the grammar, the loosest first: statements, assignment, conditions,
membership, `or`, `and`, comparison, concatenation, sums, products, signs and named operators,
powers, factorials, access, atoms.  Three levels may nest in themselves: assignments, conditions
and factors.  The readers of one depth are given the readers of the next as an argument, so depth
is what the recursion counts down, and the limit of nesting is where it ends.

Repetition on one level is bounded by the number of tokens that are left, since every round takes
at least one.
-/
namespace Formula

/-- A fault and the offset of the token at which it was noticed. -/
structure Failure where
  fault : Fault
  offset : Nat
  deriving DecidableEq

/-- The error of a failure in a source text. -/
def Failure.toError (failure : Failure) (source : String) : Error :=
  ⟨failure.fault, some (Position.locate source.toList failure.offset), some source⟩

/-- What the meaning of tokens depends on. -/
structure Grammar where
  options : Options
  /-- Names that stand for values. -/
  constants : Dict Value
  /-- The token behind the text. -/
  finish : PlacedToken

/-- A reader takes tokens off the front of what is left, or fails. -/
abbrev Reader (α : Type) := StateT (List Lexeme) (Except Failure) α

/-- The levels of the grammar that may nest in themselves. -/
inductive Level
  | assignment
  | conditional
  | factor
  deriving DecidableEq, Repr

namespace Grammar
variable (g : Grammar)

/-- Fails at a token. -/
def fail {α : Type} (place : PlacedToken) (fault : ParseFault) : Reader α :=
  throw ⟨.parse fault, place.start⟩

/-- The token that a piece of text is. -/
def tokenOf : Lexeme → Reader PlacedToken
  | .token t => pure t
  | .rejected fault start _ => throw ⟨.lex fault, start⟩

/-- The next token, which stays. -/
def peek : Reader PlacedToken := do
  match ← get with
  | [] => pure g.finish
  | lexeme :: _ => tokenOf lexeme

/-- The token behind the next one. -/
def peekSecond : Reader PlacedToken := do
  match ← get with
  | _ :: lexeme :: _ => tokenOf lexeme
  | _ => pure g.finish

/-- Takes the next token. -/
def advance : Reader PlacedToken := do
  let t ← g.peek
  modify List.tail
  pure t

/-- Takes the next token if it is the given one. -/
def accept (token : Token) : Reader Bool := do
  let t ← g.peek
  if t.token = token then
    let _ ← g.advance
    pure true
  else pure false

/-- Takes the next token, which has to be the given one. -/
def expect (token : Token) : Reader Unit := do
  let t ← g.peek
  if t.token = token then
    let _ ← g.advance
  else fail t (.expected token t.token)

/-- Takes the next token, which has to be the given word. -/
def expectWord (word : String) : Reader Unit := do
  let t ← g.peek
  if t.token = .name word then
    let _ ← g.advance
  else fail t (.expectedWord word t.token)

/-- Takes an operator that may have been switched off. -/
def takeOperator (t : PlacedToken) (symbol : String) (fixity : Fixity) : Reader Unit := do
  if g.options.allows symbol fixity then
    let _ ← g.advance
  else fail t (.operatorOff symbol)

/-- Applies `step` for as long as it answers, at most `rounds` times. -/
def iterate {α : Type} (step : α → Reader (Option α)) : Nat → α → Reader α
  | 0, a => pure a
  | rounds + 1, a => do
    match ← step a with
    | some next => iterate step rounds next
    | none => pure a

/-- Applies `step`, which takes a token whenever it answers, until it does not answer. -/
def whileSome {α : Type} (step : α → Reader (Option α)) (a : α) : Reader α := do
  iterate step ((← get).length + 1) a

/-- An operator that `op?` accepts, and the operand to its right. -/
def chainLink (op? : Sign → Option BinaryOp) (operand : Reader Term) (left : Term) :
    Reader (Option Term) := do
  let t ← g.peek
  match t.token with
  | .sign sign =>
    match op? sign with
    | some op =>
      g.takeOperator t op.symbol .between
      let right ← operand
      pure (some (.binary op left right))
    | none => pure none
  | _ => pure none

/-- Operands of one level, joined from the left by the operators that `op?` accepts. -/
def chain (op? : Sign → Option BinaryOp) (operand : Reader Term) : Reader Term := do
  whileSome (g.chainLink op? operand) (← operand)

/-- Products. -/
def productOp? : Sign → Option BinaryOp
  | .times => some .multiply
  | .slash => some .divide
  | .percent => some .remainder
  | _ => none

/-- Sums. -/
def sumOp? : Sign → Option BinaryOp
  | .plus => some .add
  | .minus => some .subtract
  | _ => none

/-- Concatenations. -/
def concatenationOp? : Sign → Option BinaryOp
  | .bars => some .concatenate
  | _ => none

/-- Comparisons. -/
def comparisonOp? : Sign → Option BinaryOp
  | .equal => some .equal
  | .notEqual => some .notEqual
  | .less => some .less
  | .lessEqual => some .lessEqual
  | .greater => some .greater
  | .greaterEqual => some .greaterEqual
  | _ => none

/-- Whether a token behind the name of an operator shows that the name is called or stands for the
function itself. -/
def endsName : Token → Bool
  | .bracket .roundOpen | .bracket .roundClose | .bracket .squareClose | .bracket .curlyClose
  | .semicolon | .comma | .finish | .sign .colon => true
  | _ => false

/-- The words that have a meaning only inside `case` blocks. -/
def caseWords : List String := ["when", "then", "else", "end"]

/-- The text of a token as a key of an object. -/
def keyOf? : Token → Option String
  | .name n => some n
  | .string s => some s
  | .keyword k => some k.spelling
  | .number x => some (Number.text x)
  | _ => none

/-- The name that a member access uses. -/
def memberName? : Token → Option String
  | .name n => some n
  | .keyword k => some k.spelling
  | _ => none

section Levels
variable (sub : Level → Reader Term)

/-- A comma behind `items`, and one more expression. -/
def listLink (items : List Term) : Reader (Option (List Term)) := do
  if ← g.accept .comma then
    let item ← sub .assignment
    pure (some (items ++ [item]))
  else pure none

/-- Expressions between commas up to `close`; the bracket before them has been taken. -/
def listUntil (close : Token) : Reader (List Term) := do
  if ← g.accept close then pure []
  else
    let items ← whileSome (g.listLink sub) [← sub .assignment]
    g.expect close
    pure items

/-- The fields of an object behind its bracket.  A comma may stand behind the last. -/
def fieldsUntil : Nat → List (String × Term) → Reader (List (String × Term))
  | 0, fields => pure fields
  | rounds + 1, fields => do
    if ← g.accept (.bracket .curlyClose) then pure fields
    else
      let t ← g.advance
      match keyOf? t.token with
      | none => fail t (.expectedKey t.token)
      | some key =>
        if isProtected key then throw ⟨.access (.protectedName key), t.start⟩
        g.expect (.sign .colon)
        let value ← sub .assignment
        let fields := fields ++ [(key, value)]
        if ← g.accept .comma then fieldsUntil rounds fields
        else
          g.expect (.bracket .curlyClose)
          pure fields

/-- Statements between semicolons.  One behind the last statement starts no other. -/
def statements : Reader Term := do
  let first ← sub .assignment
  let t ← g.peek
  if t.token = .semicolon then
    let (rest, _) ← whileSome (fun (rest, ended) => do
      if ended then pure none
      else if ← g.accept .semicolon then
        let t ← g.peek
        if t.token = .finish ∨ t.token = .bracket .roundClose then pure (some (rest, true))
        else
          let statement ← sub .assignment
          pure (some (rest ++ [statement], false))
      else pure none) (([] : List Term), false)
    pure (.sequence first rest)
  else pure first

/-- The arms of a `case` block: at least one, each with its condition and its result. -/
def arms : Reader (List (Term × Term)) :=
  whileSome (fun found => do
    let t ← g.peek
    if t.token = .name "when" then
      let _ ← g.advance
      let condition ← sub .assignment
      g.expectWord "then"
      let result ← sub .assignment
      pure (some (found ++ [(condition, result)]))
    else if found.isEmpty then fail t (.expectedWord "when" t.token)
    else pure none) []

/-- A `case` block behind its first word. -/
def caseBlock : Reader Term := do
  let t ← g.peek
  let subject ← if t.token = .name "when" then pure none else some <$> sub .assignment
  let arms ← g.arms sub
  let t ← g.peek
  let otherwise ←
    if t.token = .name "else" then
      let _ ← g.advance
      some <$> sub .assignment
    else pure none
  g.expectWord "end"
  pure (.caseOf subject arms otherwise)

/-- A name: a `case` block, a constant or a variable. -/
def name (t : PlacedToken) (n : String) : Reader Term := do
  if g.options.allowsConditional ∧ n = "case" then g.caseBlock sub
  else if g.options.allowsConditional ∧ n ∈ caseWords then fail t (.strayWord n)
  else
    match g.constants.get? n with
    | some v => pure (.literal v)
    | none => pure (.var n)

/-- An expression that no operator inside takes apart. -/
def atom : Reader Term := do
  let t ← g.advance
  match t.token with
  | .name n => g.name sub t n
  | .number x => pure (.literal (.number x))
  | .string s => pure (.literal (.string s))
  | .keyword .trueWord => pure (.literal (.bool true))
  | .keyword .falseWord => pure (.literal (.bool false))
  | .keyword .undefinedWord => pure .undefined
  | .bracket .roundOpen =>
    let inner ← g.statements sub
    g.expect (.bracket .roundClose)
    pure inner
  | .bracket .squareOpen =>
    if g.options.allowsArray then .array <$> g.listUntil sub (.bracket .squareClose)
    else fail t .arraysOff
  | .bracket .curlyOpen => do
    .object <$> g.fieldsUntil sub ((← get).length + 1) []
  | _ => fail t (.unexpected t.token)

/-- One access to what `target` is: a member, an entry or a call. -/
def access (target : Term) : Reader (Option Term) := do
  let t ← g.peek
  match t.token with
  | .sign .dot =>
    if g.options.allowMemberAccess then
      let _ ← g.advance
      let t ← g.advance
      match memberName? t.token with
      | some name => pure (some (.member target name))
      | none => fail t (.unexpected t.token)
    else throw ⟨.access .memberAccessOff, t.start⟩
  | .bracket .squareOpen =>
    if g.options.allowMemberAccess then
      let _ ← g.advance
      let key ← sub .assignment
      g.expect (.bracket .squareClose)
      pure (some (.index target key))
    else throw ⟨.access .memberAccessOff, t.start⟩
  | .bracket .roundOpen =>
    let _ ← g.advance
    let arguments ← g.listUntil sub (.bracket .roundClose)
    pure (some (.call target arguments))
  | _ => pure none

/-- The operator that the next token names, if it is called like a function. -/
def calledOperator? : Reader (Option NamedOp) := do
  let t ← g.peek
  match t.token with
  | .name n =>
    match g.options.namedOp? n with
    | some op =>
      let second ← g.peekSecond
      pure (if second.token = .bracket .roundOpen then some op else none)
    | none => pure none
  | _ => pure none

/-- An atom, or a named operator called with one, and the accesses to it. -/
def operand : Reader Term := do
  match ← g.calledOperator? with
  | some op =>
    let _ ← g.advance
    let inner ← g.atom sub
    whileSome (g.access sub) (.unary (.named op) inner)
  | none => whileSome (g.access sub) (← g.atom sub)

/-- A sign of factorial behind `inner`. -/
def bang (inner : Term) : Reader (Option Term) := do
  let t ← g.peek
  if t.token = .sign .bang then
    g.takeOperator t "!" .after
    pure (some (.unary .factorial inner))
  else pure none

/-- Factorials. -/
def factorial : Reader Term := do
  whileSome g.bang (← g.operand sub)

/-- A sign of power behind `base`, and its right side. -/
def caret (base : Term) : Reader (Option Term) := do
  let t ← g.peek
  if t.token = .sign .caret then
    g.takeOperator t "^" .between
    let exponent ← sub .factor
    pure (some (.binary .power base exponent))
  else pure none

/-- Powers.  The right side is a whole factor, so powers group to the right. -/
def power : Reader Term := do
  whileSome (g.caret sub) (← g.factorial sub)

/-- Signs and named operators before a factor. -/
def factor : Reader Term := do
  let t ← g.peek
  match t.token with
  | .sign .minus =>
    g.takeOperator t "-" .before
    .unary .negate <$> sub .factor
  | .sign .plus =>
    g.takeOperator t "+" .before
    .unary .plus <$> sub .factor
  | .name n =>
    match g.options.namedOp? n with
    | some op =>
      let second ← g.peekSecond
      if endsName second.token then g.power sub
      else
        let _ ← g.advance
        .unary (.named op) <$> sub .factor
    | none => g.power sub
  | _ => g.power sub

/-- Comparisons of concatenations of sums of products. -/
def comparison : Reader Term :=
  g.chain comparisonOp? (g.chain concatenationOp? (g.chain sumOp? (g.chain productOp?
    (sub .factor))))

/-- A word that joins operands, and the operand to its right. -/
def wordLink (word : String) (join : Term → Term → Term) (operand : Reader Term) (left : Term) :
    Reader (Option Term) := do
  let t ← g.peek
  if t.token = .name word then
    g.takeOperator t word .between
    let right ← operand
    pure (some (join left right))
  else pure none

/-- Operands joined by a word, each right one to be run only when it is needed. -/
def wordChain (word : String) (join : Term → Term → Term) (operand : Reader Term) :
    Reader Term := do
  whileSome (g.wordLink word join operand) (← operand)

/-- Conjunctions, and disjunctions of them. -/
def disjunction : Reader Term :=
  g.wordChain "or" .or (g.wordChain "and" .and (g.comparison sub))

/-- Whether the next tokens are `in` or `not in`, and if so whether they deny. -/
def membershipWord? (t : PlacedToken) : Reader (Option Bool) := do
  if t.token = .name "in" then pure (some false)
  else if t.token = .name "not" then
    let second ← g.peekSecond
    pure (if second.token = .name "in" then some true else none)
  else pure none

/-- The words of membership behind `left`, and their right side. -/
def membershipLink (left : Term) : Reader (Option Term) := do
  let t ← g.peek
  match ← g.membershipWord? t with
  | none => pure none
  | some negated =>
    g.takeOperator t "in" .between
    if negated then
      let _ ← g.advance
    let right ← g.disjunction sub
    let test := Term.binary .isIn left right
    pure (some (if negated then .unary (.named .not) test else test))

/-- Membership. -/
def membership : Reader Term := do
  whileSome (g.membershipLink sub) (← g.disjunction sub)

/-- A condition with its two branches. -/
def conditional : Reader Term := do
  let condition ← g.membership sub
  let t ← g.peek
  if t.token = .sign .question then
    g.takeOperator t "?" .between
    let yes ← sub .conditional
    g.expect (.sign .colon)
    let no ← sub .conditional
    pure (.choose condition yes no)
  else pure condition

/-- A variable and the member names of a path from it. -/
def pathOf? : Term → Option (String × List String)
  | .var root => some (root, [])
  | .member target name => (pathOf? target).map fun (root, path) => (root, path ++ [name])
  | _ => none

/-- The name of a term that is just a name. -/
def nameOf? : Term → Option String
  | .var name => some name
  | _ => none

/-- An assignment to a variable or path, or a definition of a function. -/
def assignment : Reader Term := do
  let left ← sub .conditional
  let t ← g.peek
  if t.token = .sign .assign then
    g.takeOperator t "=" .between
    match left with
    | .call callee arguments =>
      if g.options.allowsDefinition then
        match nameOf? callee, arguments.mapM nameOf? with
        | some name, some params => .define name params <$> sub .assignment
        | _, _ => fail t .noParameter
      else fail t .definitionOff
    | target =>
      match pathOf? target with
      | some (root, path) => .assign root path <$> sub .assignment
      | none => fail t .noTarget
  else pure left

end Levels

/-- The reader of a level, `depth` levels above the limit of nesting. -/
def level : Nat → Level → Reader Term
  | 0, _ => do fail (← g.peek) (.tooDeep g.options.maxDepth)
  | depth + 1, .assignment => g.assignment (level depth)
  | depth + 1, .conditional => g.conditional (level depth)
  | depth + 1, .factor => g.factor (level depth)

/-- A whole text: statements up to the end. -/
def whole : Reader Term := do
  let term ← g.statements (g.level g.options.maxDepth)
  let t ← g.peek
  if t.token = .finish then pure term else fail t (.unexpected t.token)

end Grammar

/-- The term that a source text stands for. -/
def Term.parse (options : Options) (constants : Dict Value) (source : String) :
    Except Error Term :=
  let text := source.toList
  match ((Grammar.mk options constants (finishOf text)).whole).run (lexemes text) with
  | .ok (term, _) => .ok term
  | .error failure => .error (failure.toError source)

end Formula
