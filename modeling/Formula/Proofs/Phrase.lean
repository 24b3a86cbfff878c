import Formula.Term.Parser

/-! # Phrases and how they are written

A phrase is an expression as its author means it, before any decision about parentheses.  It stands
for a term (`Phrase.term`) and is written as tokens (`Phrase.tokens`): every operand stands in a
position that allows operators from some level on, and is put in parentheses only where it is looser
than its position allows (`Rank.bracket`).

Assignment, conditions and powers associate to the right, everything else between two operands to
the left.  Signs are looser than powers, but stand bare to the right of `^`.
-/
namespace Formula

/-! ## Levels -/

/-- The levels of the language, the loosest first. -/
inductive Rank
  | assignment | conditional | membership | disjunction | conjunction | comparison
  | concatenation | sum | product | factor | power | factorial | access
  deriving DecidableEq

namespace Rank

/-- How tightly the operators of a level bind. -/
def tightness : Rank → Nat
  | assignment => 0 | conditional => 1 | membership => 2 | disjunction => 3 | conjunction => 4
  | comparison => 5 | concatenation => 6 | sum => 7 | product => 8 | factor => 9 | power => 10
  | factorial => 11 | access => 12

/-- The next level; behind the tightest there is none. -/
def tighter : Rank → Rank
  | assignment => conditional | conditional => membership | membership => disjunction
  | disjunction => conjunction | conjunction => comparison | comparison => concatenation
  | concatenation => sum | sum => product | product => factor | factor => power
  | power => factorial | factorial => access | access => access

theorem tightness_le_access (L : Rank) : L.tightness ≤ Rank.access.tightness := by
  cases L <;> decide

theorem eq_of_tightness_eq {L M : Rank} (h : L.tightness = M.tightness) : L = M := by
  cases L <;> cases M <;> first | rfl | cases h

theorem tightness_tighter {L : Rank} (h : L ≠ access) :
    L.tighter.tightness = L.tightness + 1 := by
  cases L <;> first | rfl | exact absurd rfl h

/-- The tokens of an operand of level `own` where operators from `position` on are allowed. -/
def bracket (position own : Rank) (tokens : List Token) : List Token :=
  if own.tightness < position.tightness then
    .bracket .roundOpen :: tokens ++ [Token.bracket .roundClose]
  else tokens

end Rank

/-- The operators that are a sign between two operands and associate to the left. -/
inductive SignOp
  | add | subtract | multiply | divide | remainder
  | equal | notEqual | less | lessEqual | greater | greaterEqual
  | concatenate
  deriving DecidableEq

namespace SignOp

/-- The operator. -/
def op : SignOp → BinaryOp
  | add => .add | subtract => .subtract
  | multiply => .multiply | divide => .divide | remainder => .remainder
  | equal => .equal | notEqual => .notEqual | less => .less | lessEqual => .lessEqual
  | greater => .greater | greaterEqual => .greaterEqual
  | concatenate => .concatenate

/-- Its sign. -/
def sign : SignOp → Sign
  | add => .plus | subtract => .minus
  | multiply => .times | divide => .slash | remainder => .percent
  | equal => .equal | notEqual => .notEqual | less => .less | lessEqual => .lessEqual
  | greater => .greater | greaterEqual => .greaterEqual
  | concatenate => .bars

/-- Its level. -/
def rank : SignOp → Rank
  | add | subtract => .sum
  | multiply | divide | remainder => .product
  | equal | notEqual | less | lessEqual | greater | greaterEqual => .comparison
  | concatenate => .concatenation

theorem rank_ne_access (o : SignOp) : o.rank ≠ .access := by cases o <;> decide

end SignOp

/-! ## Phrases -/

/-- An expression as it is meant. -/
inductive Phrase
  | name (n : String)
  | number (x : Float)
  | text (s : String)
  | keyword (k : Keyword)
  | signed (negative : Bool) (operand : Phrase)
  /-- A named operator, called like a function. -/
  | named (op : NamedOp) (operand : Phrase)
  | factorial (operand : Phrase)
  | power (base exponent : Phrase)
  | binary (op : SignOp) (left right : Phrase)
  /-- `in`, or `not in`. -/
  | isIn (denied : Bool) (item collection : Phrase)
  | and (left right : Phrase)
  | or (left right : Phrase)
  | choose (condition yes no : Phrase)
  | assign (root : String) (path : List String) (value : Phrase)
  | define (name : String) (params : List String) (body : Phrase)
  | member (target : Phrase) (name : String)
  | index (target key : Phrase)
  | call (callee : Phrase) (arguments : List Phrase)
  | array (items : List Phrase)

/-- What holds of a construct as soon as it holds of all its operands holds of every phrase. -/
@[induction_eliminator]
theorem Phrase.induct {motive : Phrase → Prop}
    (name : ∀ n, motive (.name n))
    (number : ∀ x, motive (.number x))
    (text : ∀ s, motive (.text s))
    (keyword : ∀ k, motive (.keyword k))
    (signed : ∀ negative operand, motive operand → motive (.signed negative operand))
    (named : ∀ op operand, motive operand → motive (.named op operand))
    (factorial : ∀ operand, motive operand → motive (.factorial operand))
    (power : ∀ base exponent, motive base → motive exponent → motive (.power base exponent))
    (binary : ∀ op left right, motive left → motive right → motive (.binary op left right))
    (isIn : ∀ denied item collection, motive item → motive collection →
      motive (.isIn denied item collection))
    (and : ∀ left right, motive left → motive right → motive (.and left right))
    (or : ∀ left right, motive left → motive right → motive (.or left right))
    (choose : ∀ condition yes no, motive condition → motive yes → motive no →
      motive (.choose condition yes no))
    (assign : ∀ root path value, motive value → motive (.assign root path value))
    (define : ∀ name params body, motive body → motive (.define name params body))
    (member : ∀ target name, motive target → motive (.member target name))
    (index : ∀ target key, motive target → motive key → motive (.index target key))
    (call : ∀ callee arguments, motive callee → (∀ p ∈ arguments, motive p) →
      motive (.call callee arguments))
    (array : ∀ items, (∀ p ∈ items, motive p) → motive (.array items))
    (p : Phrase) : motive p := by
  refine @Phrase.rec motive (fun phrases => ∀ p ∈ phrases, motive p)
    name number text keyword signed named factorial power binary isIn and or choose assign define
    member index call array ?_ ?_ p
  · intro p hp
    cases hp
  · intro head tail hhead htail
    exact List.forall_mem_cons.mpr ⟨hhead, htail⟩

/-- Items with commas between them. -/
def separated : List (List Token) → List Token
  | [] => []
  | item :: rest => item ++ rest.flatMap (.comma :: ·)

/-- A variable, and member names behind dots. -/
def targetTokens (root : String) (path : List String) : List Token :=
  .name root :: path.flatMap fun member => [.sign .dot, .name member]

/-- What a keyword stands for. -/
def Keyword.term : Keyword → Term
  | .trueWord => .literal (.bool true)
  | .falseWord => .literal (.bool false)
  | .undefinedWord => .undefined

namespace Phrase

/-- The level of the outermost operator. -/
def rank : Phrase → Rank
  | .signed _ _ => .factor
  | .factorial _ => .factorial
  | .power _ _ => .power
  | .binary op _ _ => op.rank
  | .isIn _ _ _ => .membership
  | .and _ _ => .conjunction
  | .or _ _ => .disjunction
  | .choose _ _ _ => .conditional
  | .assign _ _ _ | .define _ _ _ => .assignment
  | _ => .access

mutual

/-- What the phrase means. -/
def term : Phrase → Term
  | .name n => .var n
  | .number x => .literal (.number x)
  | .text s => .literal (.string s)
  | .keyword k => k.term
  | .signed negative operand => .unary (if negative then .negate else .plus) operand.term
  | .named op operand => .unary (.named op) operand.term
  | .factorial operand => .unary .factorial operand.term
  | .power base exponent => .binary .power base.term exponent.term
  | .binary op left right => .binary op.op left.term right.term
  | .isIn denied item collection =>
    let test := .binary .isIn item.term collection.term
    if denied then .unary (.named .not) test else test
  | .and left right => .and left.term right.term
  | .or left right => .or left.term right.term
  | .choose condition yes no => .choose condition.term yes.term no.term
  | .assign root path value => .assign root path value.term
  | .define f params body => .define f params body.term
  | .member target n => .member target.term n
  | .index target key => .index target.term key.term
  | .call callee arguments => .call callee.term (termEach arguments)
  | .array items => .array (termEach items)

/-- What each of the phrases means. -/
def termEach : List Phrase → List Term
  | [] => []
  | p :: rest => p.term :: termEach rest

end

mutual

/-- How the phrase is written. -/
def tokens : Phrase → List Token
  | .name n => [.name n]
  | .number x => [.number x]
  | .text s => [.string s]
  | .keyword k => [.keyword k]
  | .signed negative operand =>
    .sign (if negative then .minus else .plus) :: Rank.factor.bracket operand.rank operand.tokens
  | .named op operand =>
    .name op.name :: .bracket .roundOpen :: operand.tokens ++ [Token.bracket .roundClose]
  | .factorial operand => Rank.factorial.bracket operand.rank operand.tokens ++ [Token.sign .bang]
  | .power base exponent =>
    Rank.factorial.bracket base.rank base.tokens
      ++ .sign .caret :: Rank.factor.bracket exponent.rank exponent.tokens
  | .binary op left right =>
    op.rank.bracket left.rank left.tokens
      ++ .sign op.sign :: op.rank.tighter.bracket right.rank right.tokens
  | .isIn denied item collection =>
    Rank.membership.bracket item.rank item.tokens
      ++ (if denied then [.name "not", .name "in"] else [.name "in"])
      ++ Rank.disjunction.bracket collection.rank collection.tokens
  | .and left right =>
    Rank.conjunction.bracket left.rank left.tokens
      ++ .name "and" :: Rank.comparison.bracket right.rank right.tokens
  | .or left right =>
    Rank.disjunction.bracket left.rank left.tokens
      ++ .name "or" :: Rank.conjunction.bracket right.rank right.tokens
  | .choose condition yes no =>
    Rank.membership.bracket condition.rank condition.tokens
      ++ .sign .question :: Rank.conditional.bracket yes.rank yes.tokens
      ++ .sign .colon :: Rank.conditional.bracket no.rank no.tokens
  | .assign root path value => targetTokens root path ++ .sign .assign :: value.tokens
  | .define f params body =>
    .name f :: .bracket .roundOpen :: separated (params.map fun param => [.name param])
      ++ .bracket .roundClose :: .sign .assign :: body.tokens
  | .member target n =>
    Rank.access.bracket target.rank target.tokens ++ [Token.sign .dot, .name n]
  | .index target key =>
    Rank.access.bracket target.rank target.tokens
      ++ .bracket .squareOpen :: key.tokens ++ [Token.bracket .squareClose]
  | .call callee arguments =>
    Rank.access.bracket callee.rank callee.tokens
      ++ .bracket .roundOpen :: separated (tokensEach arguments) ++ [Token.bracket .roundClose]
  | .array items =>
    .bracket .squareOpen :: separated (tokensEach items) ++ [Token.bracket .squareClose]

/-- How each of the phrases is written. -/
def tokensEach : List Phrase → List (List Token)
  | [] => []
  | p :: rest => p.tokens :: tokensEach rest

end

mutual

/-- How many constructs stand in each other.  Every access to the target of an assignment is one. -/
def height : Phrase → Nat
  | .name _ | .number _ | .text _ | .keyword _ => 1
  | .signed _ operand | .named _ operand | .factorial operand | .member operand _ =>
    operand.height + 1
  | .power left right | .binary _ left right | .isIn _ left right | .and left right
  | .or left right | .index left right => max left.height right.height + 1
  | .choose condition yes no => max condition.height (max yes.height no.height) + 1
  | .assign _ path value => max (path.length + 1) value.height + 1
  | .define _ _ body => max 2 body.height + 1
  | .call callee arguments => max callee.height (heightEach arguments) + 1
  | .array items => heightEach items + 1

/-- The height of the highest phrase. -/
def heightEach : List Phrase → Nat
  | [] => 0
  | p :: rest => max p.height (heightEach rest)

end

mutual

/-- The names of variables, functions and parameters in the phrase. -/
def names : Phrase → List String
  | .name n => [n]
  | .number _ | .text _ | .keyword _ => []
  | .signed _ operand | .named _ operand | .factorial operand | .member operand _ => operand.names
  | .power left right | .binary _ left right | .isIn _ left right | .and left right
  | .or left right | .index left right => left.names ++ right.names
  | .choose condition yes no => condition.names ++ yes.names ++ no.names
  | .assign root _ value => root :: value.names
  | .define f params body => f :: params ++ body.names
  | .call callee arguments => callee.names ++ namesEach arguments
  | .array items => namesEach items

/-- The names in the phrases. -/
def namesEach : List Phrase → List String
  | [] => []
  | p :: rest => p.names ++ namesEach rest

end

@[simp] theorem termEach_eq_map (phrases : List Phrase) : termEach phrases = phrases.map term := by
  induction phrases with
  | nil => rfl
  | cons p rest ih => rw [termEach, ih, List.map_cons]

@[simp] theorem tokensEach_eq_map (phrases : List Phrase) :
    tokensEach phrases = phrases.map tokens := by
  induction phrases with
  | nil => rfl
  | cons p rest ih => rw [tokensEach, ih, List.map_cons]

theorem height_le_heightEach {p : Phrase} {phrases : List Phrase} (h : p ∈ phrases) :
    p.height ≤ heightEach phrases := by
  induction phrases with
  | nil => cases h
  | cons head rest ih =>
    rw [heightEach]
    rcases List.mem_cons.mp h with rfl | hrest
    · exact Nat.le_max_left _ _
    · exact Nat.le_trans (ih hrest) (Nat.le_max_right _ _)

theorem mem_namesEach {p : Phrase} {phrases : List Phrase} (h : p ∈ phrases) {n : String}
    (hn : n ∈ p.names) : n ∈ namesEach phrases := by
  induction phrases with
  | nil => cases h
  | cons head rest ih =>
    rw [namesEach, List.mem_append]
    rcases List.mem_cons.mp h with rfl | hrest
    · exact .inl hn
    · exact .inr (ih hrest)

end Phrase

/-- A name that is no operator, no word of `case` blocks and no constant. -/
structure OrdinaryName (constants : Dict Value) (n : String) : Prop where
  operator : NamedOp.ofName? n = none
  case : n ≠ "case"
  word : n ∉ Grammar.caseWords
  constant : constants.get? n = none

/-- Variables, functions and parameters have ordinary names. -/
def Phrase.Ordinary (constants : Dict Value) (p : Phrase) : Prop :=
  ∀ n ∈ p.names, OrdinaryName constants n

end Formula
