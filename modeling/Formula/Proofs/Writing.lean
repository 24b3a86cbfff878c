import Formula.Expression
import Formula.Proofs.Spelling
import Formula.Proofs.Trees

/-! # How canonical text is written

Canonical text is made by replaying a program on a stack of texts.  On the code of a term this comes
to writing the term (`Term.text_code`): every construct that is no literal, name, access, array or
object stands in parentheses, and so does everything that waits.

The text is laid out as pieces (`Term.pieces`), so that what is said of it can be said of tokens.
-/
namespace Formula

/-! ## The pieces of a term -/

/-- Pieces in parentheses. -/
def inRound (pieces : List Piece) : List Piece :=
  some (.bracket .roundOpen) :: pieces ++ [some (Token.bracket .roundClose)]

/-- A token between blanks, and what stands behind it. -/
def behind (t : Token) (pieces : List Piece) : List Piece := none :: some t :: none :: pieces

/-- Items with a comma and a blank between them. -/
def listed : List (List Piece) → List Piece
  | [] => []
  | item :: rest => item ++ rest.flatMap fun item => some .comma :: none :: item

/-- The token of an operator between its operands. -/
def BinaryOp.token : BinaryOp → Token
  | .add => .sign .plus | .subtract => .sign .minus
  | .multiply => .sign .times | .divide => .sign .slash | .remainder => .sign .percent
  | .power => .sign .caret
  | .equal => .sign .equal | .notEqual => .sign .notEqual
  | .less => .sign .less | .lessEqual => .sign .lessEqual
  | .greater => .sign .greater | .greaterEqual => .sign .greaterEqual
  | .concatenate => .sign .bars
  | .isIn => .name "in"
  | .unknown spelling => .name spelling

/-- An operator with its operand. -/
def UnaryOp.pieces (operand : List Piece) : UnaryOp → List Piece
  | .negate => some (.sign .minus) :: operand
  | .plus => some (.sign .plus) :: operand
  | .factorial => operand ++ [some (Token.sign .bang)]
  | .named op => some (.name op.name) :: none :: operand
  | .unknown spelling => some (.name spelling) :: none :: operand

/-- A variable, and member names behind dots. -/
def targetPieces (root : String) (path : List String) : List Piece :=
  some (.name root) :: path.flatMap fun member => [some (.sign .dot), some (Scan.wordToken member)]

/-- The token of a key of an object. -/
def keyToken (key : String) : Token := if isPlainKey key then Scan.wordToken key else .string key

/-- The pieces of a value that can be written as a literal. -/
def Value.pieces : Value → List Piece
  | .bool b => [some (.keyword (if b then .trueWord else .falseWord))]
  | .number x => [some (.number x)]
  | .string s => [some (.string s)]
  | _ => []

mutual

/-- The pieces of the canonical text of a term. -/
def Term.pieces : Term → List Piece
  | .literal v => v.pieces
  | .undefined => [some (.keyword .undefinedWord)]
  | .var name => [some (.name name)]
  | .unary op operand => inRound (op.pieces operand.pieces)
  | .binary op left right => inRound (left.pieces ++ behind op.token right.pieces)
  | .and left right => inRound (left.pieces ++ behind (.name "and") (inRound right.pieces))
  | .or left right => inRound (left.pieces ++ behind (.name "or") (inRound right.pieces))
  | .choose condition yes no =>
    inRound (condition.pieces ++ behind (.sign .question) (inRound yes.pieces)
      ++ behind (.sign .colon) (inRound no.pieces))
  | .caseOf subject arms otherwise =>
    inRound (some (.name "case") :: subjectPieces subject ++ armsPieces arms
      ++ otherwisePieces otherwise ++ [none, some (.name "end")])
  | .member target name => target.pieces ++ [some (Token.sign .dot), some (Scan.wordToken name)]
  | .index target key =>
    target.pieces ++ some (.bracket .squareOpen) :: key.pieces ++ [some (Token.bracket .squareClose)]
  | .call callee arguments => callee.pieces ++ inRound (listed (piecesEach arguments))
  | .array items =>
    some (.bracket .squareOpen) :: listed (piecesEach items) ++ [some (Token.bracket .squareClose)]
  | .object fields =>
    some (.bracket .curlyOpen) :: listed (fieldPieces fields) ++ [some (Token.bracket .curlyClose)]
  | .assign root path value =>
    inRound (targetPieces root path ++ behind (.sign .assign) (inRound value.pieces))
  | .define name params body =>
    inRound (some (.name name) :: inRound (listed (params.map fun param => [some (.name param)]))
      ++ behind (.sign .assign) (inRound body.pieces))
  | .sequence first rest => inRound (first.pieces ++ statementPieces rest)

/-- The pieces of the subject of a `case` block, if it has one. -/
def subjectPieces : Option Term → List Piece
  | none => []
  | some subject => none :: subject.pieces

/-- The pieces of conditions and results. -/
def armsPieces : List (Term × Term) → List Piece
  | [] => []
  | (condition, result) :: rest =>
    behind (.name "when") (inRound condition.pieces)
      ++ behind (.name "then") (inRound result.pieces) ++ armsPieces rest

/-- The pieces of the last result of a `case` block, if it has one. -/
def otherwisePieces : Option Term → List Piece
  | none => []
  | some result => behind (.name "else") (inRound result.pieces)

/-- The pieces of each term. -/
def piecesEach : List Term → List (List Piece)
  | [] => []
  | t :: rest => t.pieces :: piecesEach rest

/-- The pieces of each field of an object. -/
def fieldPieces : List (String × Term) → List (List Piece)
  | [] => []
  | (key, value) :: rest =>
    (some (keyToken key) :: some (.sign .colon) :: none :: value.pieces) :: fieldPieces rest

/-- The pieces of the statements behind the first. -/
def statementPieces : List Term → List Piece
  | [] => []
  | statement :: rest => some .semicolon :: statement.pieces ++ statementPieces rest

end

/-- The canonical text of a term. -/
def Term.text (t : Term) : String := String.ofList (spelled t.pieces)

@[simp] theorem Term.toList_text (t : Term) : t.text.toList = spelled t.pieces :=
  String.toList_ofList

/-! ## Letters -/

section
variable (pieces : List Piece)

@[simp] theorem spelled_inRound :
    spelled (inRound pieces) = "(".toList ++ spelled pieces ++ ")".toList := by
  simp [inRound, Bracket.spelling]

@[simp] theorem spelled_behind (t : Token) :
    spelled (behind t pieces) = " ".toList ++ t.letters ++ " ".toList ++ spelled pieces := by
  simp [behind]

theorem spelled_listed (items : List (List Piece)) :
    spelled (listed items) = ", ".toList.intercalate (items.map spelled) := by
  cases items with
  | nil => rfl
  | cons item rest =>
    rw [listed, spelled_append]
    induction rest generalizing item with
    | nil => simp
    | cons next rest ih =>
      rw [List.map_cons, List.map_cons, List.intercalate_cons_cons, ← List.map_cons, ← ih next,
        List.flatMap_cons, spelled_append]
      simp

theorem letters_wordToken (text : String) : (Scan.wordToken text).letters = text.toList := by
  unfold Scan.wordToken
  split
  · rename_i k hk
    have hspelling : k.spelling = text := by simpa using List.find?_some hk
    rw [Token.letters, hspelling]
  · rfl

theorem letters_keyToken (key : String) : (keyToken key).letters = (keyText key).toList := by
  unfold keyToken keyText
  split
  · exact letters_wordToken key
  · rfl

theorem letters_token (op : BinaryOp) : op.token.letters = op.symbol.toList := by
  cases op <;> rfl

end

/-! ## Replaying code -/

/-- Literals that can be written, and operators that exist. -/
def Term.Written : Term → Prop
  | .literal v => v.literalText = String.ofList (spelled v.pieces)
  | .unary op _ => ∀ spelling, op ≠ .unknown spelling
  | _ => True

/-- The code of the term writes its text on top of what has been written. -/
def Renders (t : Term) : Prop :=
  ∀ s rest, Program.render s (t.code ++ rest) = Program.render (s.push t.text) rest

section
variable {s : TextStack}

@[simp] theorem render_nil (s : TextStack) : Program.render s [] = s := by rw [Program.render]

@[simp] theorem render_cons (s : TextStack) (instr : Instr) (rest : Program) :
    Program.render s (instr :: rest) = Program.render (instr.render s) rest := by
  rw [Program.render]

/-- The texts above those of the stack, the deepest first. -/
def TextStack.pushAll (s : TextStack) (texts : List String) : TextStack :=
  { s with texts := texts.reverse ++ s.texts }

theorem TextStack.pushAll_cons (s : TextStack) (text : String) (texts : List String) :
    s.pushAll (text :: texts) = (s.push text).pushAll texts := by
  simp [pushAll, push]

/-- The text above those of the stack, if there is one. -/
def TextStack.pushOption (s : TextStack) : Option String → TextStack
  | none => s
  | some text => s.push text

theorem TextStack.popMany_pushAll (s : TextStack) (texts : List String) :
    (s.pushAll texts).popMany texts.length = (texts, s) := by
  have hlength : texts.length = texts.reverse.length := texts.length_reverse.symm
  rw [popMany, pushAll, hlength, List.take_left' rfl, List.drop_left' rfl, List.reverse_reverse]

@[simp] theorem TextStack.pop_push (s : TextStack) (text : String) :
    (s.push text).pop = (text, s) := rfl

theorem TextStack.joinTwo_push (s : TextStack) (left right : String)
    (join : String → String → String) :
    ((s.push left).push right).joinTwo join = s.push (join left right) := rfl

theorem TextStack.joinThree_push (s : TextStack) (condition yes no : String) :
    (((s.push condition).push yes).push no).joinThree
      = s.push ("(" ++ condition ++ " ? " ++ yes ++ " : " ++ no ++ ")") := rfl

/-- The text of a program that waits, in parentheses. -/
theorem render_sub {t : Term} (h : Renders t) (s : TextStack) :
    (Instr.sub t.code).render s = s.push (String.ofList (spelled (inRound t.pieces))) := by
  have hbody := h {} []
  rw [List.append_nil, render_nil] at hbody
  rw [Instr.render, hbody]
  refine congrArg s.push (String.toList_inj.mp ?_)
  simp [TextStack.joined, TextStack.push, Term.text]

theorem render_operandsCode {terms : List Term} (h : ∀ t ∈ terms, Renders t) (s : TextStack)
    (rest : Program) : Program.render s (operandsCode terms ++ rest)
      = Program.render (s.pushAll (terms.map Term.text)) rest := by
  induction terms generalizing s with
  | nil => rfl
  | cons t terms ih =>
    obtain ⟨ht, hterms⟩ := List.forall_mem_cons.mp h
    rw [operandsCode, List.append_assoc, ht, ih hterms, List.map_cons, TextStack.pushAll_cons]

theorem render_names (names : List String) (s : TextStack) (rest : Program) :
    Program.render s (names.map .name ++ rest) = Program.render (s.pushAll names) rest := by
  induction names generalizing s with
  | nil => rfl
  | cons name names ih =>
    rw [List.map_cons, List.cons_append, render_cons, Instr.render, ih, TextStack.pushAll_cons]

theorem map_text_eq (terms : List Term) :
    terms.map Term.text = (piecesEach terms).map fun pieces => String.ofList (spelled pieces) := by
  induction terms with
  | nil => rfl
  | cons t terms ih => rw [List.map_cons, piecesEach, List.map_cons, ih, Term.text]

/-- Texts with commas between them are spelled as the list of their pieces. -/
theorem intercalate_texts (items : List (List Piece)) :
    ", ".intercalate (items.map fun pieces => String.ofList (spelled pieces))
      = String.ofList (spelled (listed items)) := by
  refine String.toList_inj.mp ?_
  rw [String.toList_intercalate, String.toList_ofList, spelled_listed, List.map_map]
  simp [Function.comp_def]

theorem render_fieldsCode {fields : List (String × Term)} (h : ∀ field ∈ fields, Renders field.2)
    (texts : List String) (height : Nat) (keys : List String) (objects : List (Nat × List String))
    (rest : Program) :
    Program.render ⟨texts, (height, keys) :: objects⟩ (fieldsCode fields ++ rest)
      = Program.render ⟨(fields.map fun field => field.2.text).reverse ++ texts,
          (height, keys ++ fields.map Prod.fst) :: objects⟩ rest := by
  induction fields generalizing texts keys with
  | nil => simp [fieldsCode]
  | cons field fields ih =>
    obtain ⟨hvalue, hfields⟩ := List.forall_mem_cons.mp h
    obtain ⟨key, value⟩ := field
    rw [fieldsCode, List.cons_append, List.cons_append, List.append_assoc, render_cons,
      Instr.render, TextStack.property, hvalue, TextStack.push, ih hfields]
    simp

/-- The texts of fields with their keys are spelled as their pieces. -/
theorem zip_fields (fields : List (String × Term)) :
    ((fields.map Prod.fst).zip (fields.map fun field => field.2.text)).map
        (fun field => keyText field.1 ++ ": " ++ field.2)
      = (fieldPieces fields).map fun pieces => String.ofList (spelled pieces) := by
  induction fields with
  | nil => rfl
  | cons field fields ih =>
    obtain ⟨key, value⟩ := field
    rw [List.map_cons, List.map_cons, List.zip_cons_cons, List.map_cons, ih, fieldPieces,
      List.map_cons]
    refine congrArg (· :: _) (String.toList_inj.mp ?_)
    simp [letters_keyToken, Sign.spelling]

/-- Conditions and results, each in parentheses. -/
def branchTexts (arms : List (Term × Term)) : List String :=
  arms.flatMap fun arm => [String.ofList (spelled (inRound arm.1.pieces)),
    String.ofList (spelled (inRound arm.2.pieces))]

theorem branchTexts_cons (arm : Term × Term) (arms : List (Term × Term)) :
    branchTexts (arm :: arms) = String.ofList (spelled (inRound arm.1.pieces)) ::
      String.ofList (spelled (inRound arm.2.pieces)) :: branchTexts arms := rfl

theorem length_branchTexts (arms : List (Term × Term)) :
    (branchTexts arms).length = 2 * arms.length := by
  rw [branchTexts, List.length_flatMap]
  simp [Nat.mul_comm]

theorem render_armsCode {arms : List (Term × Term)}
    (h : ∀ arm ∈ arms, Renders arm.1 ∧ Renders arm.2) (s : TextStack) (rest : Program) :
    Program.render s (armsCode arms ++ rest)
      = Program.render (s.pushAll (branchTexts arms)) rest := by
  induction arms generalizing s with
  | nil => rfl
  | cons arm arms ih =>
    obtain ⟨⟨hcondition, hresult⟩, harms⟩ := List.forall_mem_cons.mp h
    obtain ⟨condition, result⟩ := arm
    rw [armsCode, List.cons_append, List.cons_append, render_cons, render_cons,
      render_sub hcondition, render_sub hresult, ih harms, branchTexts_cons,
      TextStack.pushAll_cons, TextStack.pushAll_cons]

theorem toList_armTexts (arms : List (Term × Term)) :
    (TextStack.armTexts (branchTexts arms)).toList = spelled (armsPieces arms) := by
  induction arms with
  | nil => rfl
  | cons arm arms ih =>
    obtain ⟨condition, result⟩ := arm
    rw [branchTexts_cons, TextStack.armTexts, String.toList_append, ih, armsPieces]
    simp

theorem render_statementsCode {terms : List Term} (h : ∀ t ∈ terms, Renders t) (s : TextStack) :
    Program.render s (statementsCode terms) = s.pushAll (terms.map Term.text) := by
  induction terms generalizing s with
  | nil => rfl
  | cons t terms ih =>
    obtain ⟨ht, hterms⟩ := List.forall_mem_cons.mp h
    rw [statementsCode, List.cons_append, render_cons, Instr.render, ht, ih hterms, List.map_cons,
      TextStack.pushAll_cons]

theorem toList_statementTexts (first : Term) (rest : List Term) :
    (";".intercalate (first.text :: rest.map Term.text)).toList
      = spelled (first.pieces ++ statementPieces rest) := by
  rw [String.toList_intercalate, List.map_cons]
  induction rest generalizing first with
  | nil => simp [statementPieces]
  | cons next rest ih =>
    rw [List.map_cons, List.map_cons, List.intercalate_cons_cons, ih, statementPieces]
    simp

/-- An object takes the texts above those that stood there at its beginning. -/
theorem TextStack.objectEnd_eq (s : TextStack) (keys values : List String) :
    objectEnd ⟨values.reverse ++ s.texts, (s.texts.length, keys) :: s.objects⟩
      = s.push (inCurly (", ".intercalate
          ((keys.zip values).map fun field => keyText field.1 ++ ": " ++ field.2))) := by
  have hlength : s.texts.length = s.texts.reverse.length := s.texts.length_reverse.symm
  have hreverse : (values.reverse ++ s.texts).reverse = s.texts.reverse ++ values := by simp
  simp only [objectEnd, List.headD_cons, hreverse, hlength, List.drop_left' rfl,
    List.take_left' rfl, List.reverse_reverse]
  rfl

theorem toList_targetName (root : String) (path : List String) :
    (targetName root path).toList = spelled (targetPieces root path) := by
  rw [targetName, String.toList_intercalate, List.map_cons, targetPieces, spelled_cons]
  induction path generalizing root with
  | nil => simp
  | cons member path ih =>
    rw [List.map_cons, List.intercalate_cons_cons, ih, List.flatMap_cons, spelled_append]
    simp [Sign.spelling, letters_wordToken]

theorem spelled_names (names : List String) :
    spelled (listed (names.map fun name => [some (.name name)]))
      = ", ".toList.intercalate (names.map String.toList) := by
  rw [spelled_listed, List.map_map]
  simp [Function.comp_def]

/-- A text made of letters, by its letters. -/
theorem push_congr {s : TextStack} {text : String} {pieces : List Piece}
    (h : text.toList = spelled pieces) : s.push text = s.push (String.ofList (spelled pieces)) :=
  congrArg s.push (String.toList_inj.mp (h.trans String.toList_ofList.symm))

theorem render_subjectCode {subject : Option Term} (h : ∀ t ∈ subject, Renders t) (s : TextStack)
    (rest : Program) : Program.render s (subjectCode subject ++ rest)
      = Program.render (s.pushOption (subject.map Term.text)) rest := by
  cases subject with
  | none => rfl
  | some t => exact h t rfl s rest

theorem render_otherwiseCode {otherwise : Option Term} (h : ∀ t ∈ otherwise, Renders t)
    (s : TextStack) (rest : Program) : Program.render s (otherwiseCode otherwise ++ rest)
      = Program.render (s.pushOption (otherwise.map fun t =>
          String.ofList (spelled (inRound t.pieces)))) rest := by
  cases otherwise with
  | none => rfl
  | some t =>
    rw [otherwiseCode, List.singleton_append, render_cons, render_sub (h t rfl)]
    rfl

/-- A `case` block takes the texts of its last result, its branches and its subject. -/
theorem TextStack.caseOf_push (s : TextStack) (first last : Option String) {texts : List String}
    {arms : Nat} (h : texts.length = 2 * arms) :
    (((s.pushOption first).pushAll texts).pushOption last).caseOf first.isSome arms last.isSome
      = s.push ("(case" ++ first.elim "" (" " ++ ·) ++ armTexts texts
          ++ last.elim "" (" else " ++ ·) ++ " end)") := by
  cases first <;> cases last <;> simp [caseOf, pushOption, ← h, popMany_pushAll]

theorem render_caseOf {subject otherwise : Option Term} {arms : List (Term × Term)}
    (hsubject : ∀ t ∈ subject, Renders t) (harms : ∀ arm ∈ arms, Renders arm.1 ∧ Renders arm.2)
    (hotherwise : ∀ t ∈ otherwise, Renders t) : Renders (.caseOf subject arms otherwise) := by
  intro s rest
  have hcase := s.caseOf_push (subject.map Term.text)
    (otherwise.map fun t => String.ofList (spelled (inRound t.pieces))) (length_branchTexts arms)
  rw [Option.isSome_map, Option.isSome_map] at hcase
  rw [Term.code, List.append_assoc, List.append_assoc, List.append_assoc,
    render_subjectCode hsubject, render_armsCode harms, render_otherwiseCode hotherwise,
    List.singleton_append, render_cons, Instr.render, hcase]
  refine congrArg (Program.render · rest) (push_congr ?_)
  cases subject <;> cases otherwise <;>
    simp [Term.pieces, subjectPieces, otherwisePieces, toList_armTexts]

theorem textWith_eq {op : UnaryOp} (hop : ∀ spelling, op ≠ .unknown spelling) (operand : Term) :
    (op.textWith operand.text).toList = spelled (inRound (op.pieces operand.pieces)) := by
  cases op with
  | named op =>
    have htext : (UnaryOp.named op).textWith operand.text
        = "(" ++ op.name ++ " " ++ operand.text ++ ")" := by cases op <;> rfl
    simp [htext, UnaryOp.pieces]
  | unknown spelling => exact absurd rfl (hop spelling)
  | _ => simp [UnaryOp.textWith, UnaryOp.symbol, UnaryOp.pieces, Sign.spelling]

/-- **Replaying the code of a term writes the term.** -/
theorem render_code {t : Term} (h : t.Everywhere Term.Written) : Renders t := by
  have hpush : ∀ {t : Term} {s : TextStack} {text : String} (rest : Program),
      text.toList = spelled t.pieces →
        Program.render (s.push text) rest = Program.render (s.push t.text) rest :=
    fun rest htext => congrArg (Program.render · rest) (push_congr htext)
  induction t with
  | literal v =>
    intro s rest
    exact hpush rest (by rw [h.here, String.toList_ofList, Term.pieces])
  | undefined => exact fun s rest => hpush rest (by simp [Term.pieces, Keyword.spelling])
  | var name => exact fun s rest => hpush rest (by simp [Term.pieces])
  | unary op operand ih =>
    intro s rest
    rw [Term.code, List.append_assoc, ih (h.child (by simp [Term.children])),
      List.singleton_append, render_cons, Instr.render]
    exact hpush rest (textWith_eq h.here operand)
  | binary op left right ihl ihr =>
    intro s rest
    rw [Term.code, List.append_assoc, List.append_assoc, ihl (h.child (by simp [Term.children])),
      ihr (h.child (by simp [Term.children])), List.singleton_append, render_cons, Instr.render,
      TextStack.joinTwo_push]
    exact hpush rest (by simp [betweenText, Term.pieces, letters_token])
  | and left right ihl ihr =>
    intro s rest
    rw [Term.code, List.append_assoc, ihl (h.child (by simp [Term.children])), List.cons_append,
      List.singleton_append, render_cons, render_cons,
      render_sub (ihr (h.child (by simp [Term.children]))), Instr.render, TextStack.joinTwo_push]
    exact hpush rest (by simp [betweenText, Term.pieces])
  | or left right ihl ihr =>
    intro s rest
    rw [Term.code, List.append_assoc, ihl (h.child (by simp [Term.children])), List.cons_append,
      List.singleton_append, render_cons, render_cons,
      render_sub (ihr (h.child (by simp [Term.children]))), Instr.render, TextStack.joinTwo_push]
    exact hpush rest (by simp [betweenText, Term.pieces])
  | choose condition yes no ihc ihy ihn =>
    intro s rest
    rw [Term.code, List.append_assoc, ihc (h.child (by simp [Term.children])), List.cons_append,
      List.cons_append, List.singleton_append, render_cons, render_cons, render_cons,
      render_sub (ihy (h.child (by simp [Term.children]))),
      render_sub (ihn (h.child (by simp [Term.children]))), Instr.render, TextStack.joinThree_push]
    exact hpush rest (by simp [Term.pieces, Sign.spelling])
  | caseOf subject arms otherwise ihs iha iho =>
    refine render_caseOf (fun t ht => ihs t ht (h.child (subject_mem_children ht)))
      (fun arm harm => ?_) (fun t ht => iho t ht (h.child (otherwise_mem_children ht)))
    obtain ⟨hcondition, hresult⟩ := mem_children_of_arm harm
    exact ⟨(iha arm harm).1 (h.child hcondition), (iha arm harm).2 (h.child hresult)⟩
  | member target name ih =>
    intro s rest
    rw [Term.code, List.append_assoc, ih (h.child (by simp [Term.children])),
      List.singleton_append, render_cons, Instr.render, TextStack.pop_push]
    exact hpush rest (by simp [Term.pieces, Sign.spelling, letters_wordToken])
  | index target key iht ihk =>
    intro s rest
    rw [Term.code, List.append_assoc, List.append_assoc, iht (h.child (by simp [Term.children])),
      ihk (h.child (by simp [Term.children])), List.singleton_append, render_cons, Instr.render,
      TextStack.joinTwo_push]
    exact hpush rest (by simp [Term.pieces, Bracket.spelling])
  | call callee arguments ihc iha =>
    intro s rest
    have harguments : ∀ t ∈ arguments, Renders t := fun t ht => iha t ht (h.child (.tail _ ht))
    have hpop := (s.push callee.text).popMany_pushAll (arguments.map Term.text)
    rw [List.length_map] at hpop
    rw [Term.code, List.append_assoc, List.append_assoc, ihc (h.child (.head _)),
      render_operandsCode harguments, List.singleton_append, render_cons, Instr.render, hpop]
    simp only [TextStack.pop_push]
    exact hpush rest (by simp [Term.pieces, map_text_eq, intercalate_texts])
  | array items ih =>
    intro s rest
    have hitems : ∀ t ∈ items, Renders t := fun t ht => ih t ht (h.child ht)
    have hpop := s.popMany_pushAll (items.map Term.text)
    rw [List.length_map] at hpop
    rw [Term.code, List.append_assoc, render_operandsCode hitems, List.singleton_append,
      render_cons, Instr.render, hpop]
    exact hpush rest (by simp [Term.pieces, map_text_eq, intercalate_texts, Bracket.spelling])
  | object fields ih =>
    intro s rest
    have hfields : ∀ field ∈ fields, Renders field.2 := fun field hfield =>
      ih field hfield (h.child (List.mem_map_of_mem hfield))
    rw [Term.code, List.append_assoc, List.cons_append, render_cons, Instr.render,
      render_fieldsCode hfields, List.singleton_append, render_cons, Instr.render, List.nil_append,
      TextStack.objectEnd_eq, zip_fields, intercalate_texts]
    exact hpush rest (by simp [inCurly, Term.pieces, Bracket.spelling])
  | assign root path value ih =>
    intro s rest
    rw [Term.code, List.cons_append, List.cons_append, List.singleton_append, render_cons,
      render_cons, render_cons, render_sub (ih (h.child (.head _))), Instr.render, Instr.render,
      TextStack.joinTwo_push]
    exact hpush rest (by simp [betweenText, Term.pieces, Sign.spelling, toList_targetName])
  | define name params body ih =>
    intro s rest
    have hpop := (s.push name).popMany_pushAll params
    rw [Term.code, List.append_assoc, List.cons_append, render_cons, Instr.render, render_names,
      List.cons_append, List.singleton_append, render_cons, render_cons,
      render_sub (ih (h.child (.head _))), Instr.render, TextStack.pop_push]
    simp only [hpop, TextStack.pop_push]
    exact hpush rest (by simp [Term.pieces, Sign.spelling, spelled_names])
  | sequence first others ihf ihr =>
    intro s rest
    have hothers : ∀ t ∈ others, Renders t := fun t ht => ihr t ht (h.child (.tail _ ht))
    rw [Term.code, List.singleton_append, render_cons, Instr.render, ihf (h.child (.head _)),
      render_statementsCode hothers]
    refine hpush rest ?_
    have hjoined : ((({} : TextStack).push first.text).pushAll (others.map Term.text)).joined
        = ";".intercalate (first.text :: others.map Term.text) := by
      simp [TextStack.joined, TextStack.push, TextStack.pushAll]
    rw [hjoined, String.toList_append, String.toList_append, toList_statementTexts, Term.pieces,
      spelled_inRound]

/-- **The canonical text of the code of a term is the text of the term.** -/
theorem Term.text_code {t : Term} (h : t.Everywhere Term.Written) :
    Program.text t.code = t.text := by
  have hrender := render_code h {} []
  rw [List.append_nil, render_nil] at hrender
  rw [Program.text, hrender, TextStack.joined, TextStack.push]
  rfl

end

end Formula
