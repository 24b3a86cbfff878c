import Formula.Proofs.Blocks
import Formula.Proofs.DecimalTexts
import Formula.Proofs.Writing
import Mathlib.Data.List.Induction

/-! # Terms whose canonical text is legible

Canonical text can be read back where it says what the term means.  `Term.Spelled` is what holds of
every term that has been read from a text: its names are words, its operators exist.
`Term.Legible` leaves out the few constructs of which canonical text shows too little: names of
operators that stand as variables before operators, accesses behind a group that the name of an
operator takes to itself, members of numbers, sequences of one statement, and literals that no token
stands for.

The text of a legible term is read as the tokens of its pieces (`Term.lexesTo_text`).
-/
namespace Formula

/-! ## What texts spell -/

/-- A name that texts can give to a variable, a function or a parameter. -/
structure VariableName (constants : Dict Value) (n : String) : Prop
    extends Grammar.FreeName constants n where
  letters : Scan.IsWord n.toList
  keyword : Keyword.ofSpelling? n = none

/-- The parts of the construct that are no terms can be written in a text. -/
def Term.Spelled (constants : Dict Value) : Term → Prop
  | .var name => VariableName constants name
  | .unary op _ => ∀ spelling, op ≠ .unknown spelling
  | .binary op _ _ => ∀ spelling, op ≠ .unknown spelling
  | .caseOf _ arms _ => arms ≠ []
  | .member _ name => Scan.IsWord name.toList
  | .object fields => ∀ field ∈ fields, isProtected field.1 = false
  | .assign root path _ =>
    VariableName constants root ∧ ∀ member ∈ path, Scan.IsWord member.toList
  | .define name params _ => ∀ n ∈ name :: params, VariableName constants n
  | _ => True

/-! ## What canonical text shows -/

namespace Term

/-- Whether the construct stands in parentheses. -/
def isGroup : Term → Bool
  | .unary _ _ | .binary _ _ _ | .and _ _ | .or _ _ | .choose _ _ _ | .caseOf _ _ _
  | .assign _ _ _ | .define _ _ _ | .sequence _ _ => true
  | _ => false

/-- What accesses and calls start from. -/
def head : Term → Term
  | .member target _ | .index target _ | .call target _ => target.head
  | t => t

/-- Whether the term is a variable with the name of an operator. -/
def namesOperator : Term → Bool
  | .var name => (NamedOp.ofName? name).isSome
  | _ => false

/-- The operands that stand before an operator, a word or an access. -/
def exposed : Term → List Term
  | .unary .factorial operand => [operand]
  | .binary _ left _ | .and left _ | .or left _ => [left]
  | .choose condition _ _ => [condition]
  | .caseOf subject _ _ => subject.toList
  | .member target _ | .index target _ | .call target _ => [target]
  | .assign root _ _ | .define root _ _ => [.var root]
  | _ => []

end Term

/-- The literal of the value is one token that is read as the value.  Of numbers these are the
finite ones without a minus sign. -/
def Value.ReadsBack : Value → Prop
  | .bool _ | .string _ => True
  | .number x => Binary64.isFinite x = true ∧ Binary64.isNegative x = false
  | _ => False

/-- Canonical text shows what the construct is. -/
structure Term.Legible (t : Term) : Prop where
  /-- The name of an operator is applied to what stands behind it. -/
  exposed : ∀ operand ∈ t.exposed, operand.namesOperator = false
  literal : ∀ v, t = .literal v → v.ReadsBack
  /-- The name of an operator takes parentheses behind it to itself, but no access to them. -/
  named : ∀ op operand, t = .unary (.named op) operand →
    operand.head.isGroup = true → operand.isGroup = true
  /-- A point behind a number belongs to the number. -/
  member : ∀ x name, t ≠ .member (.literal (.number x)) name
  /-- The semicolon behind a single statement is not written. -/
  sequence : ∀ first, t ≠ .sequence first []

/-- The construct can be written, and canonical text shows what it is. -/
structure Term.Shown (constants : Dict Value) (t : Term) : Prop where
  spelled : t.Spelled constants
  legible : t.Legible

/-! ## Tokens -/

/-- The tokens of the canonical text of a term. -/
def Term.tokens (t : Term) : List Token := t.pieces.reduceOption

section
variable (pieces : List Piece)

@[simp] theorem reduceOption_inRound : (inRound pieces).reduceOption
    = .bracket .roundOpen :: pieces.reduceOption ++ [Token.bracket .roundClose] := by
  simp [inRound, List.reduceOption_append]

@[simp] theorem reduceOption_behind (t : Token) :
    (behind t pieces).reduceOption = t :: pieces.reduceOption := by
  simp [behind]

theorem reduceOption_listed (items : List (List Piece)) :
    (listed items).reduceOption = separated (items.map List.reduceOption) := by
  cases items with
  | nil => rfl
  | cons item rest =>
    rw [listed, List.reduceOption_append, List.map_cons, separated]
    refine congrArg (item.reduceOption ++ ·) ?_
    induction rest with
    | nil => rfl
    | cons next rest ih =>
      rw [List.flatMap_cons, List.reduceOption_append, ih, List.map_cons, List.flatMap_cons]
      simp

theorem piecesEach_eq_map (terms : List Term) : piecesEach terms = terms.map Term.pieces := by
  induction terms with
  | nil => rfl
  | cons t terms ih => rw [piecesEach, ih, List.map_cons]

theorem fieldPieces_eq_map (fields : List (String × Term)) : fieldPieces fields =
    fields.map fun field =>
      some (keyToken field.1) :: some (.sign .colon) :: none :: field.2.pieces := by
  induction fields with
  | nil => rfl
  | cons field fields ih => rw [fieldPieces, ih, List.map_cons]

theorem reduceOption_listed_piecesEach (terms : List Term) :
    (listed (piecesEach terms)).reduceOption = separated (terms.map Term.tokens) := by
  rw [reduceOption_listed, piecesEach_eq_map, List.map_map]
  rfl

end

/-! ## First tokens -/

/-- What canonical text begins with. -/
structure Term.Begins (t : Term) : Prop where
  opens : (ahead t.tokens).opens = true
  name : ∀ n, ahead t.tokens = .name n → n ∉ Grammar.caseWords
  bare : t.head.isGroup = false → Grammar.endsName (ahead t.tokens) = false

section
variable {constants : Dict Value} {t : Term}

theorem Term.begins_group (hgroup : t.isGroup = true) {ts : List Token}
    (h : t.tokens = .bracket .roundOpen :: ts) : t.Begins := by
  have hhead : t.head.isGroup = true := by
    cases t <;> first | exact hgroup | cases hgroup
  refine ⟨?_, ?_, fun hbare => ?_⟩
  · rw [h]
    rfl
  · rw [h]
    simp
  · rw [hhead] at hbare
    cases hbare

theorem Term.begins_token {k : Token} {ts : List Token} (h : t.tokens = k :: ts)
    (hopens : k.opens = true) (hname : ∀ n, k = .name n → n ∉ Grammar.caseWords)
    (hbare : Grammar.endsName k = false) : t.Begins := by
  refine ⟨?_, ?_, fun _ => ?_⟩ <;> rw [h]
  · exact hopens
  · exact hname
  · exact hbare

theorem Term.Begins.access {target : Term} (htarget : target.Begins) {pieces : List Piece}
    (h : t.pieces = target.pieces ++ pieces) (hhead : t.head = target.head) : t.Begins := by
  have hahead : ahead t.tokens = ahead target.tokens := by
    rw [tokens, h, List.reduceOption_append]
    exact ahead_append htarget.opens _
  refine ⟨?_, ?_, fun hbare => ?_⟩ <;> rw [hahead]
  · exact htarget.opens
  · exact htarget.name
  · exact htarget.bare (hhead ▸ hbare)

theorem Term.begins (h : t.Everywhere (Term.Shown constants)) : t.Begins := by
  induction t with
  | literal v =>
    have hv := h.here.legible.literal v rfl
    cases v with
    | bool b => exact begins_token rfl rfl (by simp) rfl
    | number x => exact begins_token rfl rfl (by simp) rfl
    | string s => exact begins_token rfl rfl (by simp) rfl
    | _ => exact hv.elim
  | undefined => exact begins_token rfl rfl (by simp) rfl
  | var name =>
    refine begins_token rfl rfl ?_ rfl
    rintro _ ⟨⟩
    exact h.here.spelled.word
  | member target name ih => exact (ih (h.child (.head _))).access rfl rfl
  | index target key ih _ =>
    exact (ih (h.child (.head _))).access (List.append_assoc _ _ _) rfl
  | call callee arguments ih _ => exact (ih (h.child (.head _))).access rfl rfl
  | array items => exact begins_token rfl rfl (by simp) rfl
  | object fields => exact begins_token rfl rfl (by simp) rfl
  | _ => exact begins_group rfl rfl

end

/-! ## Text -/

section
variable {p q : Char → Bool} {front pieces : List Piece} {items : List (List Piece)}

theorem lexesBefore_bracketed (opening closing : Bracket) (h : LexesBefore q pieces)
    (hq : (Piece.letters (some (.bracket closing))).head?.any q = true) :
    LexesBefore p (some (.bracket opening) :: pieces ++ [some (Token.bracket closing)]) :=
  (h.append ((lexesBefore_token (.bracket closing) trivial).mono fun _ _ => rfl) hq).cons trivial
    fun _ => rfl

theorem lexesBefore_inRound (h : LexesBefore q pieces) (hq : q ')' = true) :
    LexesBefore p (inRound pieces) := lexesBefore_bracketed .roundOpen .roundClose h hq

/-- A token between blanks behind pieces that end before a blank. -/
theorem LexesBefore.behind {t : Token} (hf : LexesBefore q front) (hq : q ' ' = true)
    (ht : t.Spellable) (hends : t.endsAt ' ' = true) (h : LexesBefore p pieces) :
    LexesBefore p (front ++ behind t pieces) :=
  hf.append ((lexesBefore_token t ht).append h.gap hends).gap hq

theorem lexesBefore_listed (h : ∀ item ∈ items, LexesBefore isBoundary item) :
    LexesBefore isBoundary (listed items) := by
  cases items with
  | nil => exact lexesBefore_nil
  | cons item rest =>
    rw [listed]
    induction rest generalizing item with
    | nil => simpa using h
    | cons next rest ih =>
      obtain ⟨hitem, hrest⟩ := List.forall_mem_cons.mp h
      have hcomma : LexesBefore isBoundary (some .comma :: none ::
          (next ++ rest.flatMap fun item => some .comma :: none :: item)) :=
        (ih next hrest).gap.cons trivial fun _ => rfl
      exact hitem.append hcomma (by decide)

/-- A member name behind a point. -/
theorem LexesBefore.member (h : LexesBefore (!Scan.isNameChar ·) pieces) {name : String}
    (hname : Scan.IsWord name.toList) : LexesBefore (!Scan.isNameChar ·)
      (pieces ++ [some (Token.sign .dot), some (Scan.wordToken name)]) := by
  have hword : LexesBefore (!Scan.isNameChar ·) [some (Scan.wordToken name)] :=
    (lexesBefore_token _ (spellable_wordToken hname)).mono fun c hc => by rwa [endsAt_wordToken]
  have hfirst : (Piece.letters (some (Scan.wordToken name))).head?.any
      (Token.endsAt · (.sign .dot)) = true := by
    rw [letters_some, letters_wordToken]
    exact hname.head
  exact h.append ((lexesBefore_token (.sign .dot) trivial).append hword hfirst) (by decide)

theorem lexesBefore_target {root : String} {path : List String}
    (hroot : (Token.name root).Spellable) (hpath : ∀ member ∈ path, Scan.IsWord member.toList) :
    LexesBefore (!Scan.isNameChar ·) (targetPieces root path) := by
  induction path using List.reverseRecOn with
  | nil => exact lexesBefore_token _ hroot
  | append_singleton path member ih =>
    obtain ⟨hpath, hmember⟩ := List.forall_mem_append.mp hpath
    have htarget : targetPieces root (path ++ [member])
        = targetPieces root path ++ [some (Token.sign .dot), some (Scan.wordToken member)] := by
      simp [targetPieces, List.flatMap_append]
    rw [htarget]
    exact (ih hpath).member (hmember member (.head _))

end

/-- The words of the language that stand between terms. -/
def operatorWords : List String := ["and", "or", "in", "case", "when", "then", "else", "end"]

theorem spellable_word {word : String} (h : word ∈ operatorWords) :
    (Token.name word).Spellable := by
  simp only [operatorWords, List.mem_cons, List.not_mem_nil, or_false] at h
  rcases h with rfl | rfl | rfl | rfl | rfl | rfl | rfl | rfl <;>
    exact ⟨.of_all rfl, rfl⟩

theorem spellable_named (op : NamedOp) : (Token.name op.name).Spellable := by
  cases op <;> exact ⟨.of_all rfl, rfl⟩

theorem spellable_operator {op : BinaryOp} (h : ∀ spelling, op ≠ .unknown spelling) :
    op.token.Spellable ∧ op.token.endsAt ' ' = true := by
  cases op with
  | isIn => exact ⟨spellable_word (by decide), rfl⟩
  | unknown spelling => exact absurd rfl (h spelling)
  | _ => exact ⟨trivial, rfl⟩

theorem isWord_of_isPlainKey {key : String} (h : isPlainKey key = true) :
    Scan.IsWord key.toList := by
  unfold isPlainKey at h
  split at h
  · cases h
  · rename_i first rest hkey
    obtain ⟨hfirst, hrest⟩ := Bool.and_eq_true_iff.mp h
    rw [hkey]
    refine .plain hfirst fun c hc => ?_
    have hchar := List.all_eq_true.mp hrest c hc
    simp only [Char.isAlphanum, Bool.or_eq_true, decide_eq_true_eq] at hchar
    rcases hchar with (halpha | hdigit) | rfl
    · exact Scan.isNameChar_of_isAlpha halpha
    · simp [Scan.isNameChar, Scan.isDigit_of_isDigit hdigit]
    · decide

theorem spellable_keyToken (key : String) :
    (keyToken key).Spellable ∧ (keyToken key).endsAt ':' = true := by
  unfold keyToken
  split
  · rename_i hplain
    exact ⟨spellable_wordToken (isWord_of_isPlainKey hplain), endsAt_wordToken key ':'⟩
  · exact ⟨trivial, rfl⟩

/-- What the text of the term ends before. -/
def Term.endsAt (c : Char) : Term → Bool
  | .literal (.number _) => isBoundary c
  | _ => !Scan.isNameChar c

/-- The text of the term is read as its tokens, before all that ends it. -/
def Term.Lexes (t : Term) : Prop := LexesBefore (t.endsAt ·) t.pieces

section
variable {constants : Dict Value} {t : Term}

theorem Term.Lexes.boundary (h : t.Lexes) : LexesBefore isBoundary t.pieces := by
  refine h.mono fun c hc => ?_
  unfold endsAt
  split
  · exact hc
  · exact (Bool.and_eq_true_iff.mp hc).1

theorem Term.Lexes.inRound (h : t.Lexes) {p : Char → Bool} : LexesBefore p (inRound t.pieces) :=
  lexesBefore_inRound h.boundary (by decide)

theorem lexesBefore_each {terms : List Term} (h : ∀ t ∈ terms, t.Lexes) :
    LexesBefore isBoundary (listed (piecesEach terms)) := by
  refine lexesBefore_listed fun item hitem => ?_
  rw [piecesEach_eq_map] at hitem
  obtain ⟨t, ht, rfl⟩ := List.mem_map.mp hitem
  exact (h t ht).boundary

theorem lexesBefore_key {key : String} {pieces : List Piece} {p : Char → Bool}
    (h : LexesBefore p pieces) :
    LexesBefore p (some (keyToken key) :: some (.sign .colon) :: none :: pieces) := by
  obtain ⟨hkey, hends⟩ := spellable_keyToken key
  refine (lexesBefore_token _ hkey).append (h.gap.cons trivial fun _ => rfl) ?_
  exact hends

theorem lexesBefore_fields {fields : List (String × Term)}
    (h : ∀ field ∈ fields, field.2.Lexes) :
    LexesBefore isBoundary (listed (fieldPieces fields)) := by
  refine lexesBefore_listed fun item hitem => ?_
  rw [fieldPieces_eq_map] at hitem
  obtain ⟨field, hfield, rfl⟩ := List.mem_map.mp hitem
  exact lexesBefore_key (h field hfield).boundary

/-- A function with its parameters. -/
theorem lexesBefore_head {name : String} {params : List String}
    (h : ∀ n ∈ name :: params, (Token.name n).Spellable) : LexesBefore isBoundary
      (some (.name name) :: inRound (listed (params.map fun param => [some (.name param)]))) := by
  obtain ⟨hname, hparams⟩ := List.forall_mem_cons.mp h
  have hitems : LexesBefore isBoundary (listed (params.map fun param => [some (.name param)])) := by
    refine lexesBefore_listed fun item hitem => ?_
    obtain ⟨param, hparam, rfl⟩ := List.mem_map.mp hitem
    refine (lexesBefore_token _ (hparams param hparam)).mono fun c hc => ?_
    exact (Bool.and_eq_true_iff.mp hc).1
  exact (lexesBefore_token _ hname).append (lexesBefore_inRound hitems (by decide)) rfl

theorem lexesBefore_statements {first : Term} {others : List Term}
    (h : ∀ t ∈ first :: others, t.Lexes) :
    LexesBefore isBoundary (first.pieces ++ statementPieces others) := by
  induction others generalizing first with
  | nil =>
    rw [statementPieces, List.append_nil]
    exact (h first (.head _)).boundary
  | cons next others ih =>
    obtain ⟨hfirst, hothers⟩ := List.forall_mem_cons.mp h
    exact hfirst.boundary.append ((ih hothers).cons trivial fun _ => rfl) (by decide)

/-- A word behind a blank, and a term in parentheses. -/
theorem lexesBefore_branch {word : String} (hword : word ∈ operatorWords) (h : t.Lexes)
    {p : Char → Bool} : LexesBefore p (behind (.name word) (inRound t.pieces)) :=
  ((lexesBefore_token _ (spellable_word hword)).append h.inRound.gap rfl).gap

theorem lexesBefore_arms {arms : List (Term × Term)}
    (h : ∀ arm ∈ arms, arm.1.Lexes ∧ arm.2.Lexes) :
    LexesBefore (fun _ => true) (armsPieces arms) := by
  induction arms with
  | nil => exact lexesBefore_nil
  | cons arm arms ih =>
    obtain ⟨⟨hcondition, hresult⟩, harms⟩ := List.forall_mem_cons.mp h
    obtain ⟨condition, result⟩ := arm
    rw [armsPieces]
    exact ((lexesBefore_branch (by decide) hcondition).append_of_any
      (lexesBefore_branch (by decide) hresult)).append_of_any (ih harms)

theorem lexesBefore_otherwise {otherwise : Option Term} (h : ∀ t ∈ otherwise, t.Lexes) :
    LexesBefore (fun _ => true) (otherwisePieces otherwise) := by
  cases otherwise with
  | none => exact lexesBefore_nil
  | some t => exact lexesBefore_branch (by decide) (h t rfl)

theorem lexesBefore_case {subject otherwise : Option Term} {arms : List (Term × Term)}
    (hsubject : ∀ t ∈ subject, t.Lexes) (harms : ∀ arm ∈ arms, arm.1.Lexes ∧ arm.2.Lexes)
    (hotherwise : ∀ t ∈ otherwise, t.Lexes) : (Term.caseOf subject arms otherwise).Lexes := by
  have hend : LexesBefore (!Scan.isNameChar ·) [none, some (.name "end")] :=
    (lexesBefore_token _ (spellable_word (by decide))).gap
  have hcase := lexesBefore_token (.name "case") (spellable_word (by decide))
  have hbody := ((lexesBefore_arms harms).append_of_any
    (lexesBefore_otherwise hotherwise)).append_of_any hend
  -- a blank stands behind the subject, or behind the first word if there is none
  have hgap : ∃ pieces,
      armsPieces arms ++ otherwisePieces otherwise ++ [none, some (Token.name "end")]
        = none :: pieces := by
    cases arms <;> cases otherwise <;> exact ⟨_, rfl⟩
  obtain ⟨pieces, hpieces⟩ := hgap
  rw [hpieces] at hbody
  rw [Term.Lexes, Term.pieces, List.append_assoc, List.append_assoc, ← List.append_assoc
    (armsPieces arms), hpieces]
  refine lexesBefore_inRound (q := (!Scan.isNameChar ·)) ?_ (by decide)
  cases subject with
  | none => exact hcase.append hbody (by decide)
  | some t =>
    exact hcase.append ((hsubject t rfl).boundary.append hbody (by decide)).gap (by decide)

theorem Term.lexes (h : t.Everywhere (Term.Shown constants)) : t.Lexes := by
  induction t with
  | literal v =>
    have hv := h.here.legible.literal v rfl
    cases v with
    | bool b => exact lexesBefore_token (.keyword _) trivial
    | number x => exact lexesBefore_token (.number x) (Number.readsBack_of_finite hv.1 hv.2)
    | string s => exact (lexesBefore_token (.string s) trivial).mono fun _ _ => rfl
    | _ => exact hv.elim
  | undefined => exact lexesBefore_token (.keyword _) trivial
  | var name =>
    have hname := h.here.spelled
    exact lexesBefore_token (.name name) ⟨hname.letters, hname.keyword⟩
  | unary op operand ih =>
    have hoperand := (ih (h.child (.head _))).boundary
    rw [Lexes, pieces]
    cases op with
    | negate | plus =>
      exact lexesBefore_inRound (hoperand.cons trivial fun _ => rfl) (by decide)
    | factorial =>
      exact lexesBefore_inRound (hoperand.append (lexesBefore_token _ trivial) (by decide))
        (by decide)
    | named op =>
      exact lexesBefore_inRound ((lexesBefore_token _ (spellable_named op)).append hoperand.gap
        rfl) (by decide)
    | unknown spelling => exact absurd rfl (h.here.spelled spelling)
  | binary op left right ihl ihr =>
    obtain ⟨hop, hends⟩ := spellable_operator h.here.spelled
    have hleft := (ihl (h.child (by simp [children]))).boundary
    have hright := (ihr (h.child (by simp [children]))).boundary
    exact lexesBefore_inRound (hleft.behind (by decide) hop hends hright) (by decide)
  | and left right ihl ihr | or left right ihl ihr =>
    have hleft := (ihl (h.child (by simp [children]))).boundary
    have hright := (ihr (h.child (by simp [children]))).inRound (p := isBoundary)
    exact lexesBefore_inRound (hleft.behind (by decide) (spellable_word (by decide)) rfl hright)
      (by decide)
  | choose condition yes no ihc ihy ihn =>
    have hcondition := (ihc (h.child (by simp [children]))).boundary
    have hyes := (ihy (h.child (by simp [children]))).inRound (p := isBoundary)
    have hno := (ihn (h.child (by simp [children]))).inRound (p := isBoundary)
    have hbranch := hcondition.behind (by decide) (t := .sign .question) trivial rfl hyes
    exact lexesBefore_inRound (hbranch.behind (by decide) (t := .sign .colon) trivial rfl hno)
      (by decide)
  | caseOf subject arms otherwise ihs iha iho =>
    refine lexesBefore_case (fun t ht => ihs t ht (h.child (subject_mem_children ht)))
      (fun arm harm => ?_) fun t ht => iho t ht (h.child (otherwise_mem_children ht))
    obtain ⟨hcondition, hresult⟩ := mem_children_of_arm harm
    exact ⟨(iha arm harm).1 (h.child hcondition), (iha arm harm).2 (h.child hresult)⟩
  | member target name ih =>
    have htarget : LexesBefore (!Scan.isNameChar ·) target.pieces := by
      refine (ih (h.child (.head _))).mono fun c hc => ?_
      unfold endsAt
      -- only a number would take the point to itself
      split
      · exact absurd rfl (h.here.legible.member _ name)
      · exact hc
    exact htarget.member h.here.spelled
  | index target key iht ihk =>
    have htarget := (iht (h.child (by simp [children]))).boundary
    have hkey := (ihk (h.child (by simp [children]))).boundary
    rw [Lexes, pieces, List.append_assoc]
    exact htarget.append (lexesBefore_bracketed .squareOpen .squareClose hkey (by decide))
      (by decide)
  | call callee arguments ihc iha =>
    have hcallee := (ihc (h.child (.head _))).boundary
    have harguments := lexesBefore_each fun t ht => iha t ht (h.child (.tail _ ht))
    exact hcallee.append (lexesBefore_inRound harguments (by decide)) (by decide)
  | array items ih =>
    exact lexesBefore_bracketed .squareOpen .squareClose
      (lexesBefore_each fun t ht => ih t ht (h.child ht)) (by decide)
  | object fields ih =>
    exact lexesBefore_bracketed .curlyOpen .curlyClose (lexesBefore_fields fun field hfield =>
      ih field hfield (h.child (List.mem_map_of_mem hfield))) (by decide)
  | assign root path value ih =>
    obtain ⟨hroot, hpath⟩ := h.here.spelled
    have htarget := lexesBefore_target ⟨hroot.letters, hroot.keyword⟩ hpath
    have hvalue := (ih (h.child (.head _))).inRound (p := isBoundary)
    exact lexesBefore_inRound (htarget.behind (by decide) (t := .sign .assign) trivial rfl hvalue)
      (by decide)
  | define name params body ih =>
    have hbody := (ih (h.child (.head _))).inRound (p := isBoundary)
    have hhead := lexesBefore_head fun n hn =>
      ⟨(h.here.spelled n hn).letters, (h.here.spelled n hn).keyword⟩
    exact lexesBefore_inRound (hhead.behind (by decide) (t := .sign .assign) trivial rfl hbody)
      (by decide)
  | sequence first others ihf ihr =>
    have hothers : ∀ t ∈ first :: others, t.Lexes := by
      refine List.forall_mem_cons.mpr ⟨ihf (h.child (.head _)), fun t ht => ?_⟩
      exact ihr t ht (h.child (.tail _ ht))
    exact lexesBefore_inRound (lexesBefore_statements hothers) (by decide)

end
end Formula
