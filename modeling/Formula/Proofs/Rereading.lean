import Formula.Expression
import Formula.Proofs.Legibility

/-! # Legible canonical text is read as its term

On the tokens of the canonical text of a legible term the parser answers the term, if everything is
on and the limit of nesting is high enough (`Term.parse_text`).

A term stands in canonical text before an operator, where it is read on the level of the operator
(`Grammar.Bare`), or before a bracket or a comma, where every level ends (`Grammar.Last`).  Only
there the name of an operator can stand.  Each construct spends nine levels of nesting: three on its
own parentheses, three on those of its parts, and three on the levels between them.
-/
namespace Formula

/-! ## Heights -/

mutual

/-- How many constructs stand in each other. -/
def Term.height : Term → Nat
  | .literal _ | .undefined | .var _ => 0
  | .unary _ operand | .member operand _ | .assign _ _ operand | .define _ _ operand =>
    operand.height + 1
  | .binary _ left right | .and left right | .or left right | .index left right =>
    max left.height right.height + 1
  | .choose condition yes no => max condition.height (max yes.height no.height) + 1
  | .caseOf subject arms otherwise =>
    max (optionHeight subject) (max (armsHeight arms) (optionHeight otherwise)) + 1
  | .call first rest | .sequence first rest => max first.height (heightEach rest) + 1
  | .array items => heightEach items + 1
  | .object fields => fieldsHeight fields + 1

/-- The height of a term, if there is one. -/
def optionHeight : Option Term → Nat
  | none => 0
  | some t => t.height

/-- The height of the highest condition or result. -/
def armsHeight : List (Term × Term) → Nat
  | [] => 0
  | (condition, result) :: rest => max condition.height (max result.height (armsHeight rest))

/-- The height of the highest term. -/
def heightEach : List Term → Nat
  | [] => 0
  | t :: rest => max t.height (heightEach rest)

/-- The height of the highest field. -/
def fieldsHeight : List (String × Term) → Nat
  | [] => 0
  | (_, value) :: rest => max value.height (fieldsHeight rest)

end

theorem height_eq_optionHeight {t : Term} {o : Option Term} (h : t ∈ o) :
    t.height = optionHeight o := by
  obtain rfl := h
  rfl

theorem height_le_heightEach {t : Term} {terms : List Term} (h : t ∈ terms) :
    t.height ≤ heightEach terms := by
  induction terms with
  | nil => cases h
  | cons head rest ih =>
    rw [heightEach]
    rcases List.mem_cons.mp h with rfl | hrest
    · exact Nat.le_max_left _ _
    · exact Nat.le_trans (ih hrest) (Nat.le_max_right _ _)

theorem height_le_armsHeight {arm : Term × Term} {arms : List (Term × Term)} (h : arm ∈ arms) :
    arm.1.height ≤ armsHeight arms ∧ arm.2.height ≤ armsHeight arms := by
  induction arms with
  | nil => cases h
  | cons head rest ih =>
    obtain ⟨condition, result⟩ := head
    rw [armsHeight]
    rcases List.mem_cons.mp h with rfl | hrest
    · constructor <;> dsimp only <;> omega
    · have := ih hrest
      omega

theorem height_le_fieldsHeight {field : String × Term} {fields : List (String × Term)}
    (h : field ∈ fields) : field.2.height ≤ fieldsHeight fields := by
  induction fields with
  | nil => cases h
  | cons head rest ih =>
    obtain ⟨key, value⟩ := head
    rw [fieldsHeight]
    rcases List.mem_cons.mp h with rfl | hrest
    · exact Nat.le_max_left _ _
    · exact Nat.le_trans (ih hrest) (Nat.le_max_right _ _)

/-- The parts of a construct are lower than it. -/
theorem Term.height_lt {t child : Term} (h : child ∈ t.children) : child.height < t.height := by
  cases t with
  | caseOf subject arms otherwise =>
    simp only [children, List.mem_append, List.mem_flatMap] at h
    rw [height]
    rcases h with (hsubject | ⟨arm, harm, hchild⟩) | hotherwise
    · have := height_eq_optionHeight (Option.mem_toList.mp hsubject)
      omega
    · have := height_le_armsHeight harm
      simp only [List.mem_cons, List.not_mem_nil, or_false] at hchild
      rcases hchild with rfl | rfl <;> omega
    · have := height_eq_optionHeight (Option.mem_toList.mp hotherwise)
      omega
  | call first rest | sequence first rest =>
    rw [height]
    rcases List.mem_cons.mp h with rfl | hrest
    · omega
    · have := height_le_heightEach hrest
      omega
  | array items =>
    rw [height]
    exact Nat.lt_succ_of_le (height_le_heightEach h)
  | object fields =>
    obtain ⟨field, hfield, rfl⟩ := List.mem_map.mp h
    rw [height]
    exact Nat.lt_succ_of_le (height_le_fieldsHeight hfield)
  | literal | undefined | var => cases h
  | _ =>
    simp only [children, List.mem_cons, List.not_mem_nil, or_false] at h
    rw [height]
    rcases h with rfl | rfl | rfl <;> omega

/-! ## Operands -/

namespace Grammar

/-- From depth `n` on every level reads the tokens as the term. -/
structure Bare (g : Grammar) (n : Nat) (ts : List Token) (t : Term) : Prop where
  leads : Leads ts
  readable : ∀ (L : Rank) (d : Nat), n + L.spare ≤ d → g.Readable (g.level d) L ts t

section
variable {g : Grammar} (hfinish : g.finish.token = .finish) {n d : Nat} {ts : List Token}
  {t : Term}
include hfinish

theorem Bare.spells (h : g.Bare n ts t) {L : Rank} (hd : n + L.spare ≤ d) :
    Spells (g.reader (g.level d) L) L.tightness ts t := (h.readable L d hd).spells hfinish

theorem Bare.last (h : g.Bare n ts t) : g.Last n ts t :=
  fun _ _ hd => (h.spells hfinish hd).encloses

theorem Bare.assignment (h : g.Bare n ts t) (hd : n + 3 ≤ d) :
    Spells (g.level d .assignment) 0 ts t := by
  cases d with
  | zero => cases hd
  | succ d => exact (h.readable .assignment d (Nat.le_of_succ_le_succ hd)).spells hfinish

theorem Bare.conditional (h : g.Bare n ts t) (hd : n + 2 ≤ d) :
    Spells (g.level d .conditional) Rank.conditional.tightness ts t := by
  cases d with
  | zero => cases hd
  | succ d => exact (h.readable .conditional d (Nat.le_of_succ_le_succ hd)).spells hfinish

theorem Bare.of_access (hleads : Leads ts) (h : ∀ d, n ≤ d → g.Readable (g.level d) .access ts t) :
    g.Bare n ts t :=
  ⟨hleads, fun L d hd =>
    Readable.climb hfinish h (fun _ => hleads) L L.tightness_le_access d hd⟩

/-- Parentheses make an operand of what is read between them. -/
theorem bare_group (h : ∀ d, n ≤ d → g.Fills (g.level d) ts t) :
    g.Bare n (.bracket .roundOpen :: ts ++ [Token.bracket .roundClose]) t :=
  .of_access hfinish (leads_of_ahead _ (by simp) (by simp)) fun d hd =>
    readable_group (h d hd)

/-- What a level reads can stand between parentheses. -/
theorem fills_of_encloses {L : Rank} (hleads : Rank.factor.tightness < L.tightness → Leads ts)
    (h : ∀ d, n + L.spare ≤ d → Encloses (g.reader (g.level d) L) ts t) (hd : n + 3 ≤ d) :
    g.Fills (g.level d) ts t := by
  have hunapplied : Rank.factor.tightness < L.tightness →
      ∀ rest, (ahead rest).closes = true → Unapplied (ts ++ rest) := fun hlt rest _ =>
    ((hleads hlt).append rest).unapplied
  cases d with
  | zero => cases hd
  | succ d =>
    have hassignment := Encloses.climb hfinish h hunapplied .assignment (Nat.zero_le _) d
      (Nat.le_of_succ_le_succ hd)
    exact Encloses.fills hfinish hassignment

end
end Grammar

/-! ## Positions -/

/-- The term is read in every place where canonical text puts it. -/
structure Term.Rereads (g : Grammar) (t : Term) : Prop where
  /-- Before operators. -/
  bare : t.namesOperator = false → g.Bare (9 * t.height) t.tokens t
  /-- Before brackets and commas. -/
  last : g.Last (9 * t.height) t.tokens t
  /-- Between the parentheses that it stands in. -/
  group : t.isGroup = true → ∃ ts, t.tokens = .bracket .roundOpen :: ts ++ [Token.bracket .roundClose] ∧
    ∀ d, 9 * t.height ≤ d → g.Fills (g.level d) ts t

section
variable {g : Grammar} (hon : g.options.AllOn) (hfinish : g.finish.token = .finish) {t : Term}
  {ts : List Token}
include hfinish

theorem Term.rereads_of_access (hgroup : t.isGroup = false) (hleads : Leads t.tokens)
    (h : ∀ d, 9 * t.height ≤ d → g.Readable (g.level d) .access t.tokens t) : t.Rereads g := by
  have hbare := Grammar.Bare.of_access hfinish hleads h
  refine ⟨fun _ => hbare, hbare.last hfinish, fun htrue => ?_⟩
  rw [hgroup] at htrue
  cases htrue

/-- What a level reads is read in parentheses. -/
theorem Term.rereads_of_fills (ts : List Token)
    (htokens : t.tokens = .bracket .roundOpen :: ts ++ [Token.bracket .roundClose])
    (h : ∀ d, 9 * t.height ≤ d → g.Fills (g.level d) ts t) : t.Rereads g := by
  have hbare : g.Bare (9 * t.height) t.tokens t := by
    rw [htokens]
    exact Grammar.bare_group hfinish h
  exact ⟨fun _ => hbare, hbare.last hfinish, fun _ => ⟨ts, htokens, h⟩⟩

section
variable (L : Rank) {n : Nat} (hheight : t.height = n + 1) (ts : List Token)
  (htokens : t.tokens = .bracket .roundOpen :: ts ++ [Token.bracket .roundClose])
  (hleads : Rank.factor.tightness < L.tightness → Leads ts)
include hheight htokens hleads

theorem Term.rereads_of_encloses
    (h : ∀ d, 9 * n + 6 + L.spare ≤ d → Grammar.Encloses (g.reader (g.level d) L) ts t) :
    t.Rereads g := by
  refine rereads_of_fills hfinish ts htokens fun d hd => ?_
  -- three levels of nesting are left for the parentheses
  exact Grammar.fills_of_encloses hfinish hleads h (by omega)

theorem Term.rereads_of_level
    (h : ∀ d, 9 * n + 6 + L.spare ≤ d → g.Readable (g.level d) L ts t) : t.Rereads g :=
  rereads_of_encloses hfinish L hheight ts htokens hleads fun d hd =>
    ((h d hd).spells hfinish).encloses

end

/-- A term in parentheses of its own. -/
theorem Term.Rereads.inRound (h : t.Rereads g) : g.Bare (9 * t.height + 3)
    (.bracket .roundOpen :: t.tokens ++ [Token.bracket .roundClose]) t :=
  Grammar.bare_group hfinish fun _ hd => (h.last.assignment hd).fills hfinish

/-! ## Operands -/

theorem rereads_literal {v : Value} (hv : v.ReadsBack) : (Term.literal v).Rereads g := by
  have hleads : Leads (Term.literal v).tokens := by
    cases v with
    | bool b => exact leads_of_ahead _ (by simp) (by simp)
    | number x => exact leads_of_ahead _ (by simp) (by simp)
    | string s => exact leads_of_ahead _ (by simp) (by simp)
    | _ => exact hv.elim
  refine Term.rereads_of_access hfinish rfl hleads fun d _ => ?_
  cases v with
  | bool b => cases b <;> exact Grammar.readable_keyword _
  | number x => exact Grammar.readable_number x
  | string s => exact Grammar.readable_string s
  | _ => exact hv.elim

theorem rereads_undefined : Term.undefined.Rereads g :=
  Term.rereads_of_access hfinish rfl (leads_of_ahead _ (by simp) (by simp)) fun _ _ =>
    Grammar.readable_keyword _

theorem bare_var {name : String} (hname : VariableName g.constants name)
    (hoperator : (Term.var name).namesOperator = false) : g.Bare 0 [.name name] (.var name) := by
  have hnone : NamedOp.ofName? name = none := by
    simpa [Term.namesOperator] using hoperator
  have hordinary : OrdinaryName g.constants name :=
    ⟨hnone, hname.case, hname.word, hname.constant⟩
  exact .of_access hfinish (leads_name hnone []) fun _ _ => Grammar.readable_name hordinary

theorem rereads_var {name : String} (hname : VariableName g.constants name) :
    (Term.var name).Rereads g where
  bare := bare_var hfinish hname
  last := Grammar.last_name hfinish hname.toFreeName
  group h := by cases h

/-! ## Operators -/

include hon

theorem rereads_sign (negative : Bool) {operand : Term} (h : operand.Rereads g) :
    (Term.unary (if negative then .negate else .plus) operand).Rereads g := by
  refine Term.rereads_of_encloses hfinish .factor rfl
    (.sign (if negative then .minus else .plus) :: operand.tokens) ?_
    (fun h => absurd h (by decide)) fun d hd rest hrest => ?_
  · cases negative <;> simp [Term.tokens, Term.pieces, UnaryOp.pieces]
  · exact Grammar.reads_sign hon negative (h.last.factor (by omega) rest hrest)

theorem rereads_factorial {operand : Term}
    (h : g.Bare (9 * operand.height) operand.tokens operand) :
    (Term.unary .factorial operand).Rereads g := by
  refine Term.rereads_of_level hfinish .factorial rfl (operand.tokens ++ [Token.sign .bang])
    ?_ (fun _ => h.leads.append _) fun d hd => ?_
  · simp [Term.tokens, Term.pieces, UnaryOp.pieces, List.reduceOption_append]
  · exact Grammar.readable_bang hon (h.readable .factorial d (by omega))

section
variable {left right : Term} (hl : g.Bare (9 * left.height) left.tokens left)
  (hr : right.Rereads g)
include hl hr

theorem rereads_signOp (o : SignOp) (htoken : o.op.token = .sign o.sign) :
    (Term.binary o.op left right).Rereads g := by
  refine Term.rereads_of_encloses hfinish o.rank rfl
    (left.tokens ++ .sign o.sign :: right.tokens) ?_ ?_ fun d hd => ?_
  · simp [Term.tokens, Term.pieces, htoken, List.reduceOption_append]
  · intro htight
    cases o <;> exact absurd htight (by decide)
  · have hright := hr.last.below o.rank_ne_access (d := d) (by omega)
    exact (hl.readable o.rank d (by omega)).encloses_join (Grammar.link?_signOp o) hfinish
      o.stops_sign fun rest hrest => Grammar.reads_chainLink hon o (hright rest hrest)

theorem rereads_power : (Term.binary .power left right).Rereads g := by
  refine Term.rereads_of_encloses hfinish .power rfl
    (left.tokens ++ .sign .caret :: right.tokens) ?_ (fun _ => hl.leads.append _)
    fun d hd rest hrest => ?_
  · simp [Term.tokens, Term.pieces, BinaryOp.token, List.reduceOption_append]
  · have hspare : Rank.factorial.spare = 0 := rfl
    exact Grammar.reads_caret hon hfinish (hl.spells hfinish (L := .factorial) (by omega))
      ((stops_of_closes hrest).mono (Nat.zero_le _)) (hr.last.factor (by omega) rest hrest)

theorem rereads_isIn : (Term.binary .isIn left right).Rereads g := by
  refine Term.rereads_of_encloses hfinish .membership rfl
    (left.tokens ++ .name "in" :: right.tokens) ?_ (fun h => absurd h (by decide))
    fun d hd => ?_
  · simp [Term.tokens, Term.pieces, BinaryOp.token, List.reduceOption_append]
  · have hspare : Rank.disjunction.spare = Rank.membership.spare := rfl
    have hright := hr.last .disjunction d (by omega)
    exact (hl.readable .membership d (by omega)).encloses_join rfl hfinish (by decide)
      fun rest hrest => Grammar.reads_isIn hon (hright rest hrest)

theorem rereads_binary {op : BinaryOp} (hop : ∀ spelling, op ≠ .unknown spelling) :
    (Term.binary op left right).Rereads g := by
  cases op with
  | power => exact rereads_power hon hfinish hl hr
  | isIn => exact rereads_isIn hon hfinish hl hr
  | unknown spelling => exact absurd rfl (hop spelling)
  | add => exact rereads_signOp hon hfinish hl hr .add rfl
  | subtract => exact rereads_signOp hon hfinish hl hr .subtract rfl
  | multiply => exact rereads_signOp hon hfinish hl hr .multiply rfl
  | divide => exact rereads_signOp hon hfinish hl hr .divide rfl
  | remainder => exact rereads_signOp hon hfinish hl hr .remainder rfl
  | equal => exact rereads_signOp hon hfinish hl hr .equal rfl
  | notEqual => exact rereads_signOp hon hfinish hl hr .notEqual rfl
  | less => exact rereads_signOp hon hfinish hl hr .less rfl
  | lessEqual => exact rereads_signOp hon hfinish hl hr .lessEqual rfl
  | greater => exact rereads_signOp hon hfinish hl hr .greater rfl
  | greaterEqual => exact rereads_signOp hon hfinish hl hr .greaterEqual rfl
  | concatenate => exact rereads_signOp hon hfinish hl hr .concatenate rfl

theorem rereads_and : (Term.and left right).Rereads g := by
  refine Term.rereads_of_level hfinish .conjunction rfl
    (left.tokens ++ .name "and" :: .bracket .roundOpen :: right.tokens
      ++ [Token.bracket .roundClose]) ?_ (fun h => absurd h (by decide)) fun d hd => ?_
  · simp [Term.tokens, Term.pieces, List.reduceOption_append]
  · have hspare : Rank.comparison.spare = Rank.conjunction.spare := rfl
    rw [List.append_assoc]
    exact Grammar.readable_and hon (hl.readable .conjunction d (by omega))
      ((hr.inRound hfinish).spells hfinish (L := .comparison) (by omega))

theorem rereads_or : (Term.or left right).Rereads g := by
  refine Term.rereads_of_level hfinish .disjunction rfl
    (left.tokens ++ .name "or" :: .bracket .roundOpen :: right.tokens
      ++ [Token.bracket .roundClose]) ?_ (fun h => absurd h (by decide)) fun d hd => ?_
  · simp [Term.tokens, Term.pieces, List.reduceOption_append]
  · have hspare : Rank.conjunction.spare = Rank.disjunction.spare := rfl
    rw [List.append_assoc]
    exact Grammar.readable_or hon (hl.readable .disjunction d (by omega))
      ((hr.inRound hfinish).spells hfinish (L := .conjunction) (by omega))

end

/-- The name of an operator takes parentheses behind it to itself, else what it stands before. -/
theorem rereads_named (op : NamedOp) {operand : Term} (h : operand.Rereads g)
    (hbegins : operand.Begins)
    (hgroup : operand.head.isGroup = true → operand.isGroup = true) :
    (Term.unary (.named op) operand).Rereads g := by
  have htokens : (Term.unary (.named op) operand).tokens
      = .bracket .roundOpen :: (.name op.name :: operand.tokens) ++ [Token.bracket .roundClose] := by
    simp [Term.tokens, Term.pieces, UnaryOp.pieces]
  cases hcase : operand.isGroup with
  | true =>
    -- the parentheses are those of the operand itself, so the operator is read as if it were called
    obtain ⟨ts, hoperand, hfills⟩ := h.group hcase
    rw [hoperand] at htokens
    refine Term.rereads_of_level hfinish .access rfl _ htokens (fun _ => ?_) fun d hd => ?_
    · exact ⟨List.cons_ne_nil _ _, by simp, fun _ _ => .inr rfl⟩
    · exact Grammar.readable_named hon op (hfills d (by omega))
  | false =>
    have hhead : operand.head.isGroup = false := Bool.eq_false_iff.mpr fun htrue => by
      rw [hgroup htrue] at hcase
      cases hcase
    -- no parenthesis follows, so the operator takes a whole factor
    refine Term.rereads_of_encloses hfinish .factor rfl _ htokens
      (fun h => absurd h (by decide)) fun d hd rest hrest => ?_
    exact Grammar.reads_prefix hon hfinish op (hbegins.bare hhead)
      (h.last.factor (by omega) rest hrest)

theorem rereads_unary {op : UnaryOp} (hop : ∀ spelling, op ≠ .unknown spelling) {operand : Term}
    (h : operand.Rereads g) (hbegins : operand.Begins)
    (hlegible : (Term.unary op operand).Legible) : (Term.unary op operand).Rereads g := by
  cases op with
  | negate => exact rereads_sign hon hfinish true h
  | plus => exact rereads_sign hon hfinish false h
  | factorial =>
    exact rereads_factorial hon hfinish (h.bare (hlegible.exposed operand (.head _)))
  | named op => exact rereads_named hon hfinish op h hbegins (hlegible.named op operand rfl)
  | unknown spelling => exact absurd rfl (hop spelling)

theorem rereads_choose {condition yes no : Term}
    (hc : g.Bare (9 * condition.height) condition.tokens condition) (hy : yes.Rereads g)
    (hn : no.Rereads g) : (Term.choose condition yes no).Rereads g := by
  refine Term.rereads_of_level hfinish .conditional rfl
    (condition.tokens ++ .sign .question :: (.bracket .roundOpen :: yes.tokens
      ++ [Token.bracket .roundClose]) ++ .sign .colon :: (.bracket .roundOpen :: no.tokens
      ++ [Token.bracket .roundClose])) ?_ (fun h => absurd h (by decide)) fun d hd => ?_
  · simp [Term.tokens, Term.pieces, List.reduceOption_append]
  · have hspare : Rank.membership.spare = Rank.conditional.spare := rfl
    exact Grammar.readable_choose hon (hc.spells hfinish (L := .membership) (by omega))
      ((hy.inRound hfinish).conditional hfinish (by omega))
      ((hn.inRound hfinish).conditional hfinish (by omega))

/-! ## Case blocks -/

/-- A condition and its result. -/
def armTokens (arm : Term × Term) : List Token :=
  .name "when" :: (.bracket .roundOpen :: arm.1.tokens ++ [Token.bracket .roundClose])
    ++ .name "then" :: (.bracket .roundOpen :: arm.2.tokens ++ [Token.bracket .roundClose])

omit hon hfinish in
theorem reduceOption_armsPieces (arms : List (Term × Term)) :
    (armsPieces arms).reduceOption = (arms.map armTokens).flatten := by
  induction arms with
  | nil => rfl
  | cons arm arms ih =>
    obtain ⟨condition, result⟩ := arm
    rw [armsPieces, List.reduceOption_append, ih, List.map_cons, List.flatten_cons]
    simp [armTokens, Term.tokens, List.reduceOption_append]

theorem rereads_case {subject otherwise : Option Term} {arms : List (Term × Term)}
    (hsubject : ∀ t ∈ subject, g.Bare (9 * t.height) t.tokens t ∧ t.Begins)
    (harms : ∀ arm ∈ arms, arm.1.Rereads g ∧ arm.2.Rereads g) (hsome : arms ≠ [])
    (hotherwise : ∀ t ∈ otherwise, t.Rereads g) :
    (Term.caseOf subject arms otherwise).Rereads g := by
  refine Term.rereads_of_level hfinish .access rfl
    (.name "case" :: (subjectPieces subject).reduceOption ++ (arms.map armTokens).flatten
      ++ (otherwisePieces otherwise).reduceOption ++ [Token.name "end"]) ?_ (fun _ => ?_) fun d hd => ?_
  · simp [Term.tokens, Term.pieces, List.reduceOption_append, reduceOption_armsPieces]
  · exact leads_name (by decide) _
  refine Grammar.readable_case hon hfinish ?_ ?_ hsome ?_
  · cases subject with
    | none => exact .none
    | some t =>
      obtain ⟨ht, hbegins⟩ := hsubject t rfl
      have hheight : optionHeight (some t) = t.height := rfl
      refine .some (ht.assignment hfinish (by omega)) hbegins.opens fun hwhen => ?_
      exact hbegins.name _ hwhen (by decide)
  · rw [List.forall₂_map_left_iff, List.forall₂_same]
    intro arm harm
    obtain ⟨hcondition, hresult⟩ := harms arm harm
    have hheight := height_le_armsHeight harm
    exact .intro ((hcondition.inRound hfinish).assignment hfinish (by omega))
      ((hresult.inRound hfinish).assignment hfinish (by omega))
  · cases otherwise with
    | none => exact .none
    | some t =>
      have hheight : optionHeight (some t) = t.height := rfl
      have hlast := ((hotherwise t rfl).inRound hfinish).assignment hfinish (d := d) (by omega)
      simpa [otherwisePieces, Term.tokens] using Grammar.ReadsOtherwise.some hlast

/-! ## Access -/

omit hon hfinish in
theorem memberName?_wordToken (name : String) :
    Grammar.memberName? (Scan.wordToken name) = some name := by
  unfold Scan.wordToken
  split
  · rename_i k hk
    have hspelling : k.spelling = name := by simpa using List.find?_some hk
    exact congrArg some hspelling
  · rfl

theorem rereads_member {target : Term} (name : String)
    (h : g.Bare (9 * target.height) target.tokens target) :
    (Term.member target name).Rereads g := by
  have htokens : (Term.member target name).tokens
      = target.tokens ++ [Token.sign .dot, Scan.wordToken name] := by
    rw [Term.tokens, Term.pieces, List.reduceOption_append]
    rfl
  refine Term.rereads_of_access hfinish rfl ?_ fun d hd => ?_
  · rw [htokens]
    exact h.leads.append _
  · have hheight : 9 * (target.height + 1) ≤ d := hd
    rw [htokens]
    exact Grammar.readable_member hon
      (h.readable .access d (show 9 * target.height + 0 ≤ d by omega)) (memberName?_wordToken name)

theorem rereads_index {target key : Term} (h : g.Bare (9 * target.height) target.tokens target)
    (hkey : key.Rereads g) : (Term.index target key).Rereads g := by
  have htokens : (Term.index target key).tokens
      = target.tokens ++ .bracket .squareOpen :: key.tokens ++ [Token.bracket .squareClose] := by
    simp [Term.tokens, Term.pieces, List.reduceOption_append]
  refine Term.rereads_of_access hfinish rfl ?_ fun d hd => ?_
  · rw [htokens, List.append_assoc]
    exact h.leads.append _
  · have hheight : 9 * (max target.height key.height + 1) ≤ d := hd
    rw [htokens]
    exact Grammar.readable_index hon
      (h.readable .access d (show 9 * target.height + 0 ≤ d by omega))
      (hkey.last.assignment (by omega))

omit hon hfinish in
theorem readsEach_terms {terms : List Term} (h : ∀ t ∈ terms, t.Rereads g ∧ t.Begins) {d : Nat}
    (hd : 9 * heightEach terms + 3 ≤ d) :
    Grammar.ReadsEach (g.level d) (terms.map Term.tokens) terms := by
  rw [Grammar.ReadsEach, List.forall₂_map_left_iff, List.forall₂_same]
  intro t ht
  have hheight := height_le_heightEach ht
  exact ⟨(h t ht).1.last.assignment (by omega), (h t ht).2.opens⟩

omit hon in
theorem rereads_call {callee : Term} {arguments : List Term}
    (h : g.Bare (9 * callee.height) callee.tokens callee)
    (harguments : ∀ t ∈ arguments, t.Rereads g ∧ t.Begins) :
    (Term.call callee arguments).Rereads g := by
  have htokens : (Term.call callee arguments).tokens = callee.tokens ++ .bracket .roundOpen ::
      separated (arguments.map Term.tokens) ++ [Token.bracket .roundClose] := by
    rw [Term.tokens, Term.pieces, List.reduceOption_append, reduceOption_inRound,
      reduceOption_listed_piecesEach, List.append_assoc]
    rfl
  refine Term.rereads_of_access hfinish rfl ?_ fun d hd => ?_
  · rw [htokens, List.append_assoc]
    exact h.leads.append _
  · have hheight : 9 * (max callee.height (heightEach arguments) + 1) ≤ d := hd
    rw [htokens]
    exact Grammar.readable_call hfinish
      (h.readable .access d (show 9 * callee.height + 0 ≤ d by omega))
      (readsEach_terms harguments (by omega))

/-! ## Arrays and objects -/

theorem rereads_array {items : List Term} (h : ∀ t ∈ items, t.Rereads g ∧ t.Begins) :
    (Term.array items).Rereads g := by
  have htokens : (Term.array items).tokens = .bracket .squareOpen ::
      separated (items.map Term.tokens) ++ [Token.bracket .squareClose] := by
    rw [Term.tokens, Term.pieces, List.reduceOption_append, List.reduceOption_cons_of_some,
      reduceOption_listed_piecesEach]
    rfl
  refine Term.rereads_of_access hfinish rfl ?_ fun d hd => ?_
  · rw [htokens]
    exact leads_of_ahead _ (by simp) (by simp)
  · have hheight : 9 * (heightEach items + 1) ≤ d := hd
    rw [htokens]
    exact Grammar.readable_array hon hfinish (readsEach_terms h (by omega))

omit hon hfinish in
theorem keyOf?_of_memberName? {k : Token} {name : String} (h : Grammar.memberName? k = some name) :
    Grammar.keyOf? k = some name := by
  cases k with
  | name | keyword => exact h
  | _ => cases h

omit hon hfinish in
theorem keyOf?_keyToken (key : String) : Grammar.keyOf? (keyToken key) = some key := by
  unfold keyToken
  split
  · exact keyOf?_of_memberName? (memberName?_wordToken key)
  · rfl

/-- A key, a colon and a value. -/
def fieldTokens (field : String × Term) : List Token :=
  keyToken field.1 :: .sign .colon :: field.2.tokens

omit hon hfinish in
theorem reduceOption_listed_fieldPieces (fields : List (String × Term)) :
    (listed (fieldPieces fields)).reduceOption = separated (fields.map fieldTokens) := by
  rw [reduceOption_listed, fieldPieces_eq_map, List.map_map]
  rfl

omit hon in
theorem rereads_object {fields : List (String × Term)}
    (hkeys : ∀ field ∈ fields, isProtected field.1 = false)
    (h : ∀ field ∈ fields, field.2.Rereads g) : (Term.object fields).Rereads g := by
  have htokens : (Term.object fields).tokens = .bracket .curlyOpen ::
      separated (fields.map fieldTokens) ++ [Token.bracket .curlyClose] := by
    rw [Term.tokens, Term.pieces, List.reduceOption_append, List.reduceOption_cons_of_some,
      reduceOption_listed_fieldPieces]
    rfl
  refine Term.rereads_of_access hfinish rfl ?_ fun d hd => ?_
  · rw [htokens]
    exact leads_of_ahead _ (by simp) (by simp)
  · have hheight : 9 * (fieldsHeight fields + 1) ≤ d := hd
    rw [htokens]
    refine Grammar.readable_object hfinish ?_
    rw [List.forall₂_map_left_iff, List.forall₂_same]
    intro field hfield
    have hvalue := height_le_fieldsHeight hfield
    exact .intro (keyOf?_keyToken field.1) (hkeys field hfield)
      ((h field hfield).last.assignment (by omega))

/-! ## Stores -/

omit hon hfinish in
theorem reduceOption_targetPieces_concat (root : String) (path : List String) (name : String) :
    (targetPieces root (path ++ [name])).reduceOption
      = (targetPieces root path).reduceOption ++ [Token.sign .dot, Scan.wordToken name] := by
  simp [targetPieces, List.flatMap_append, List.reduceOption_append]

theorem bare_ofPath {root : String} (hroot : VariableName g.constants root)
    (hoperator : (Term.var root).namesOperator = false) (path : List String) :
    g.Bare 0 (targetPieces root path).reduceOption (Grammar.ofPath root path) := by
  induction path using List.reverseRecOn with
  | nil => exact bare_var hfinish hroot hoperator
  | append_singleton path name ih =>
    rw [reduceOption_targetPieces_concat, Grammar.ofPath_concat]
    exact .of_access hfinish (ih.leads.append _) fun d hd =>
      Grammar.readable_member hon (ih.readable .access d hd) (memberName?_wordToken name)

theorem rereads_assign {root : String} {path : List String} {value : Term}
    (hroot : VariableName g.constants root) (hoperator : (Term.var root).namesOperator = false)
    (h : value.Rereads g) : (Term.assign root path value).Rereads g := by
  refine Term.rereads_of_level hfinish .assignment rfl
    ((targetPieces root path).reduceOption ++ .sign .assign ::
      (.bracket .roundOpen :: value.tokens ++ [Token.bracket .roundClose])) ?_
    (fun h => absurd h (by decide)) fun d hd => ?_
  · simp [Term.tokens, Term.pieces, List.reduceOption_append]
  · have hspare : Rank.assignment.spare = 2 := rfl
    exact Grammar.readable_assign hon
      ((bare_ofPath hon hfinish hroot hoperator path).conditional hfinish (by omega))
      (Grammar.pathOf?_ofPath root path) ((h.inRound hfinish).assignment hfinish (by omega))

omit hon in
theorem bare_head {name : String} {params : List String}
    (hnames : ∀ n ∈ name :: params, VariableName g.constants n)
    (hoperator : (Term.var name).namesOperator = false) :
    g.Bare 3 (.name name :: .bracket .roundOpen :: separated (params.map fun param => [.name param])
      ++ [Token.bracket .roundClose]) (.call (.var name) (params.map .var)) := by
  obtain ⟨hname, hparams⟩ := List.forall_mem_cons.mp hnames
  have hcallee := bare_var hfinish hname hoperator
  refine .of_access hfinish (hcallee.leads.append _) fun d hd => ?_
  have heach : Grammar.ReadsEach (g.level d) (params.map fun param => [.name param])
      (params.map .var) := by
    rw [Grammar.ReadsEach, List.forall₂_map_left_iff, List.forall₂_map_right_iff, List.forall₂_same]
    intro param hparam
    have hlast := Grammar.last_name hfinish (hparams param hparam).toFreeName
    exact ⟨hlast.assignment (by omega), rfl⟩
  have hcall := Grammar.readable_call hfinish (hcallee.readable .access d (Nat.zero_le d)) heach
  exact hcall

theorem rereads_define {name : String} {params : List String} {body : Term}
    (hnames : ∀ n ∈ name :: params, VariableName g.constants n)
    (hoperator : (Term.var name).namesOperator = false) (h : body.Rereads g) :
    (Term.define name params body).Rereads g := by
  refine Term.rereads_of_level hfinish .assignment rfl
    (.name name :: .bracket .roundOpen :: separated (params.map fun param => [.name param])
      ++ [Token.bracket .roundClose] ++ .sign .assign ::
      (.bracket .roundOpen :: body.tokens ++ [Token.bracket .roundClose])) ?_
    (fun h => absurd h (by decide)) fun d hd => ?_
  · simp [Term.tokens, Term.pieces, List.reduceOption_append, reduceOption_listed,
      Function.comp_def]
  · have hspare : Rank.assignment.spare = 2 := rfl
    exact Grammar.readable_define hon
      ((bare_head hfinish hnames hoperator).conditional hfinish (by omega))
      ((h.inRound hfinish).assignment hfinish (by omega))

/-! ## Sequences -/

omit hon hfinish in
theorem reduceOption_statementPieces (terms : List Term) :
    (statementPieces terms).reduceOption
      = (terms.map Term.tokens).flatMap (.semicolon :: ·) := by
  induction terms with
  | nil => rfl
  | cons t terms ih =>
    rw [statementPieces, List.reduceOption_append, ih, List.map_cons, List.flatMap_cons]
    rfl

omit hon in
theorem rereads_sequence {first : Term} {others : List Term} (hfirst : first.Rereads g)
    (hothers : ∀ t ∈ others, t.Rereads g ∧ t.Begins) (hmore : others ≠ []) :
    (Term.sequence first others).Rereads g := by
  refine Term.rereads_of_fills hfinish
    (first.tokens ++ (others.map Term.tokens).flatMap (.semicolon :: ·)) ?_ fun d hd => ?_
  · rw [Term.tokens, Term.pieces, reduceOption_inRound, List.reduceOption_append,
      reduceOption_statementPieces]
    rfl
  · have hheight : 9 * (max first.height (heightEach others) + 1) ≤ d := hd
    exact Grammar.fills_sequence hfinish (hfirst.last.assignment (by omega))
      (readsEach_terms hothers (by omega)) (by simpa using hmore)

/-! ## All terms -/

/-- A construct is read where it stands if its parts are. -/
theorem Term.rereads_of_children (h : t.Shown g.constants)
    (hparts : ∀ child ∈ t.children, child.Rereads g ∧ child.Begins) : t.Rereads g := by
  obtain ⟨hspelled, hlegible⟩ := h
  -- before operators no part is the name of an operator
  have hbare : ∀ child ∈ t.children, child ∈ t.exposed →
      g.Bare (9 * child.height) child.tokens child := fun child hchild hexposed =>
    (hparts child hchild).1.bare (hlegible.exposed child hexposed)
  cases t with
  | literal v => exact rereads_literal hfinish (hlegible.literal v rfl)
  | undefined => exact rereads_undefined hfinish
  | var name => exact rereads_var hfinish hspelled
  | unary op operand =>
    obtain ⟨hread, hbegins⟩ := hparts operand (.head _)
    exact rereads_unary hon hfinish hspelled hread hbegins hlegible
  | binary op left right =>
    exact rereads_binary hon hfinish (hbare left (.head _) (.head _))
      (hparts right (.tail _ (.head _))).1 hspelled
  | and left right =>
    exact rereads_and hon hfinish (hbare left (.head _) (.head _))
      (hparts right (.tail _ (.head _))).1
  | or left right =>
    exact rereads_or hon hfinish (hbare left (.head _) (.head _))
      (hparts right (.tail _ (.head _))).1
  | choose condition yes no =>
    exact rereads_choose hon hfinish (hbare condition (.head _) (.head _))
      (hparts yes (.tail _ (.head _))).1 (hparts no (.tail _ (.tail _ (.head _)))).1
  | caseOf subject arms otherwise =>
    refine rereads_case hon hfinish (fun t ht => ?_) (fun arm harm => ?_) hspelled fun t ht =>
      (hparts t (otherwise_mem_children ht)).1
    · have hchild : t ∈ (caseOf subject arms otherwise).children := subject_mem_children ht
      exact ⟨hbare t hchild (Option.mem_toList.mpr ht), (hparts t hchild).2⟩
    · obtain ⟨hcondition, hresult⟩ := mem_children_of_arm harm
      exact ⟨(hparts _ hcondition).1, (hparts _ hresult).1⟩
  | member target name =>
    exact rereads_member hon hfinish name (hbare target (.head _) (.head _))
  | index target key =>
    exact rereads_index hon hfinish (hbare target (.head _) (.head _))
      (hparts key (.tail _ (.head _))).1
  | call callee arguments =>
    exact rereads_call hfinish (hbare callee (.head _) (.head _)) fun t ht =>
      hparts t (.tail _ ht)
  | array items => exact rereads_array hon hfinish hparts
  | object fields =>
    exact rereads_object hfinish hspelled fun field hfield =>
      (hparts field.2 (List.mem_map_of_mem hfield)).1
  | assign root path value =>
    exact rereads_assign hon hfinish hspelled.1 (hlegible.exposed _ (.head _))
      (hparts value (.head _)).1
  | define name params body =>
    exact rereads_define hon hfinish hspelled (hlegible.exposed _ (.head _))
      (hparts body (.head _)).1
  | sequence first others =>
    refine rereads_sequence hfinish (hparts first (.head _)).1
      (fun t ht => hparts t (.tail _ ht)) ?_
    rintro rfl
    exact hlegible.sequence first rfl

/-- **A legible term is read in every place where canonical text puts it.** -/
theorem Term.rereads (h : t.Everywhere (Term.Shown g.constants)) : t.Rereads g := by
  -- all parts are lower than the construct, those of arms and fields too
  induction hn : t.height using Nat.strongRecOn generalizing t with
  | ind n ih =>
    refine rereads_of_children hon hfinish h.here fun child hchild => ?_
    have hlt : child.height < n := hn ▸ height_lt hchild
    exact ⟨ih _ hlt (h.child hchild) rfl, Term.begins (h.child hchild)⟩

/-- The reader of whole texts takes the tokens of a legible term and answers the term. -/
theorem Term.whole_tokens (h : t.Everywhere (Term.Shown g.constants))
    (hdepth : 9 * t.height + 3 ≤ g.options.maxDepth) {placed : List PlacedToken}
    (hplaced : placed.map (·.token) = t.tokens) : g.whole (placed.map .token) = .ok (t, []) :=
  Grammar.whole_of_encloses hfinish ((rereads hon hfinish h).last.assignment hdepth) hplaced

end

/-- **The canonical text of a legible term is parsed as the term.** -/
theorem Term.parse_text {options : Options} {constants : Dict Value} (hon : options.AllOn)
    {t : Term} (h : t.Everywhere (Term.Shown constants))
    (hdepth : 9 * t.height + 3 ≤ options.maxDepth) :
    Term.parse options constants t.text = .ok t := by
  obtain ⟨placed, hplaced, hlexemes⟩ := (Term.lexes h).lexesTo 0
  have hrun := Term.whole_tokens (g := ⟨options, constants, finishOf t.text.toList⟩) hon rfl h
    hdepth hplaced
  have htext : lexemes t.text.toList = placed.map .token := by
    rw [toList_text]
    exact hlexemes
  simp only [Term.parse, StateT.run, htext, hrun]

end Formula
