import Formula.Proofs.Constructs

/-! # How blocks are read

Statements in a row, objects, `case` blocks and named operators before their operand, from the parts
that their readers read.  Before a token that ends all expressions the name of an operator is read
as a variable (`last_name`).
-/
namespace Formula
namespace Grammar

section
variable {g : Grammar} {sub : Level → Reader Term} {ts us : List Token} {t u : Term}

/-! ## Statements -/

section
variable (g) (sub)

/-- A semicolon, and the statement behind it if there is one. -/
def statementLink (found : List Term × Bool) : Reader (Option (List Term × Bool)) := do
  if found.2 then pure none
  else if ← g.accept .semicolon then
    let t ← g.peek
    if t.token = .finish ∨ t.token = .bracket .roundClose then pure (some (found.1, true))
    else
      let statement ← sub .assignment
      pure (some (found.1 ++ [statement], false))
  else pure none

theorem statements_eq : g.statements sub = (do
    let first ← sub .assignment
    let t ← g.peek
    if t.token = .semicolon then
      let found ← whileSome (g.statementLink sub) ([], false)
      pure (.sequence first found.1)
    else pure first) := rfl

end

section
variable (hfinish : g.finish.token = .finish)
include hfinish

theorem repeats_statements {tss : List (List Token)} {terms : List Term}
    (h : ReadsEach sub tss terms) (rest : List Token) :
    ∀ found, Repeats (g.statementLink sub) (found, false)
      (tss.flatMap (.semicolon :: ·) ++ .bracket .roundClose :: rest) (found ++ terms, false)
      (.bracket .roundClose :: rest) := by
  induction h with
  | nil =>
    intro found
    rw [List.append_nil]
    have hnext : ahead (.bracket .roundClose :: rest) ≠ .semicolon := by simp
    exact .done ((reads_accept_not hfinish hnext).bind (reads_pure none _))
  | @cons ts t tss terms hfirst _ ih =>
    intro found
    rw [List.flatMap_cons, List.cons_append, List.cons_append, List.append_assoc,
      List.append_cons found t terms]
    refine .more ((reads_accept _ _).bind ?_) (length_lt_of_cons_append _ _ _) (ih _)
    refine reads_peek hfinish fun place hplace => ?_
    have hopens : place.token.opens = true := by rw [hplace, ahead_append hfirst.2, hfirst.2]
    have hmore : ¬ (place.token = .finish ∨ place.token = .bracket .roundClose) := by
      rintro (h | h) <;> rw [h] at hopens <;> cases hopens
    rw [if_neg hmore]
    have hcloses : (ahead (tss.flatMap (.semicolon :: ·) ++ .bracket .roundClose :: rest)).closes
        = true := by cases tss <;> rfl
    exact (hfirst.1 _ hcloses).bind (reads_pure _ _)

/-- Two statements or more between parentheses are read as a sequence. -/
theorem fills_sequence {tss : List (List Token)} {terms : List Term}
    (hfirst : Encloses (sub .assignment) ts t) (h : ReadsEach sub tss terms) (hmore : tss ≠ []) :
    g.Fills sub (ts ++ tss.flatMap (.semicolon :: ·)) (.sequence t terms) := by
  intro rest
  obtain ⟨us, tss, rfl⟩ := List.exists_cons_of_ne_nil hmore
  rw [statements_eq, List.append_assoc]
  refine (hfirst _ rfl).bind (reads_peek_cons fun place hplace => ?_)
  rw [if_pos hplace]
  exact (repeats_statements hfinish h rest []).whileSome.bind (reads_pure _ _)

end

/-! ## Objects -/

/-- The tokens are a key, a colon and what is read as the value of the field. -/
inductive ReadsField (sub : Level → Reader Term) : List Token → String × Term → Prop
  | intro {k : Token} {ts : List Token} {key : String} {t : Term} (hkey : keyOf? k = some key)
      (hplain : isProtected key = false) (hvalue : Encloses (sub .assignment) ts t) :
      ReadsField sub (k :: .sign .colon :: ts) (key, t)

theorem ReadsField.closes {field : String × Term} (h : ReadsField sub ts field) (us : List Token) :
    ahead (ts ++ us) ≠ .bracket .curlyClose := by
  obtain ⟨hkey, -, -⟩ := h
  rintro rfl
  cases hkey

theorem length_le_length_flatMap (tss : List (List Token)) :
    tss.length ≤ (tss.flatMap (.comma :: ·)).length := by
  induction tss with
  | nil => exact Nat.zero_le _
  | cons ts tss ih =>
    rw [List.flatMap_cons, List.length_append, List.length_cons, List.length_cons]
    omega

section
variable (hfinish : g.finish.token = .finish)
include hfinish

/-- One field before a comma or the end of the object, and what is read behind it. -/
theorem reads_field {field : String × Term} {rest : List Token} {rounds : Nat}
    (h : ReadsField sub ts field) (hcloses : (ahead us).closes = true)
    {before after : List (String × Term)}
    (hmore : Reads (do
      if ← g.accept .comma then g.fieldsUntil sub rounds (before ++ [field])
      else
        g.expect (.bracket .curlyClose)
        pure (before ++ [field])) us after rest) :
    Reads (g.fieldsUntil sub (rounds + 1) before) (ts ++ us) after rest := by
  refine (reads_accept_not hfinish (h.closes us)).bind ?_
  obtain ⟨hkey, hplain, hvalue⟩ := h
  refine reads_advance fun place hplace => ?_
  rw [hplace, hkey]
  simp only [hplain, Bool.false_eq_true, if_false]
  exact (reads_expect _ _).bind ((hvalue us hcloses).bind hmore)

theorem reads_fieldsUntil {tss : List (List Token)} {fields : List (String × Term)}
    (htail : List.Forall₂ (ReadsField sub) tss fields) :
    ∀ {ts : List Token} {field : String × Term}, ReadsField sub ts field →
    ∀ {rounds : Nat}, fields.length < rounds → ∀ before rest,
      Reads (g.fieldsUntil sub rounds before)
        (ts ++ (tss.flatMap (.comma :: ·) ++ .bracket .curlyClose :: rest))
        (before ++ field :: fields) rest := by
  induction htail with
  | nil =>
    intro ts field hfield rounds hrounds before rest
    obtain ⟨rounds, rfl⟩ := Nat.exists_eq_add_of_lt hrounds
    have hnext : ahead (.bracket .curlyClose :: rest) ≠ .comma := by simp
    refine reads_field hfinish hfield rfl ((reads_accept_not hfinish hnext).bind ?_)
    exact (reads_expect _ _).bind (reads_pure _ _)
  | @cons us next tss fields hnext _ ih =>
    intro ts field hfield rounds hrounds before rest
    rw [List.append_cons before field, List.flatMap_cons, List.cons_append, List.cons_append,
      List.append_assoc]
    cases rounds with
    | zero => cases hrounds
    | succ rounds =>
      refine reads_field hfinish hfield rfl ((reads_accept _ _).bind ?_)
      exact ih hnext (Nat.lt_of_succ_lt_succ hrounds) (before ++ [field]) rest

/-- Fields in curly brackets are read as an object. -/
theorem reads_object {tss : List (List Token)} {fields : List (String × Term)}
    (h : List.Forall₂ (ReadsField sub) tss fields) (rest : List Token) :
    Reads (g.atom sub) (.bracket .curlyOpen :: (separated tss ++ .bracket .curlyClose :: rest))
      (.object fields) rest := by
  refine reads_advance fun place hplace => ?_
  rw [hplace]
  intro placed hplaced
  -- there are rounds for all tokens that are left, so for all fields
  have hlength : (placed.map Lexeme.token).length
      = (separated tss ++ .bracket .curlyClose :: rest).length := by
    rw [← hplaced, List.length_map, List.length_map]
  have hfields : Reads (g.fieldsUntil sub ((placed.map Lexeme.token).length + 1) [])
      (separated tss ++ .bracket .curlyClose :: rest) fields rest := by
    cases h with
    | nil =>
      exact (reads_accept _ _).bind (reads_pure _ _)
    | @cons ts field tss fields hfirst htail =>
      rw [separated, List.append_assoc] at hlength ⊢
      have hle := length_le_length_flatMap tss
      refine reads_fieldsUntil hfinish htail hfirst ?_ [] rest
      rw [hlength, List.length_append, List.length_append, ← htail.length_eq]
      omega
  exact hfields.map _ placed hplaced

end

/-! ## Case blocks -/

section
variable (g) (sub)

/-- An arm behind those that have been read. -/
def armLink (found : List (Term × Term)) : Reader (Option (List (Term × Term))) := do
  let t ← g.peek
  if t.token = .name "when" then
    let _ ← g.advance
    let condition ← sub .assignment
    g.expectWord "then"
    let result ← sub .assignment
    pure (some (found ++ [(condition, result)]))
  else if found.isEmpty then fail t (.expectedWord "when" t.token)
  else pure none

theorem arms_eq : g.arms sub = whileSome (g.armLink sub) [] := rfl

end

theorem reads_expectWord (word : String) (ts : List Token) :
    Reads (g.expectWord word) (.name word :: ts) () ts := by
  intro placed hplaced
  obtain ⟨t, placed, rfl, ht, hplaced⟩ := List.map_eq_cons_iff.mp hplaced
  refine ⟨placed, hplaced, ?_⟩
  change (if t.token = .name word then _ else _ : Reader Unit) _ = _
  rw [if_pos ht]
  rfl

/-- The tokens are an arm of a `case` block. -/
inductive ReadsArm (sub : Level → Reader Term) : List Token → Term × Term → Prop
  | intro {cs rs : List Token} {condition result : Term}
      (hcondition : Spells (sub .assignment) 0 cs condition)
      (hresult : Spells (sub .assignment) 0 rs result) :
      ReadsArm sub (.name "when" :: cs ++ .name "then" :: rs) (condition, result)

/-- Behind arms stand more of them, or a token that no arm begins with. -/
theorem stops_arms {tss : List (List Token)} {arms : List (Term × Term)}
    (h : List.Forall₂ (ReadsArm sub) tss arms) {rest : List Token} (hrest : Stops 0 (ahead rest)) :
    Stops 0 (ahead (tss.flatten ++ rest)) := by
  cases h with
  | nil => exact hrest
  | cons hfirst _ =>
    obtain ⟨-, -⟩ := hfirst
    exact stops_cons (by decide) _

theorem repeats_arms (hfinish : g.finish.token = .finish) {tss : List (List Token)}
    {arms : List (Term × Term)} (h : List.Forall₂ (ReadsArm sub) tss arms) {rest : List Token}
    (hrest : Stops 0 (ahead rest)) (hwhen : ahead rest ≠ .name "when") :
    ∀ found, found ++ arms ≠ [] →
      Repeats (g.armLink sub) found (tss.flatten ++ rest) (found ++ arms) rest := by
  induction h with
  | nil =>
    intro found hfound
    rw [List.append_nil] at hfound ⊢
    refine .done (reads_peek hfinish fun place hplace => ?_)
    rw [if_neg (hplace ▸ hwhen), if_neg (by simpa using hfound)]
    exact reads_pure none _
  | @cons ts arm tss arms hfirst htail ih =>
    intro found _
    obtain @⟨cs, rs, condition, result, hcondition, hresult⟩ := hfirst
    rw [List.append_cons found, List.flatten_cons]
    have hmore := stops_arms htail hrest
    have htokens : .name "when" :: cs ++ .name "then" :: rs ++ tss.flatten ++ rest
        = .name "when" :: (cs ++ .name "then" :: (rs ++ (tss.flatten ++ rest))) := by simp
    rw [htokens]
    refine .more (reads_peek_cons fun place hplace => ?_) ?_ (ih _ (by simp))
    · rw [if_pos hplace]
      refine reads_advance fun _ _ => (hcondition _ (stops_cons (by decide) _)).bind ?_
      exact (reads_expectWord _ _).bind ((hresult _ hmore).bind (reads_pure _ _))
    · simp only [List.length_cons, List.length_append]
      omega

/-- The tokens are the subject of a `case` block, if it has one. -/
inductive ReadsSubject (sub : Level → Reader Term) : List Token → Option Term → Prop
  | none : ReadsSubject sub [] none
  | some {ts : List Token} {t : Term} (h : Spells (sub .assignment) 0 ts t)
      (hopens : (ahead ts).opens = true) (hwhen : ahead ts ≠ .name "when") :
      ReadsSubject sub ts (some t)

/-- The tokens are the last result of a `case` block, if it has one. -/
inductive ReadsOtherwise (sub : Level → Reader Term) : List Token → Option Term → Prop
  | none : ReadsOtherwise sub [] none
  | some {ts : List Token} {t : Term} (h : Spells (sub .assignment) 0 ts t) :
      ReadsOtherwise sub (.name "else" :: ts) (some t)

/-- What stands behind the arms. -/
theorem ReadsOtherwise.next {ts : List Token} {otherwise : Option Term}
    (h : ReadsOtherwise sub ts otherwise) (rest : List Token) :
    Stops 0 (ahead (ts ++ .name "end" :: rest)) ∧
      ahead (ts ++ .name "end" :: rest) ≠ .name "when" := by
  cases h with
  | none => exact ⟨stops_cons (by decide) _, by simp⟩
  | some => exact ⟨stops_cons (by decide) _, by simp⟩

theorem reads_caseBlock (hfinish : g.finish.token = .finish) {subject otherwise : Option Term}
    {arms : List (Term × Term)} {ss os : List Token} {tss : List (List Token)}
    (hsubject : ReadsSubject sub ss subject) (harms : List.Forall₂ (ReadsArm sub) tss arms)
    (hsome : arms ≠ []) (hotherwise : ReadsOtherwise sub os otherwise) (rest : List Token) :
    Reads (g.caseBlock sub) (ss ++ (tss.flatten ++ (os ++ .name "end" :: rest)))
      (.caseOf subject arms otherwise) rest := by
  obtain ⟨hstops, hwhen⟩ := hotherwise.next rest
  have harmsRead : Reads (g.arms sub) (tss.flatten ++ (os ++ .name "end" :: rest)) arms
      (os ++ .name "end" :: rest) := by
    rw [arms_eq]
    exact (repeats_arms hfinish harms hstops hwhen [] (by simpa using hsome)).whileSome
  -- what is read behind the subject
  refine reads_peek hfinish fun place hplace => ?_
  extract_lets withSubject
  have hbehind : Reads (withSubject subject) (tss.flatten ++ (os ++ .name "end" :: rest))
      (.caseOf subject arms otherwise) rest := by
    refine harmsRead.bind (reads_peek hfinish fun place hplace => ?_)
    extract_lets withLast
    have hend : Reads (withLast otherwise) (.name "end" :: rest)
        (.caseOf subject arms otherwise) rest :=
      (reads_expectWord _ _).bind (reads_pure _ _)
    cases hotherwise with
    | none =>
      rw [if_neg (by rw [hplace]; simp)]
      exact hend
    | @some ts t h =>
      rw [if_pos (by rw [hplace]; rfl)]
      refine reads_advance fun _ _ => ?_
      exact ((h _ (stops_cons (by decide) _)).map _).bind hend
  cases hsubject with
  | none =>
    have hnext : place.token = .name "when" := by
      cases harms with
      | nil => exact absurd rfl hsome
      | cons hfirst _ =>
        obtain ⟨-, -⟩ := hfirst
        exact hplace
    rw [if_pos hnext]
    exact hbehind
  | @some ts t h hopens hfirst =>
    rw [ahead_append hopens] at hplace
    rw [if_neg (by rw [hplace]; exact hfirst)]
    exact ((h _ (stops_arms harms hstops)).map _).bind hbehind

theorem readable_object (hfinish : g.finish.token = .finish) {tss : List (List Token)}
    {fields : List (String × Term)} (h : List.Forall₂ (ReadsField sub) tss fields) :
    g.Readable sub .access (.bracket .curlyOpen :: separated tss ++ [Token.bracket .curlyClose])
      (.object fields) := by
  rw [List.cons_append]
  refine readable_atom (by simp) fun rest => ?_
  rw [List.append_assoc]
  exact reads_object hfinish h rest

section
variable (hon : g.options.AllOn)
include hon

theorem readable_case (hfinish : g.finish.token = .finish) {subject otherwise : Option Term}
    {arms : List (Term × Term)} {ss os : List Token} {tss : List (List Token)}
    (hsubject : ReadsSubject sub ss subject) (harms : List.Forall₂ (ReadsArm sub) tss arms)
    (hsome : arms ≠ []) (hotherwise : ReadsOtherwise sub os otherwise) :
    g.Readable sub .access (.name "case" :: ss ++ tss.flatten ++ os ++ [Token.name "end"])
      (.caseOf subject arms otherwise) := by
  rw [List.cons_append, List.cons_append, List.cons_append]
  refine readable_atom ?_ fun rest => reads_advance fun place hplace => ?_
  · rintro _ ⟨⟩
    decide
  · have hallows : g.options.allowsConditional = true := hon.operators _
    rw [hplace]
    change Reads (g.name sub place "case") _ _ _
    unfold name
    rw [if_pos ⟨hallows, rfl⟩]
    have hread := reads_caseBlock hfinish hsubject harms hsome hotherwise rest
    simpa using hread

/-! ## Named operators -/

/-- A named operator before an operand that does not begin with a parenthesis. -/
theorem reads_prefix (hfinish : g.finish.token = .finish) (op : NamedOp)
    (hends : endsName (ahead ts) = false) {rest : List Token}
    (h : Reads (sub .factor) (ts ++ rest) t rest) :
    Reads (g.factor sub) (.name op.name :: (ts ++ rest)) (.unary (.named op) t) rest := by
  have hnext : ahead (ts ++ rest) = ahead ts := by
    cases ts with
    | nil => cases hends
    | cons k ts => rfl
  refine reads_peek_cons fun place hplace => ?_
  rw [hplace]
  simp only [hon.namedOp?_eq, NamedOp.ofName?_name]
  refine reads_peekSecond hfinish fun second hsecond => ?_
  have hends' : endsName second.token = false := by
    rw [hsecond, ← hends]
    exact congrArg endsName hnext
  rw [hends', if_neg Bool.false_ne_true]
  exact reads_advance fun _ _ => h.map _

end

/-! ## Names before the end of an expression -/

/-- A name that is a variable where no operand follows, even if it names an operator. -/
structure FreeName (constants : Dict Value) (n : String) : Prop where
  case : n ≠ "case"
  word : n ∉ caseWords
  constant : constants.get? n = none

section
variable (hfinish : g.finish.token = .finish) {n : String} {rest : List Token}
include hfinish

theorem reads_name_operand (hn : FreeName g.constants n) (hrest : (ahead rest).closes = true) :
    Reads (g.operand sub) (.name n :: rest) (.var n) rest := by
  have hstops := stops_of_closes hrest
  have hround : ahead rest ≠ .bracket .roundOpen := hstops.ne (by decide)
  have hcalled : Reads g.calledOperator? (.name n :: rest) none (.name n :: rest) := by
    refine reads_peek_cons fun place hplace => ?_
    rw [hplace]
    dsimp only
    split
    · refine reads_peekSecond hfinish fun second hsecond => ?_
      rw [if_neg (by rw [hsecond]; exact hround)]
      exact reads_pure _ _
    · exact reads_pure _ _
  have hatom : Reads (g.atom sub) (.name n :: rest) (.var n) rest := by
    refine reads_advance fun place hplace => ?_
    rw [hplace]
    change Reads (g.name sub place n) _ _ _
    unfold name
    rw [if_neg (fun h => hn.case h.2), if_neg (fun h => hn.word h.2), hn.constant]
    exact reads_pure _ _
  have hdone : Repeats (g.access sub) (.var n) rest (.var n) rest :=
    .done (access_stops hfinish (hstops.mono (Nat.zero_le _)))
  exact hcalled.bind (hatom.bind hdone.whileSome)

/-- **A name before the end of an expression is read as a variable** on every level. -/
theorem last_name (hn : FreeName g.constants n) : g.Last 0 [.name n] (.var n) := by
  have hoperand : ∀ d, 0 + Rank.access.spare ≤ d →
      Encloses (g.reader (g.level d) .access) [.name n] (.var n) :=
    fun _ _ _ hrest => reads_name_operand hfinish hn hrest
  intro L
  refine Encloses.climb hfinish hoperand (fun _ rest hrest => ?_) L L.tightness_le_access
  -- no operand follows, to which an operator of that name could be applied
  exact ⟨by simp, fun _ _ => .inr (endsName_of_closes hrest)⟩

end

end
end Grammar
end Formula
