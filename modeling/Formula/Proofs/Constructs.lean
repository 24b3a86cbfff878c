import Formula.Proofs.Levels
import Mathlib.Data.List.Forall2
import Mathlib.Data.List.Induction

/-! # How each construct is read

Every construct is read on its own level, from operands that their readers read in their positions
(`Spells`, `Readable`).  Nothing is said yet of how operands are written.
-/
namespace Formula
namespace Grammar

section
variable {g : Grammar} {sub : Level → Reader Term} {L : Rank} {ts us : List Token} {t u : Term}

/-! ## Lists -/

/-- Each of the pieces can be read as an expression, and begins as one. -/
def ReadsEach (sub : Level → Reader Term) : List (List Token) → List Term → Prop :=
  List.Forall₂ fun ts t => Encloses (sub .assignment) ts t ∧ (ahead ts).opens = true

theorem closes_items {close : Token} (hclose : close.closes = true) (tss : List (List Token))
    (rest : List Token) :
    (ahead (tss.flatMap (.comma :: ·) ++ close :: rest)).closes = true := by
  cases tss with
  | nil => exact hclose
  | cons ts tss => rfl

section
variable (hfinish : g.finish.token = .finish)
include hfinish

theorem repeats_items {close : Token} {tss : List (List Token)} {terms : List Term}
    (hclose : close.closes = true) (hcomma : close ≠ .comma)
    (h : ReadsEach sub tss terms) (rest : List Token) :
    ∀ items, Repeats (g.listLink sub) items (tss.flatMap (.comma :: ·) ++ close :: rest)
      (items ++ terms) (close :: rest) := by
  induction h with
  | nil =>
    intro items
    rw [List.append_nil]
    have hnext : ahead (close :: rest) ≠ .comma := hcomma
    refine .done ((reads_accept_not hfinish hnext).bind ?_)
    exact reads_pure none _
  | @cons ts t tss terms hfirst _ ih =>
    intro items
    rw [List.flatMap_cons, List.cons_append, List.cons_append, List.append_assoc,
      List.append_cons items t terms]
    refine .more ((reads_accept _ _).bind ?_) (length_lt_of_cons_append _ _ _) (ih _)
    exact (hfirst.1 _ (closes_items hclose _ _)).bind (reads_pure _ _)

/-- Items between commas are read as what they are. -/
theorem reads_listUntil {close : Token} {tss : List (List Token)} {terms : List Term}
    (hclose : close.closes = true) (hcomma : close ≠ .comma) (hopens : close.opens = false)
    (h : ReadsEach sub tss terms) (rest : List Token) :
    Reads (g.listUntil sub close) (separated tss ++ close :: rest) terms rest := by
  cases h with
  | nil => exact (reads_accept _ _).bind (reads_pure _ _)
  | @cons ts t tss terms hfirst htail =>
    rw [separated, List.append_assoc]
    have hne : ahead (ts ++ (tss.flatMap (.comma :: ·) ++ close :: rest)) ≠ close := by
      rw [ahead_append hfirst.2]
      rintro rfl
      rw [hfirst.2] at hopens
      cases hopens
    refine (reads_accept_not hfinish hne).bind ((hfirst.1 _ (closes_items hclose _ _)).bind ?_)
    refine (repeats_items hfinish hclose hcomma htail rest [t]).whileSome.bind ?_
    exact (reads_expect _ _).bind (reads_pure _ _)

end

/-- One statement is what it is, if nothing more follows. -/
theorem reads_statements (hfinish : g.finish.token = .finish)
    (h : Encloses (sub .assignment) ts t) {rest : List Token} (hcloses : (ahead rest).closes = true)
    (hone : ahead rest ≠ .semicolon) : Reads (g.statements sub) (ts ++ rest) t rest := by
  refine (h rest hcloses).bind (reads_peek hfinish fun place hplace => ?_)
  rw [if_neg (hplace ▸ hone)]
  exact reads_pure t rest

/-- The reader of whole texts answers what the tokens are read as before the end. -/
theorem whole_of_encloses (hfinish : g.finish.token = .finish)
    (h : Encloses (g.level g.options.maxDepth .assignment) ts t) {placed : List PlacedToken}
    (hplaced : placed.map (·.token) = ts) : g.whole (placed.map .token) = .ok (t, []) := by
  have hwhole : Reads g.whole (ts ++ []) t [] := by
    refine (reads_statements hfinish h rfl (by decide)).bind ?_
    refine reads_peek hfinish fun place hplace => ?_
    have hend : place.token = .finish := hplace
    rw [if_pos hend]
    exact reads_pure _ _
  rw [List.append_nil] at hwhole
  obtain ⟨left, hleft, hrun⟩ := hwhole placed hplaced
  obtain rfl := List.map_eq_nil_iff.mp hleft
  exact hrun

/-- Between parentheses the tokens are read as the term. -/
def Fills (g : Grammar) (sub : Level → Reader Term) (ts : List Token) (t : Term) : Prop :=
  ∀ rest, Reads (g.statements sub) (ts ++ .bracket .roundClose :: rest) t
    (.bracket .roundClose :: rest)

theorem Encloses.fills (hfinish : g.finish.token = .finish) (h : Encloses (sub .assignment) ts t) :
    g.Fills sub ts t := fun _ => reads_statements hfinish h rfl (by simp)

theorem reads_group (h : g.Fills sub ts t) (rest : List Token) :
    Reads (g.atom sub) (.bracket .roundOpen :: (ts ++ .bracket .roundClose :: rest)) t rest := by
  refine reads_advance fun place hplace => ?_
  rw [hplace]
  exact (h rest).bind ((reads_expect _ _).bind (reads_pure _ _))

theorem mapM_nameOf? (params : List String) :
    (params.map Term.var).mapM nameOf? = some params := by
  induction params with
  | nil => rfl
  | cons param params ih => simp [List.mapM_cons, ih, nameOf?]

/-- A variable, and accesses to members behind it. -/
def ofPath (root : String) (path : List String) : Term := path.foldl .member (.var root)

theorem ofPath_concat (root : String) (path : List String) (n : String) :
    ofPath root (path ++ [n]) = .member (ofPath root path) n := by
  simp [ofPath, List.foldl_append]

theorem pathOf?_ofPath (root : String) (path : List String) :
    pathOf? (ofPath root path) = some (root, path) := by
  induction path using List.reverseRecOn with
  | nil => rfl
  | append_singleton path n ih =>
    rw [ofPath_concat, pathOf?, ih]
    rfl

/-! ## Constructs -/

/-- What a level has read is the operand on the left of what it reads next. -/
theorem Readable.reads_join {link : Term → Reader (Option Term)} (hlink : g.link? sub L = some link)
    (h : g.Readable sub L ts t) {k : Token} (hk : Stops (L.tightness + 1) k) {rest : List Token}
    (hread : Reads (link t) (k :: (us ++ rest)) (some u) rest) {b : Term} {vs : List Token}
    (hrepeats : Repeats link u rest b vs) :
    Reads (g.reader sub L) (ts ++ k :: us ++ rest) b vs := by
  rw [Readable, hlink] at h
  rw [List.append_assoc]
  exact h (k :: (us ++ rest)) b vs hk (.more hread (length_lt_of_cons_append _ _ _) hrepeats)

theorem Readable.join {link : Term → Reader (Option Term)} (hlink : g.link? sub L = some link)
    (h : g.Readable sub L ts t) {k : Token} (hk : Stops (L.tightness + 1) k)
    (hread : ∀ rest, Stops (L.tightness + 1) (ahead rest) →
      Reads (link t) (k :: (us ++ rest)) (some u) rest) : g.Readable sub L (ts ++ k :: us) u := by
  have hjoin : ∀ rest b vs, Stops (L.tightness + 1) (ahead rest) → Repeats link u rest b vs →
      Reads (g.reader sub L) (ts ++ k :: us ++ rest) b vs := fun rest b vs hrest hrepeats =>
    h.reads_join hlink hk (hread rest hrest) hrepeats
  rwa [Readable, hlink]

theorem Readable.encloses_join {link : Term → Reader (Option Term)}
    (hlink : g.link? sub L = some link) (hfinish : g.finish.token = .finish)
    (h : g.Readable sub L ts t) {k : Token} (hk : Stops (L.tightness + 1) k)
    (hread : ∀ rest, (ahead rest).closes = true →
      Reads (link t) (k :: (us ++ rest)) (some u) rest) :
    Encloses (g.reader sub L) (ts ++ k :: us) u := by
  intro rest hrest
  have hstops := (stops_of_closes hrest).mono (Nat.zero_le L.tightness)
  exact h.reads_join hlink hk (hread rest hrest) (.done (link_stops hfinish hlink hstops))

theorem link?_signOp (o : SignOp) :
    g.link? sub o.rank = some (g.chainLink (signOp? o.rank) (g.below sub o.rank)) := by
  cases o <;> rfl

section
variable (hon : g.options.AllOn)
include hon

theorem reads_chainLink (o : SignOp) {operand : Reader Term} {rest : List Token}
    (hr : Reads operand (us ++ rest) u rest) :
    Reads (g.chainLink (signOp? o.rank) operand t) (.sign o.sign :: (us ++ rest))
      (some (.binary o.op t u)) rest := by
  refine reads_peek_cons fun place hplace => ?_
  simp only [hplace, signOp?_sign]
  exact (reads_takeOperator (hon.allows _ _) place _ _).bind (hr.bind (reads_pure _ _))

theorem readable_binary (o : SignOp) (hl : g.Readable sub o.rank ts t)
    (hr : Spells (g.below sub o.rank) (o.rank.tightness + 1) us u) :
    g.Readable sub o.rank (ts ++ .sign o.sign :: us) (.binary o.op t u) :=
  hl.join (link?_signOp o) o.stops_sign fun rest hrest => reads_chainLink hon o (hr rest hrest)

theorem reads_wordLink {word : String} {join : Term → Term → Term} {operand : Reader Term}
    {rest : List Token} (hr : Reads operand (us ++ rest) u rest) :
    Reads (g.wordLink word join operand t) (.name word :: (us ++ rest)) (some (join t u)) rest := by
  refine reads_peek_cons fun place hplace => ?_
  rw [if_pos hplace]
  exact (reads_takeOperator (hon.allows _ _) place _ _).bind (hr.bind (reads_pure _ _))

theorem readable_and (hl : g.Readable sub .conjunction ts t)
    (hr : Spells (g.comparison sub) Rank.comparison.tightness us u) :
    g.Readable sub .conjunction (ts ++ .name "and" :: us) (.and t u) :=
  hl.join rfl (by decide) fun rest hrest => reads_wordLink hon (hr rest hrest)

theorem readable_or (hl : g.Readable sub .disjunction ts t)
    (hr : Spells (g.reader sub .conjunction) Rank.conjunction.tightness us u) :
    g.Readable sub .disjunction (ts ++ .name "or" :: us) (.or t u) :=
  hl.join rfl (by decide) fun rest hrest => reads_wordLink hon (hr rest hrest)

theorem reads_isIn {rest : List Token} (hr : Reads (g.disjunction sub) (us ++ rest) u rest) :
    Reads (g.membershipLink sub t) (.name "in" :: (us ++ rest)) (some (.binary .isIn t u))
      rest := by
  refine reads_peek_cons fun place hplace => ?_
  have hword : Reads (g.membershipWord? place) (.name "in" :: (us ++ rest)) (some false)
      (.name "in" :: (us ++ rest)) := by
    unfold membershipWord?
    rw [if_pos hplace]
    exact reads_pure _ _
  refine hword.bind ((reads_takeOperator (hon.allows _ _) place _ _).bind ?_)
  exact hr.bind (reads_pure _ _)

theorem readable_isIn (hl : g.Readable sub .membership ts t)
    (hr : Spells (g.disjunction sub) Rank.disjunction.tightness us u) :
    g.Readable sub .membership (ts ++ .name "in" :: us) (.binary .isIn t u) :=
  hl.join rfl (by decide) fun rest hrest => reads_isIn hon (hr rest hrest)

theorem readable_isIn_denied (hl : g.Readable sub .membership ts t)
    (hr : Spells (g.disjunction sub) Rank.disjunction.tightness us u) :
    g.Readable sub .membership (ts ++ .name "not" :: .name "in" :: us)
      (.unary (.named .not) (.binary .isIn t u)) := by
  refine hl.join rfl (by decide) fun rest hrest => reads_peek_cons fun place hplace => ?_
  have hword : Reads (g.membershipWord? place) (.name "not" :: .name "in" :: (us ++ rest))
      (some true) (.name "not" :: .name "in" :: (us ++ rest)) := by
    unfold membershipWord?
    rw [if_neg (by simp [hplace]), if_pos hplace]
    refine reads_peekSecond_cons fun second hsecond => ?_
    rw [if_pos hsecond]
    exact reads_pure _ _
  -- the first word is taken as the operator, the second one behind it
  refine hword.bind ((reads_takeOperator (hon.allows _ _) place _ _).bind ?_)
  refine reads_advance fun _ _ => ?_
  exact (hr rest hrest).bind (reads_pure _ _)

theorem readable_bang (h : g.Readable sub .factorial ts t) :
    g.Readable sub .factorial (ts ++ [Token.sign .bang]) (.unary .factorial t) := by
  refine h.join rfl (by decide) fun rest hrest => reads_peek_cons fun place hplace => ?_
  rw [if_pos hplace]
  exact (reads_takeOperator (hon.allows _ _) place _ _).bind (reads_pure _ _)

theorem reads_sign (negative : Bool) {rest : List Token}
    (h : Reads (sub .factor) (ts ++ rest) t rest) :
    Reads (g.factor sub) (.sign (if negative then .minus else .plus) :: (ts ++ rest))
      (.unary (if negative then .negate else .plus) t) rest := by
  cases negative with
  | true =>
    refine reads_peek_cons fun place hplace => ?_
    rw [hplace]
    exact (reads_takeOperator (hon.allows _ _) place _ _).bind (h.map _)
  | false =>
    refine reads_peek_cons fun place hplace => ?_
    rw [hplace]
    exact (reads_takeOperator (hon.allows _ _) place _ _).bind (h.map _)

theorem readable_sign (negative : Bool) (h : Spells (sub .factor) Rank.factor.tightness ts t) :
    g.Readable sub .factor (.sign (if negative then .minus else .plus) :: ts)
      (.unary (if negative then .negate else .plus) t) :=
  fun rest hrest => reads_sign hon negative (h rest hrest)

theorem readable_choose {ws : List Token} {w : Term}
    (hc : Spells (g.membership sub) Rank.membership.tightness ts t)
    (hy : Spells (sub .conditional) Rank.conditional.tightness us u)
    (hn : Spells (sub .conditional) Rank.conditional.tightness ws w) :
    g.Readable sub .conditional (ts ++ .sign .question :: us ++ .sign .colon :: ws)
      (.choose t u w) := by
  intro rest hrest
  have htokens : ts ++ .sign .question :: us ++ .sign .colon :: ws ++ rest
      = ts ++ .sign .question :: (us ++ .sign .colon :: (ws ++ rest)) := by simp
  rw [htokens]
  refine (hc _ (stops_cons (by decide) _)).bind (reads_peek_cons fun place hplace => ?_)
  rw [if_pos hplace]
  refine (reads_takeOperator (hon.allows _ _) place _ _).bind ?_
  refine (hy _ (stops_cons (by decide) _)).bind ?_
  exact (reads_expect _ _).bind ((hn rest hrest).bind (reads_pure _ _))

section
variable (hfinish : g.finish.token = .finish)
include hfinish

theorem reads_caret (hl : Spells (g.factorial sub) Rank.factorial.tightness ts t)
    {rest : List Token} (hrest : Stops Rank.power.tightness (ahead rest))
    (hr : Reads (sub .factor) (us ++ rest) u rest) :
    Reads (g.power sub) (ts ++ .sign .caret :: us ++ rest) (.binary .power t u) rest := by
  rw [List.append_assoc]
  -- the exponent takes all powers to its right, so there is no second round
  have hdone : Repeats (g.caret sub) (.binary .power t u) rest (.binary .power t u) rest := by
    refine .done (reads_peek hfinish fun place hplace => ?_)
    rw [if_neg (hplace ▸ hrest.ne (by decide))]
    exact reads_pure none rest
  have hmore : Reads (g.caret sub t) (.sign .caret :: (us ++ rest))
      (some (.binary .power t u)) rest := by
    refine reads_peek_cons fun place hplace => ?_
    rw [if_pos hplace]
    exact (reads_takeOperator (hon.allows _ _) place _ _).bind (hr.bind (reads_pure _ _))
  have hrounds := Repeats.more hmore (length_lt_of_cons_append _ _ _) hdone
  exact (hl _ (stops_cons (by decide) _)).bind hrounds.whileSome

theorem readable_caret (hl : Spells (g.factorial sub) Rank.factorial.tightness ts t)
    (hr : Spells (sub .factor) Rank.factor.tightness us u) :
    g.Readable sub .power (ts ++ .sign .caret :: us) (.binary .power t u) :=
  fun rest hrest => reads_caret hon hfinish hl hrest (hr rest hrest.factor)

end

/-! ## Access -/

theorem readable_member (h : g.Readable sub .access ts t) {k : Token} {n : String}
    (hk : memberName? k = some n) :
    g.Readable sub .access (ts ++ [Token.sign .dot, k]) (.member t n) := by
  refine h.join rfl (by decide) fun rest _ => reads_peek_cons fun place hplace => ?_
  rw [hplace]
  simp only [hon.access, if_true]
  refine reads_advance fun _ _ => reads_advance fun second hsecond => ?_
  rw [hsecond, hk]
  exact reads_pure _ _

theorem readable_index (h : g.Readable sub .access ts t) (hkey : Encloses (sub .assignment) us u) :
    g.Readable sub .access (ts ++ .bracket .squareOpen :: us ++ [Token.bracket .squareClose])
      (.index t u) := by
  rw [List.append_assoc, List.cons_append]
  refine h.join rfl (by decide) fun rest _ => reads_peek_cons fun place hplace => ?_
  rw [hplace, List.append_assoc]
  simp only [hon.access, if_true]
  refine reads_advance fun _ _ => (hkey _ rfl).bind ?_
  exact (reads_expect _ _).bind (reads_pure _ _)

omit hon in
theorem readable_call (hfinish : g.finish.token = .finish) {tss : List (List Token)}
    {terms : List Term} (h : g.Readable sub .access ts t) (harguments : ReadsEach sub tss terms) :
    g.Readable sub .access
      (ts ++ .bracket .roundOpen :: separated tss ++ [Token.bracket .roundClose]) (.call t terms) := by
  rw [List.append_assoc, List.cons_append]
  refine h.join rfl (by decide) fun rest _ => reads_peek_cons fun place hplace => ?_
  rw [hplace, List.append_assoc]
  refine reads_advance fun _ _ => ?_
  exact (reads_listUntil hfinish rfl (by decide) rfl harguments rest).bind (reads_pure _ _)

end

/-! ## Atoms -/

theorem readable_atom {k : Token} (hk : ∀ n, k = .name n → NamedOp.ofName? n = none)
    (h : ∀ rest, Reads (g.atom sub) (k :: (ts ++ rest)) t rest) :
    g.Readable sub .access (k :: ts) t := by
  intro rest b us _ hrepeats
  have hcalled : Reads g.calledOperator? (k :: (ts ++ rest)) none (k :: (ts ++ rest)) := by
    refine reads_peek_cons fun place hplace => ?_
    split
    · rename_i n hn
      split
      · rename_i op hop
        have hoperator := Options.ofName?_of_namedOp? hop
        rw [hk n (hplace.symm.trans hn)] at hoperator
        cases hoperator
      · exact reads_pure _ _
    · exact reads_pure _ _
  exact hcalled.bind ((h rest).bind hrepeats.whileSome)

theorem readable_name {n : String} (hn : OrdinaryName g.constants n) :
    g.Readable sub .access [.name n] (.var n) := by
  refine readable_atom ?_ fun rest => reads_advance fun place hplace => ?_
  · rintro _ ⟨⟩
    exact hn.operator
  · rw [hplace]
    change Reads (g.name sub place n) _ _ _
    unfold name
    rw [if_neg (fun h => hn.case h.2), if_neg (fun h => hn.word h.2), hn.constant]
    exact reads_pure _ _

theorem readable_number (x : Float) :
    g.Readable sub .access [.number x] (.literal (.number x)) := by
  refine readable_atom (by simp) fun rest => reads_advance fun place hplace => ?_
  rw [hplace]
  exact reads_pure _ _

theorem readable_string (s : String) :
    g.Readable sub .access [.string s] (.literal (.string s)) := by
  refine readable_atom (by simp) fun rest => reads_advance fun place hplace => ?_
  rw [hplace]
  exact reads_pure _ _

theorem readable_keyword (k : Keyword) : g.Readable sub .access [.keyword k] k.term := by
  refine readable_atom (by simp) fun rest => reads_advance fun place hplace => ?_
  rw [hplace]
  cases k <;> exact reads_pure _ _

theorem readable_group (h : g.Fills sub ts t) :
    g.Readable sub .access (.bracket .roundOpen :: ts ++ [Token.bracket .roundClose]) t := by
  rw [List.cons_append]
  refine readable_atom (by simp) fun rest => ?_
  rw [List.append_assoc]
  exact reads_group h rest

section
variable (hon : g.options.AllOn)
include hon

theorem readable_array (hfinish : g.finish.token = .finish) {tss : List (List Token)}
    {terms : List Term} (h : ReadsEach sub tss terms) :
    g.Readable sub .access (.bracket .squareOpen :: separated tss ++ [Token.bracket .squareClose])
      (.array terms) := by
  rw [List.cons_append]
  refine readable_atom (by simp) fun rest => reads_advance fun place hplace => ?_
  rw [hplace, List.append_assoc]
  have hallows : g.options.allowsArray = true := hon.operators _
  simp only [hallows, if_true]
  exact (reads_listUntil hfinish rfl (by decide) rfl h rest).map _

/-- A named operator that is called. -/
theorem readable_named (op : NamedOp) (h : g.Fills sub ts t) :
    g.Readable sub .access
      (.name op.name :: .bracket .roundOpen :: ts ++ [Token.bracket .roundClose])
      (.unary (.named op) t) := by
  intro rest b us _ hrepeats
  have hcalled : Reads g.calledOperator?
      (.name op.name :: .bracket .roundOpen :: (ts ++ .bracket .roundClose :: rest)) (some op)
      (.name op.name :: .bracket .roundOpen :: (ts ++ .bracket .roundClose :: rest)) := by
    refine reads_peek_cons fun place hplace => ?_
    rw [hplace]
    simp only [hon.namedOp?_eq, NamedOp.ofName?_name]
    refine reads_peekSecond_cons fun second hsecond => ?_
    rw [if_pos hsecond]
    exact reads_pure _ _
  rw [List.append_assoc]
  refine hcalled.bind (reads_advance fun _ _ => ?_)
  exact (reads_group h rest).bind hrepeats.whileSome

/-! ## Stores -/

theorem readable_assign {root : String} {path : List String}
    (hleft : Spells (sub .conditional) Rank.conditional.tightness ts t)
    (hpath : pathOf? t = some (root, path)) (hvalue : Spells (sub .assignment) 0 us u) :
    g.Readable sub .assignment (ts ++ .sign .assign :: us) (.assign root path u) := by
  intro rest hrest
  rw [List.append_assoc]
  refine (hleft _ (stops_cons (by decide) _)).bind (reads_peek_cons fun place hplace => ?_)
  rw [if_pos hplace]
  refine (reads_takeOperator (hon.allows _ _) place _ _).bind ?_
  split
  · cases hpath
  · rw [hpath]
    exact (hvalue rest hrest).map _

theorem readable_define {f : String} {params : List String}
    (hleft : Spells (sub .conditional) Rank.conditional.tightness ts
      (.call (.var f) (params.map .var)))
    (hbody : Spells (sub .assignment) 0 us u) :
    g.Readable sub .assignment (ts ++ .sign .assign :: us) (.define f params u) := by
  intro rest hrest
  rw [List.append_assoc]
  refine (hleft _ (stops_cons (by decide) _)).bind (reads_peek_cons fun place hplace => ?_)
  rw [if_pos hplace]
  refine (reads_takeOperator (hon.allows _ _) place _ _).bind ?_
  have hallows : g.options.allowsDefinition = true := by
    rw [Options.allowsDefinition, hon.operators, hon.operators]
    rfl
  have hname : nameOf? (.var f) = some f := rfl
  simp only [hallows, hname, mapM_nameOf?, if_true]
  exact (hbody rest hrest).map _

end
end
end Grammar
end Formula
