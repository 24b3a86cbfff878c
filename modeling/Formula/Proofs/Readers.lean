import Formula.Term.Parser
import Formula.Proofs.Trees

/-! # What readers answer

`Yields T m P` says that on tokens that satisfy `T` a reader answers only what satisfies `P`.  Its
laws follow the shape of a reader, so a property of all terms that can be parsed is shown one reader
at a time, and once for all properties: it holds of every parsed term as soon as the constructs of
the grammar keep it (`Grammar.Keeps`, `Term.of_parse`).

A property may be about a number of levels that the code of a term has to run in.  A construct then
has to keep it where the parts that wait have a level less than the others.

One such property is that the code of a term names only operators that exist, that no key of an
object is a protected name, and that its literals are those that can be written, or constants
(`fits_of_parse`).
-/
namespace Formula

/-! ## Laws of readers -/

namespace Grammar

/-- The tokens among the pieces of a text satisfy `T`. -/
def Holds (T : Token → Prop) (pieces : List Lexeme) : Prop :=
  ∀ t, Lexeme.token t ∈ pieces → T t.token

/-- On tokens that satisfy `T` whatever the reader answers satisfies `P`, and it leaves such
tokens. -/
def Yields (T : Token → Prop) {α : Type} (m : Reader α) (P : α → Prop) : Prop :=
  ∀ s, Holds T s → ∀ a s', m s = .ok (a, s') → P a ∧ Holds T s'

section
variable {T : Token → Prop} {α β : Type} {P : α → Prop} {Q : β → Prop}

theorem Yields.pure {a : α} (h : P a) : Yields T (pure a : Reader α) P := by
  intro s hs b s' hrun
  cases hrun
  exact ⟨h, hs⟩

theorem Yields.throw (failure : Failure) : Yields T (throw failure : Reader α) P := by
  intro s _ a s' hrun
  cases hrun

theorem Yields.fail (place : PlacedToken) (fault : ParseFault) :
    Yields T (fail place fault : Reader α) P := Yields.throw _

theorem Yields.get : Yields T (get : Reader (List Lexeme)) (Holds T) := by
  intro s hs a s' hrun
  cases hrun
  exact ⟨hs, hs⟩

theorem Yields.bind {m : Reader α} {f : α → Reader β} (hm : Yields T m P)
    (hf : ∀ a, P a → Yields T (f a) Q) : Yields T (m >>= f) Q := by
  intro s hs b s' hrun
  change (m s >>= fun answer => f answer.1 answer.2) = _ at hrun
  cases ha : m s with
  | error failure => rw [ha] at hrun; cases hrun
  | ok answer =>
    rw [ha] at hrun
    obtain ⟨hanswer, hleft⟩ := hm s hs _ _ ha
    exact hf answer.1 hanswer _ hleft _ _ hrun

theorem Yields.mono {Q : α → Prop} {m : Reader α} (hm : Yields T m P) (hPQ : ∀ a, P a → Q a) :
    Yields T m Q := by
  intro s hs a s' hrun
  obtain ⟨ha, hleft⟩ := hm s hs a s' hrun
  exact ⟨hPQ a ha, hleft⟩

theorem Yields.map {m : Reader α} {f : α → β} (hm : Yields T m P) (hf : ∀ a, P a → Q (f a)) :
    Yields T (f <$> m) Q := by
  rw [map_eq_pure_bind]
  exact hm.bind fun a ha => Yields.pure (hf a ha)

theorem Yields.iterate {step : α → Reader (Option α)}
    (hstep : ∀ a, P a → Yields T (step a) fun next => ∀ b ∈ next, P b) (rounds : Nat) {a : α}
    (ha : P a) : Yields T (iterate step rounds a) P := by
  induction rounds generalizing a with
  | zero => exact Yields.pure ha
  | succ rounds ih =>
    refine (hstep a ha).bind fun next hnext => ?_
    cases next with
    | none => exact Yields.pure ha
    | some b => exact ih (hnext b rfl)

/-- What every round of a repetition keeps holds at its end. -/
theorem Yields.whileSome {step : α → Reader (Option α)}
    (hstep : ∀ a, P a → Yields T (step a) fun next => ∀ b ∈ next, P b) {a : α} (ha : P a) :
    Yields T (whileSome step a) P := Yields.get.bind fun _ _ => Yields.iterate hstep _ ha

/-- What the first round brings about, and every further one keeps, holds at the end of a repetition
whose first round always answers. -/
theorem Yields.whileSome_of_first {step : α → Reader (Option α)} {a : α}
    (hfirst : Yields T (step a) fun next => ∃ b, next = some b ∧ P b)
    (hstep : ∀ b, P b → Yields T (step b) fun next => ∀ c ∈ next, P c) :
    Yields T (Grammar.whileSome step a) P := by
  refine Yields.get.bind fun s _ => hfirst.bind ?_
  rintro _ ⟨b, rfl, hb⟩
  exact Yields.iterate hstep s.length hb

/-! ## Single tokens -/

variable {g : Grammar} (hfinish : T g.finish.token)
include hfinish

theorem yields_peek : Yields T g.peek fun t => T t.token := by
  refine Yields.get.bind fun s hs => ?_
  split
  · exact Yields.pure hfinish
  · rename_i lexeme rest
    cases lexeme with
    | token t => exact Yields.pure (hs t (.head _))
    | rejected fault start stop => exact Yields.throw _

theorem yields_peekSecond : Yields T g.peekSecond fun t => T t.token := by
  refine Yields.get.bind fun s hs => ?_
  split
  · rename_i first lexeme rest
    cases lexeme with
    | token t => exact Yields.pure (hs t (.tail _ (.head _)))
    | rejected fault start stop => exact Yields.throw _
  · exact Yields.pure hfinish

omit hfinish in
theorem yields_tail : Yields T (modify List.tail : Reader Unit) fun _ => True := by
  intro s hs a s' hrun
  cases hrun
  exact ⟨trivial, fun t ht => hs t (List.mem_of_mem_tail ht)⟩

theorem yields_advance : Yields T g.advance fun t => T t.token :=
  (yields_peek hfinish).bind fun _ ht => yields_tail.bind fun _ _ => Yields.pure ht

theorem yields_accept (token : Token) : Yields T (g.accept token) fun _ => True := by
  refine (yields_peek hfinish).bind fun t _ => ?_
  split
  · exact (yields_advance hfinish).bind fun _ _ => Yields.pure trivial
  · exact Yields.pure trivial

theorem yields_expect (token : Token) : Yields T (g.expect token) fun _ => True := by
  refine (yields_peek hfinish).bind fun t _ => ?_
  split
  · exact (yields_advance hfinish).bind fun _ _ => Yields.pure trivial
  · exact Yields.fail _ _

theorem yields_expectWord (word : String) : Yields T (g.expectWord word) fun _ => True := by
  refine (yields_peek hfinish).bind fun t _ => ?_
  split
  · exact (yields_advance hfinish).bind fun _ _ => Yields.pure trivial
  · exact Yields.fail _ _

theorem yields_takeOperator (t : PlacedToken) (symbol : String) (fixity : Fixity) :
    Yields T (g.takeOperator t symbol fixity) fun _ => True := by
  unfold takeOperator
  split
  · exact (yields_advance hfinish).bind fun _ _ => Yields.pure trivial
  · exact Yields.fail _ _

end

/-! ## The readers of the grammar -/

/-- On tokens that satisfy `T` every construct of the grammar has the property `F` if its parts have
it, where the parts that wait have a level less to run in. -/
structure Keeps (g : Grammar) (T : Token → Prop) (F : Nat → Term → Prop) : Prop where
  finish : T g.finish.token
  mono : ∀ {n t}, F n t → F (n + 1) t
  number : ∀ {n} x, F (n + 1) (.literal (.number x))
  string : ∀ {n} s, F (n + 1) (.literal (.string s))
  bool : ∀ {n} b, F (n + 1) (.literal (.bool b))
  undefined : ∀ {n}, F (n + 1) .undefined
  constant : ∀ {n} name v, g.constants.get? name = some v → F (n + 1) (.literal v)
  var : ∀ {n} name, T (.name name) → ¬ (g.options.allowsConditional ∧ name = "case") →
    ¬ (g.options.allowsConditional ∧ name ∈ caseWords) → g.constants.get? name = none →
    F (n + 1) (.var name)
  unary : ∀ {n} op t, (∀ spelling, op ≠ .unknown spelling) → F n t → F n (.unary op t)
  binary : ∀ {n} op l r, (∀ spelling, op ≠ .unknown spelling) → F n l → F n r →
    F n (.binary op l r)
  and : ∀ {n} l r, F (n + 1) l → F n r → F (n + 1) (.and l r)
  or : ∀ {n} l r, F (n + 1) l → F n r → F (n + 1) (.or l r)
  choose : ∀ {n} condition yes no, F (n + 1) condition → F n yes → F n no →
    F (n + 1) (.choose condition yes no)
  caseOf : ∀ {n} subject arms otherwise, (∀ t ∈ subject, F (n + 1) t) → arms ≠ [] →
    (∀ arm ∈ arms, F n arm.1 ∧ F n arm.2) → (∀ t ∈ otherwise, F n t) →
    F (n + 1) (.caseOf subject arms otherwise)
  member : ∀ {n} target k name, T k → memberName? k = some name → F n target →
    F n (.member target name)
  index : ∀ {n} target key, F n target → F n key → F n (.index target key)
  call : ∀ {n} callee arguments, F n callee → (∀ t ∈ arguments, F n t) →
    F n (.call callee arguments)
  array : ∀ {n} items, (∀ t ∈ items, F (n + 1) t) → F (n + 1) (.array items)
  object : ∀ {n} fields, (∀ field ∈ fields, isProtected field.1 = false ∧ F (n + 1) field.2) →
    F (n + 1) (.object fields)
  assign : ∀ {n} target root path value, pathOf? target = some (root, path) →
    F (n + 1) target → F n value → F (n + 1) (.assign root path value)
  /-- The body is not run where the function is defined. -/
  define : ∀ {n} callee arguments name params body, nameOf? callee = some name →
    arguments.mapM nameOf? = some params → F (n + 1) (.call callee arguments) → F n body →
    F (n + 1) (.define name params body)
  sequence : ∀ {n} first rest, F n first → (∀ t ∈ rest, F n t) → F (n + 1) (.sequence first rest)

end Grammar

/-- How many levels a term may take that is read `depth` levels above the limit of nesting. -/
def Level.bound (depth : Nat) : Level → Nat
  | .conditional => depth + 1
  | .assignment | .factor => depth

namespace Grammar

section
variable {T : Token → Prop} {F : Nat → Term → Prop} {g : Grammar} {n : Nat}
  {sub : Level → Reader Term} (hF : g.Keeps T F)
include hF

theorem yields_chain {op? : Sign → Option BinaryOp} {operand : Reader Term}
    (hop : ∀ sign op, op? sign = some op → ∀ spelling, op ≠ .unknown spelling)
    (h : Yields T operand (F n)) : Yields T (g.chain op? operand) (F n) := by
  refine h.bind fun t ht => Yields.whileSome (fun left hl => ?_) ht
  refine (yields_peek hF.finish).bind fun place _ => ?_
  split
  · rename_i sign _
    split
    · rename_i op hsome
      refine (yields_takeOperator hF.finish _ _ _).bind fun _ _ => h.bind fun right hr =>
        Yields.pure ?_
      rintro b ⟨⟩
      exact hF.binary op left right (hop sign op hsome) hl hr
    · exact Yields.pure (by simp)
  · exact Yields.pure (by simp)

theorem yields_wordChain {word : String} {join : Term → Term → Term} {operand : Reader Term}
    (hjoin : ∀ l r : Term, F (n + 1) l → F n r → F (n + 1) (join l r))
    (h : Yields T operand (F n)) : Yields T (g.wordChain word join operand) (F (n + 1)) := by
  refine h.bind fun t ht => Yields.whileSome (fun left hl => ?_) (hF.mono ht)
  refine (yields_peek hF.finish).bind fun place _ => ?_
  split
  · refine (yields_takeOperator hF.finish _ _ _).bind fun _ _ => h.bind fun right hr =>
      Yields.pure ?_
    rintro b ⟨⟩
    exact hjoin left right hl hr
  · exact Yields.pure (by simp)

theorem yields_calledOperator : Yields T g.calledOperator? fun _ => True := by
  refine (yields_peek hF.finish).bind fun place _ => ?_
  split
  · split
    · exact (yields_peekSecond hF.finish).bind fun _ _ => Yields.pure trivial
    · exact Yields.pure trivial
  · exact Yields.pure trivial

theorem yields_membershipWord (place : PlacedToken) :
    Yields T (g.membershipWord? place) fun _ => True := by
  unfold membershipWord?
  split
  · exact Yields.pure trivial
  · split
    · exact (yields_peekSecond hF.finish).bind fun _ _ => Yields.pure trivial
    · exact Yields.pure trivial

variable (hsub : ∀ level, Yields T (sub level) (F (level.bound n)))
include hsub

theorem yields_listUntil (close : Token) :
    Yields T (g.listUntil sub close) fun items => ∀ t ∈ items, F n t := by
  refine (yields_accept hF.finish _).bind fun empty _ => ?_
  split
  · exact Yields.pure (by simp)
  · refine (hsub _).bind fun first hfirst => ?_
    have hitems : ∀ t ∈ [first], F n t := List.forall_mem_singleton.mpr hfirst
    refine Yields.bind (Yields.whileSome (fun items hitems => ?_) hitems) fun items hitems =>
      (yields_expect hF.finish _).bind fun _ _ => Yields.pure hitems
    refine (yields_accept hF.finish _).bind fun more _ => ?_
    split
    · refine (hsub .assignment).bind fun item hitem => Yields.pure ?_
      rintro b ⟨⟩
      exact List.forall_mem_append.mpr ⟨hitems, List.forall_mem_singleton.mpr hitem⟩
    · exact Yields.pure (by simp)

theorem yields_fieldsUntil (rounds : Nat) {fields : List (String × Term)}
    (h : ∀ field ∈ fields, isProtected field.1 = false ∧ F n field.2) :
    Yields T (g.fieldsUntil sub rounds fields)
      fun fields => ∀ field ∈ fields, isProtected field.1 = false ∧ F n field.2 := by
  induction rounds generalizing fields with
  | zero => exact Yields.pure h
  | succ rounds ih =>
    refine (yields_accept hF.finish _).bind fun closed _ => ?_
    split
    · exact Yields.pure h
    · refine (yields_advance hF.finish).bind fun place _ => ?_
      split
      · exact Yields.fail _ _
      · rename_i key _
        dsimp only
        split
        · exact (Yields.throw (P := fun _ => False) _).bind fun _ h => h.elim
        · rename_i hkey
          refine (yields_expect hF.finish _).bind fun _ _ => (hsub _).bind fun value hv => ?_
          have hmore : ∀ field ∈ fields ++ [(key, value)],
              isProtected field.1 = false ∧ F n field.2 := by
            rw [List.forall_mem_append]
            exact ⟨h, List.forall_mem_singleton.mpr ⟨by simpa using hkey, hv⟩⟩
          refine (yields_accept hF.finish _).bind fun more _ => ?_
          split
          · exact ih hmore
          · exact (yields_expect hF.finish _).bind fun _ _ => Yields.pure hmore

theorem yields_statements : Yields T (g.statements sub) (F (n + 1)) := by
  refine (hsub _).bind fun first hfirst => (yields_peek hF.finish).bind fun place _ => ?_
  split
  · refine Yields.bind (P := fun answer => ∀ t ∈ answer.1, F n t)
      (Yields.whileSome (fun state hrest => ?_) (by simp)) fun answer hrest =>
        Yields.pure (hF.sequence first answer.1 hfirst hrest)
    obtain ⟨rest, ended⟩ := state
    dsimp only at hrest ⊢
    split
    · exact Yields.pure (by simp)
    · refine (yields_accept hF.finish _).bind fun more _ => ?_
      split
      · refine (yields_peek hF.finish).bind fun place _ => ?_
        split
        · refine Yields.pure ?_
          rintro b ⟨⟩
          exact hrest
        · refine (hsub .assignment).bind fun statement hs => Yields.pure ?_
          rintro b ⟨⟩
          exact List.forall_mem_append.mpr ⟨hrest, List.forall_mem_singleton.mpr hs⟩
      · exact Yields.pure (by simp)
  · exact Yields.pure (hF.mono hfirst)

/-- There is at least one arm. -/
theorem yields_arms :
    Yields T (g.arms sub) fun arms => arms ≠ [] ∧ ∀ arm ∈ arms, F n arm.1 ∧ F n arm.2 := by
  have hmore : ∀ found : List (Term × Term), (∀ arm ∈ found, F n arm.1 ∧ F n arm.2) →
      ∀ condition result, F n condition → F n result → found ++ [(condition, result)] ≠ [] ∧
        ∀ arm ∈ found ++ [(condition, result)], F n arm.1 ∧ F n arm.2 := by
    intro found hfound condition result hc hr
    refine ⟨by simp, List.forall_mem_append.mpr ⟨hfound, ?_⟩⟩
    exact List.forall_mem_singleton.mpr ⟨hc, hr⟩
  refine Yields.whileSome_of_first ?_ fun found hfound => ?_
  all_goals
    refine (yields_peek hF.finish).bind fun place _ => ?_
    split
  · refine (yields_advance hF.finish).bind fun _ _ => (hsub _).bind fun condition hc =>
      (yields_expectWord hF.finish _).bind fun _ _ => (hsub _).bind fun result hr => Yields.pure ?_
    exact ⟨_, rfl, hmore [] (by simp) condition result hc hr⟩
  · exact Yields.fail _ _
  · refine (yields_advance hF.finish).bind fun _ _ => (hsub _).bind fun condition hc =>
      (yields_expectWord hF.finish _).bind fun _ _ => (hsub _).bind fun result hr => Yields.pure ?_
    rintro b ⟨⟩
    exact hmore found hfound.2 condition result hc hr
  · split
    · exact Yields.fail _ _
    · exact Yields.pure (by simp)

theorem yields_caseBlock : Yields T (g.caseBlock sub) (F (n + 1)) := by
  refine (yields_peek hF.finish).bind fun place _ => ?_
  extract_lets withSubject
  have hsubject : ∀ subject : Option Term, (∀ t ∈ subject, F (n + 1) t) →
      Yields T (withSubject subject) (F (n + 1)) := by
    intro subject hs
    refine (yields_arms hF hsub).bind fun arms ha => (yields_peek hF.finish).bind fun place _ => ?_
    extract_lets withLast
    have hlast : ∀ otherwise : Option Term, (∀ t ∈ otherwise, F n t) →
        Yields T (withLast otherwise) (F (n + 1)) := fun otherwise ho =>
      (yields_expectWord hF.finish _).bind fun _ _ =>
        Yields.pure (hF.caseOf subject arms otherwise hs ha.1 ha.2 ho)
    split
    · refine (yields_advance hF.finish).bind fun _ _ =>
        Yields.bind ((hsub .assignment).map fun t ht => ?_) hlast
      rintro u ⟨⟩
      exact ht
    · exact hlast none (by simp)
  split
  · exact hsubject none (by simp)
  · refine Yields.bind ((hsub .assignment).map fun t ht => ?_) hsubject
    rintro u ⟨⟩
    exact hF.mono ht

theorem yields_name (place : PlacedToken) {name : String} (hname : T (.name name)) :
    Yields T (g.name sub place name) (F (n + 1)) := by
  unfold Grammar.name
  split
  · exact yields_caseBlock hF hsub
  · rename_i hcase
    split
    · exact Yields.fail _ _
    · rename_i hword
      split
      · rename_i v hv
        exact Yields.pure (hF.constant name v hv)
      · rename_i hnone
        exact Yields.pure (hF.var name hname hcase hword hnone)

theorem yields_atom : Yields T (g.atom sub) (F (n + 1)) := by
  refine (yields_advance hF.finish).bind fun place hplace => ?_
  split
  · rename_i name hname
    exact yields_name hF hsub place (hname ▸ hplace)
  · exact Yields.pure (hF.number _)
  · exact Yields.pure (hF.string _)
  · exact Yields.pure (hF.bool _)
  · exact Yields.pure (hF.bool _)
  · exact Yields.pure hF.undefined
  · exact (yields_statements hF hsub).bind fun inner hinner =>
      (yields_expect hF.finish _).bind fun _ _ => Yields.pure hinner
  · split
    · exact (yields_listUntil hF hsub _).map fun items hitems =>
        hF.array items fun t ht => hF.mono (hitems t ht)
    · exact Yields.fail _ _
  · exact Yields.get.bind fun s _ => (yields_fieldsUntil hF hsub _ (by simp)).map
      fun fields hfields => hF.object fields fun field hfield =>
        ⟨(hfields field hfield).1, hF.mono (hfields field hfield).2⟩
  · exact Yields.fail _ _

theorem yields_access {target : Term} (ht : F (n + 1) target) :
    Yields T (g.access sub target) fun next => ∀ t ∈ next, F (n + 1) t := by
  refine (yields_peek hF.finish).bind fun place _ => ?_
  split
  · split
    · refine (yields_advance hF.finish).bind fun _ _ =>
        (yields_advance hF.finish).bind fun second hsecond => ?_
      split
      · rename_i name hname
        refine Yields.pure ?_
        rintro b ⟨⟩
        exact hF.member target second.token name hsecond hname ht
      · exact Yields.fail _ _
    · exact Yields.throw _
  · split
    · refine (yields_advance hF.finish).bind fun _ _ => (hsub _).bind fun key hk =>
        (yields_expect hF.finish _).bind fun _ _ => Yields.pure ?_
      rintro b ⟨⟩
      exact hF.index target key ht (hF.mono hk)
    · exact Yields.throw _
  · refine (yields_advance hF.finish).bind fun _ _ =>
      (yields_listUntil hF hsub _).bind fun arguments ha => Yields.pure ?_
    rintro b ⟨⟩
    exact hF.call target arguments ht fun t hmem => hF.mono (ha t hmem)
  · exact Yields.pure (by simp)

theorem yields_operand : Yields T (g.operand sub) (F (n + 1)) := by
  refine (yields_calledOperator hF).bind fun called _ => ?_
  split
  · refine (yields_advance hF.finish).bind fun _ _ => (yields_atom hF hsub).bind fun inner hinner =>
      Yields.whileSome (fun t ht => yields_access hF hsub ht) ?_
    exact hF.unary _ inner (by simp) hinner
  · exact (yields_atom hF hsub).bind fun t ht =>
      Yields.whileSome (fun t ht => yields_access hF hsub ht) ht

theorem yields_factorial : Yields T (g.factorial sub) (F (n + 1)) := by
  refine (yields_operand hF hsub).bind fun t ht => Yields.whileSome (fun inner hinner => ?_) ht
  refine (yields_peek hF.finish).bind fun place _ => ?_
  split
  · refine (yields_takeOperator hF.finish _ _ _).bind fun _ _ => Yields.pure ?_
    rintro b ⟨⟩
    exact hF.unary _ inner (by simp) hinner
  · exact Yields.pure (by simp)

theorem yields_power : Yields T (g.power sub) (F (n + 1)) := by
  refine (yields_factorial hF hsub).bind fun t ht => Yields.whileSome (fun base hbase => ?_) ht
  refine (yields_peek hF.finish).bind fun place _ => ?_
  split
  · refine (yields_takeOperator hF.finish _ _ _).bind fun _ _ =>
      (hsub _).bind fun exponent he => Yields.pure ?_
    rintro b ⟨⟩
    exact hF.binary _ base exponent (by simp) hbase (hF.mono he)
  · exact Yields.pure (by simp)

theorem yields_factor : Yields T (g.factor sub) (F (n + 1)) := by
  have hunary : ∀ op : UnaryOp, (∀ spelling, op ≠ .unknown spelling) →
      Yields T (.unary op <$> sub .factor) (F (n + 1)) := fun op hop =>
    (hsub .factor).map fun t ht => hF.unary op t hop (hF.mono ht)
  refine (yields_peek hF.finish).bind fun place _ => ?_
  split
  · exact (yields_takeOperator hF.finish _ _ _).bind fun _ _ => hunary _ (by simp)
  · exact (yields_takeOperator hF.finish _ _ _).bind fun _ _ => hunary _ (by simp)
  · split
    · refine (yields_peekSecond hF.finish).bind fun second _ => ?_
      split
      · exact yields_power hF hsub
      · exact (yields_advance hF.finish).bind fun _ _ => hunary _ (by simp)
    · exact yields_power hF hsub
  · exact yields_power hF hsub

theorem yields_comparison : Yields T (g.comparison sub) (F n) := by
  refine yields_chain hF ?_ (yields_chain hF ?_ (yields_chain hF ?_ (yields_chain hF ?_
    (hsub .factor))))
    <;> (intro sign op h; cases sign <;> cases h <;> simp)

theorem yields_disjunction : Yields T (g.disjunction sub) (F (n + 2)) :=
  yields_wordChain hF hF.or (yields_wordChain hF hF.and (yields_comparison hF hsub))

theorem yields_membership : Yields T (g.membership sub) (F (n + 2)) := by
  refine (yields_disjunction hF hsub).bind fun t ht => Yields.whileSome (fun left hl => ?_) ht
  refine (yields_peek hF.finish).bind fun place _ =>
    (yields_membershipWord hF place).bind fun negated _ => ?_
  split
  · exact Yields.pure (by simp)
  · refine (yields_takeOperator hF.finish _ _ _).bind fun _ _ => ?_
    extract_lets test
    have htest : Yields T (test ()) fun next => ∀ t ∈ next, F (n + 2) t := by
      refine (yields_disjunction hF hsub).bind fun right hr => ?_
      have hin : F (n + 2) (.binary .isIn left right) := hF.binary _ left right (by simp) hl hr
      refine Yields.pure ?_
      rintro b ⟨⟩
      split
      · exact hF.unary _ _ (by simp) hin
      · exact hin
    split
    · exact (yields_advance hF.finish).bind fun _ _ => htest
    · exact htest

theorem yields_conditional : Yields T (g.conditional sub) (F (n + 2)) := by
  refine (yields_membership hF hsub).bind fun condition hc =>
    (yields_peek hF.finish).bind fun place _ => ?_
  split
  · exact (yields_takeOperator hF.finish _ _ _).bind fun _ _ => (hsub _).bind fun yes hy =>
      (yields_expect hF.finish _).bind fun _ _ => (hsub _).bind fun no hn =>
        Yields.pure (hF.choose condition yes no hc hy hn)
  · exact Yields.pure hc

theorem yields_assignment : Yields T (g.assignment sub) (F (n + 1)) := by
  refine (hsub _).bind fun left hl => (yields_peek hF.finish).bind fun place _ => ?_
  split
  · refine (yields_takeOperator hF.finish _ _ _).bind fun _ _ => ?_
    split
    · split
      · split
        · rename_i callee arguments _ _ _ name params hname hparams
          exact (hsub _).map fun body hb =>
            hF.define callee arguments name params body hname hparams hl hb
        · exact Yields.fail _ _
      · exact Yields.fail _ _
    · split
      · rename_i root path hpath
        exact (hsub _).map fun value hv => hF.assign left root path value hpath hl hv
      · exact Yields.fail _ _
  · exact Yields.pure hl

end

section
variable {T : Token → Prop} {F : Nat → Term → Prop} {g : Grammar} (hF : g.Keeps T F)
include hF

theorem yields_level (depth : Nat) (l : Level) :
    Yields T (g.level depth l) (F (l.bound depth)) := by
  induction depth generalizing l with
  | zero => exact (yields_peek hF.finish).bind fun place _ => Yields.fail _ _
  | succ depth ih =>
    cases l with
    | assignment => exact yields_assignment hF ih
    | conditional => exact yields_conditional hF ih
    | factor => exact yields_factor hF ih

theorem yields_whole : Yields T g.whole (F (g.options.maxDepth + 1)) := by
  refine (yields_statements hF (yields_level hF _)).bind fun t ht =>
    (yields_peek hF.finish).bind fun place _ => ?_
  split
  · exact Yields.pure ht
  · exact Yields.fail _ _

end
end Grammar

/-- **What the constructs of the grammar keep holds of every parsed term**, if it can be shown of
them on the tokens of the text. -/
theorem Term.of_parse {T : Token → Prop} {F : Nat → Term → Prop} {options : Options}
    {constants : Dict Value} {source : String} {t : Term}
    (hF : (Grammar.mk options constants (finishOf source.toList)).Keeps T F)
    (htokens : Grammar.Holds T (lexemes source.toList))
    (h : Term.parse options constants source = .ok t) : F (options.maxDepth + 1) t := by
  unfold Term.parse at h
  dsimp only at h
  split at h
  · rename_i term rest hrun
    obtain rfl := Except.ok.inj h
    exact (Grammar.yields_whole hF _ htokens _ _ hrun).1
  · cases h

/-! ## Programs that fit -/

section
variable (P : Value → Prop)

mutual

/-- Operators exist, keys are not protected, and literals satisfy `P`, at every depth. -/
def Instr.Fits : Instr → Prop
  | .literal v => P v
  | .unary op => ∀ spelling, op ≠ .unknown spelling
  | .binary op => ∀ spelling, op ≠ .unknown spelling
  | .unknownTernary _ => False
  | .sub body => Program.Fits body
  | .property key => isProtected key = false
  | _ => True

/-- Every instruction fits. -/
def Program.Fits : List Instr → Prop
  | [] => True
  | instr :: rest => instr.Fits ∧ Program.Fits rest

end

/-- The code of the term fits. -/
def Term.Fits (t : Term) : Prop := Program.Fits P t.code

variable {P}

attribute [local simp] Instr.Fits Term.Fits

@[simp] theorem fits_nil : Program.Fits P [] := trivial

@[simp] theorem fits_cons {instr : Instr} {rest : Program} :
    Program.Fits P (instr :: rest) ↔ instr.Fits P ∧ Program.Fits P rest := Iff.rfl

@[simp] theorem fits_append {front back : Program} :
    Program.Fits P (front ++ back) ↔ Program.Fits P front ∧ Program.Fits P back := by
  induction front with
  | nil => simp
  | cons instr front ih => simp [ih, and_assoc]

@[simp] theorem fits_names (names : List String) : Program.Fits P (names.map .name) := by
  induction names with
  | nil => trivial
  | cons name names ih => exact ⟨trivial, ih⟩

@[simp] theorem fits_operandsCode {terms : List Term} :
    Program.Fits P (operandsCode terms) ↔ ∀ t ∈ terms, t.Fits P := by
  induction terms with
  | nil => simp [operandsCode]
  | cons t terms ih => simp [operandsCode, ih]

@[simp] theorem fits_statementsCode {terms : List Term} :
    Program.Fits P (statementsCode terms) ↔ ∀ t ∈ terms, t.Fits P := by
  induction terms with
  | nil => simp [statementsCode]
  | cons t terms ih => simp [statementsCode, ih]

@[simp] theorem fits_fieldsCode {fields : List (String × Term)} :
    Program.Fits P (fieldsCode fields)
      ↔ ∀ field ∈ fields, isProtected field.1 = false ∧ field.2.Fits P := by
  induction fields with
  | nil => simp [fieldsCode]
  | cons field fields ih =>
    obtain ⟨key, t⟩ := field
    simp [fieldsCode, ih, and_assoc]

@[simp] theorem fits_armsCode {arms : List (Term × Term)} :
    Program.Fits P (armsCode arms) ↔ ∀ arm ∈ arms, arm.1.Fits P ∧ arm.2.Fits P := by
  induction arms with
  | nil => simp [armsCode]
  | cons arm arms ih =>
    obtain ⟨condition, result⟩ := arm
    simp [armsCode, ih, and_assoc]

@[simp] theorem fits_subjectCode {subject : Option Term} :
    Program.Fits P (subjectCode subject) ↔ ∀ t ∈ subject, t.Fits P := by
  cases subject <;> simp [subjectCode]

@[simp] theorem fits_otherwiseCode {otherwise : Option Term} :
    Program.Fits P (otherwiseCode otherwise) ↔ ∀ t ∈ otherwise, t.Fits P := by
  cases otherwise <;> simp [otherwiseCode]

theorem fits_unary {op : UnaryOp} {t : Term} (hop : ∀ spelling, op ≠ .unknown spelling)
    (h : t.Fits P) : (Term.unary op t).Fits P := by
  rw [Term.Fits] at h
  simpa [Term.code, h] using hop

theorem fits_binary {op : BinaryOp} {l r : Term} (hop : ∀ spelling, op ≠ .unknown spelling)
    (hl : l.Fits P) (hr : r.Fits P) : (Term.binary op l r).Fits P := by
  rw [Term.Fits] at hl hr
  simpa [Term.code, hl, hr] using hop

/-- The parts of a term that fits fit. -/
theorem Term.Fits.child {t child : Term} (h : t.Fits P) (hc : child ∈ t.children) :
    child.Fits P := by
  cases t <;> simp only [Term.Fits, Term.code, fits_append, fits_cons, fits_nil, fits_operandsCode,
    fits_armsCode, fits_subjectCode, fits_otherwiseCode, fits_fieldsCode, fits_statementsCode,
    Instr.Fits, Term.children, and_true, true_and] at h hc ⊢ <;> grind [Term.Fits]

theorem Term.Fits.within {s t : Term} (hs : Term.Within s t) (h : t.Fits P) : s.Fits P := by
  induction hs with
  | self => exact h
  | deeper hc _ ih => exact ih (h.child hc)

theorem fits_keeps {g : Grammar} (number : ∀ x, P (.number x)) (string : ∀ s, P (.string s))
    (bool : ∀ b, P (.bool b)) (constant : ∀ n v, g.constants.get? n = some v → P v) :
    g.Keeps (fun _ => True) (fun _ => Term.Fits P) where
  finish := trivial
  mono := id
  number x := ⟨number x, trivial⟩
  string s := ⟨string s, trivial⟩
  bool b := ⟨bool b, trivial⟩
  undefined := ⟨trivial, trivial⟩
  constant n v h := ⟨constant n v h, trivial⟩
  var _ _ _ _ _ := ⟨trivial, trivial⟩
  unary op t hop ht := fits_unary hop ht
  binary op l r hop hl hr := fits_binary hop hl hr
  and l r hl hr := by
    rw [Term.Fits] at hl hr
    simp [Term.code, hl, hr]
  or l r hl hr := by
    rw [Term.Fits] at hl hr
    simp [Term.code, hl, hr]
  choose condition yes no hc hy hn := by
    rw [Term.Fits] at hc hy hn
    simp [Term.code, hc, hy, hn]
  caseOf subject arms otherwise hs _ ha ho := by
    simp only [Term.Fits, Term.code, fits_append, fits_subjectCode, fits_armsCode,
      fits_otherwiseCode]
    exact ⟨⟨⟨hs, ha⟩, ho⟩, trivial, trivial⟩
  member target k n _ _ ht := by
    rw [Term.Fits] at ht
    simp [Term.code, ht]
  index target key ht hk := by
    rw [Term.Fits] at ht hk
    simp [Term.code, ht, hk]
  call callee arguments hc ha := by
    rw [Term.Fits] at hc
    simpa [Term.code, hc] using ha
  array items h := by simpa [Term.code] using h
  object fields h := by simpa [Term.code] using h
  assign target root path value _ _ hv := by
    rw [Term.Fits] at hv
    simp [Term.code, hv]
  define callee arguments name params body _ _ _ hb := by
    rw [Term.Fits] at hb
    simp [Term.code, hb]
  sequence first rest hfirst hrest := by
    rw [Term.Fits] at hfirst
    simpa [Term.code, hfirst] using hrest

end

/-- **The code of a parsed term fits**: all its operators exist, none of its keys is protected, and
its literals are numbers, texts, truth values and constants. -/
theorem fits_of_parse {P : Value → Prop} {options : Options} {constants : Dict Value}
    {source : String} {t : Term} (number : ∀ x, P (.number x)) (string : ∀ s, P (.string s))
    (bool : ∀ b, P (.bool b)) (constant : ∀ n v, constants.get? n = some v → P v)
    (h : Term.parse options constants source = .ok t) : t.Fits P :=
  Term.of_parse (fits_keeps number string bool constant) (fun _ _ => trivial) h

end Formula
