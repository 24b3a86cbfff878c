import Formula.Proofs.Pairing
import Formula.Proofs.Blocks

/-! # The readers of the grammar side by side

Pairs of readers that correspond, reader by reader: if the readers of the next depth answer the same
on pieces that correspond, so do those built from them, up to whole levels (`pairs_level`).

Statements are the one construct for which a semicolon behind the left text makes a difference.
There the left reading stops at its end; between parentheses it fails then, since none closes.
-/
namespace Formula
namespace Grammar

open Pairing

/-- A statement link in two steps: the semicolon, and what stands behind it. -/
theorem statementLink_eq (g : Grammar) (sub : Level → Reader Term) (found : List Term) :
    g.statementLink sub (found, false) = (do
      let t ← g.peek
      if t.token = .semicolon then
        let _ ← g.advance
        let t ← g.peek
        if t.token = .finish ∨ t.token = .bracket .roundClose then pure (some (found, true))
        else
          let statement ← sub .assignment
          pure (some (found ++ [statement], false))
      else pure none) := by
  unfold statementLink accept
  rw [if_neg Bool.false_ne_true, bind_assoc]
  refine congrArg (g.peek >>= ·) (funext fun t => ?_)
  split
  · rw [bind_assoc]
    rfl
  · rfl


/-- Nothing is read behind the last semicolon. -/
theorem iterate_ended (g : Grammar) (sub : Level → Reader Term) (found : List Term) (rounds : Nat)
    (s : List Lexeme) :
    iterate (g.statementLink sub) rounds (found, true) s = .ok ((found, true), s) := by
  cases rounds <;> rfl

section
variable {J : Pairing} {g g' : Grammar} (hJ : J.Sound g g')

theorem Pairing.Pairs.rounds {α : Type} {m m' : Reader α} {step step' : α → Reader (Option α)}
    (hm : J.Pairs m m') (hstep : J.Steps Eq step step') :
    J.Pairs (m >>= whileSome step) (m' >>= whileSome step') := fun s s' hs =>
  (hm s s' hs).bind fun _ _ _ _ hab _ hr => .whileSome hstep hab hr

theorem Pairing.Pairs.map {α β : Type} {m m' : Reader α} (hm : J.Pairs m m') (f : α → β) :
    J.Pairs (f <$> m) (f <$> m') := fun s s' hs =>
  (hm s s' hs).map fun _ _ _ h => congrArg f h

include hJ

/-- The operand behind an operator that has been seen, and what is made of both. -/
theorem agrees_joined {t t' : PlacedToken} {rest rest' : List Lexeme} (ht : J.Matches t t')
    (hrest : J.Continues rest rest') (symbol : String) (fixity : Fixity)
    {operand operand' : Reader Term} (hoperand : J.Pairs operand operand') (join : Term → Term) :
    J.Agrees (.token t :: rest) (.token t' :: rest')
      (fun x r y => Option.Rel Eq x y ∧
        (x.isSome = true → r.length < (Lexeme.token t :: rest).length))
      (do
        g.takeOperator t symbol fixity
        let right ← operand
        pure (some (join right)))
      (do
        g'.takeOperator t' symbol fixity
        let right ← operand'
        pure (some (join right))) := by
  refine (Agrees.takeOperator hJ ht hrest _ _).bind fun _ _ r r' h _ hr => ?_
  refine (hoperand r r' hr).bind fun right _ q q' hright hq hq' => .pure hq' ?_
  subst h hright
  exact ⟨.some rfl, fun _ => Nat.lt_succ_of_le hq.length_le⟩

theorem pairs_chain (op? : Sign → Option BinaryOp) {operand operand' : Reader Term}
    (h : J.Pairs operand operand') : J.Pairs (g.chain op? operand) (g'.chain op? operand') := by
  refine h.rounds ?_
  rintro left _ rfl s s' hs
  refine Agrees.peek hJ hs fun t t' hnext => ?_
  cases hnext with
  | @token _ _ rest rest' ht hrest =>
    rw [ht.token]
    cases t'.token with
    | sign sign =>
      dsimp only
      cases op? sign with
      | none => exact .pure hs ⟨.none, nofun⟩
      | some op => exact agrees_joined hJ ht hrest _ _ h _
    | _ => exact .pure hs ⟨.none, nofun⟩
  | finish h =>
    obtain ⟨hleft, hright | hright⟩ := h.tokens <;> rw [hleft, hright] <;>
      exact .pure hs ⟨.none, nofun⟩

theorem pairs_wordChain (word : String) (join : Term → Term → Term) {operand operand' : Reader Term}
    (h : J.Pairs operand operand') :
    J.Pairs (g.wordChain word join operand) (g'.wordChain word join operand') := by
  refine h.rounds ?_
  rintro left _ rfl s s' hs
  refine Agrees.peek hJ hs fun t t' hnext => ?_
  cases hnext with
  | token ht hrest =>
    rw [ht.token]
    split
    · exact agrees_joined hJ ht hrest _ _ h _
    · exact .pure hs ⟨.none, nofun⟩
  | finish h =>
    obtain ⟨hleft, hright⟩ := h.ne (k := .name word) nofun nofun
    rw [if_neg hleft, if_neg hright]
    exact .pure hs ⟨.none, nofun⟩

/-- If an operator is called, there is a token to take. -/
theorem agrees_calledOperator {s s' : List Lexeme} (hs : J.Continues s s') :
    J.Agrees s s' (fun a r b => a = b ∧ (a.isSome = true → r ≠ [])) g.calledOperator?
      g'.calledOperator? := by
  refine Agrees.peek hJ hs fun t t' hnext => ?_
  cases hnext with
  | token ht hrest =>
    rw [ht.token]
    cases t'.token with
    | name n =>
      dsimp only
      rw [hJ.namedOp]
      cases g'.options.namedOp? n with
      | none => exact .pure hs ⟨rfl, nofun⟩
      | some op =>
        refine Agrees.peekSecond hJ hrest fun u u' hsecond => .pure hs ⟨?_, fun _ => by simp⟩
        cases hsecond with
        | token hu _ => rw [hu.token]
        | finish h =>
          obtain ⟨hleft, hright⟩ := h.ne (k := .bracket .roundOpen) nofun nofun
          rw [if_neg hleft, if_neg hright]
    | _ => exact .pure hs ⟨rfl, nofun⟩
  | finish h =>
    obtain ⟨hleft, hright | hright⟩ := h.tokens <;> rw [hleft, hright] <;>
      exact .pure hs ⟨rfl, nofun⟩

variable {sub sub' : Level → Reader Term} (hsub : ∀ level, J.Pairs (sub level) (sub' level))
include hsub

theorem pairs_listUntil {k : Token} (hfinish : k ≠ .finish) (hsemicolon : k ≠ .semicolon) :
    J.Pairs (g.listUntil sub k) (g'.listUntil sub' k) := by
  intro s s' hs
  have hlink : J.Steps Eq (g.listLink sub) (g'.listLink sub') := by
    rintro items _ rfl s s' hs
    refine (Agrees.accept (k := .comma) hJ hs nofun nofun).bind fun more _ r r' h hr hs' => ?_
    obtain ⟨rfl, hshorter⟩ := h
    split
    · rename_i hmore
      refine (hsub _ r r' hs').bind fun item _ q q' hitem hq hs'' => .pure hs'' ?_
      subst hitem
      exact ⟨.some rfl, fun _ => Nat.lt_of_le_of_lt hq.length_le (hshorter hmore)⟩
    · exact .pure hs' ⟨.none, nofun⟩
  refine (Agrees.accept hJ hs hfinish hsemicolon).bind fun empty _ r r' h _ hr => ?_
  obtain ⟨rfl, -⟩ := h
  split
  · exact .pure hr rfl
  · refine (hsub _ r r' hr).bind fun first _ q q' hfirst _ hq => ?_
    subst hfirst
    refine (Agrees.whileSome hlink rfl hq).bind fun items _ p p' hitems _ hp => ?_
    subst hitems
    exact (Agrees.expect hJ hp hfinish hsemicolon).bind fun _ _ _ _ _ _ ho => .pure ho rfl

theorem agrees_fieldsUntil {rounds rounds' : Nat} (fields : List (String × Term))
    {s s' : List Lexeme} (hs : J.Continues s s') (hrounds : s.length < rounds)
    (hrounds' : s'.length < rounds') :
    J.Agrees s s' (fun a _ b => a = b) (g.fieldsUntil sub rounds fields)
      (g'.fieldsUntil sub' rounds' fields) := by
  induction rounds generalizing rounds' s s' fields with
  | zero => omega
  | succ rounds ih =>
    obtain ⟨rounds', rfl⟩ := Nat.exists_eq_add_of_lt hrounds'
    refine (Agrees.accept (k := .bracket .curlyClose) hJ hs nofun nofun).bind
      fun closed _ r r' h hr hs' => ?_
    obtain ⟨rfl, -⟩ := h
    split
    · exact .pure hs' rfl
    · refine Agrees.take hJ hs' (fun t t' rest rest' hrest ht hs' => ?_) fun t t' r' _ h => ?_
      · rw [ht.token]
        cases keyOf? t'.token with
        | none => exact ht.fail _
        | some key =>
          dsimp only
          split
          · exact (Agrees.throw (Q := fun _ _ _ => False) (ht.failures _)
              (.access _ _)).bind fun _ _ _ _ h => h.elim
          · refine (Agrees.expect (k := .sign .colon) hJ hs' nofun nofun).bind
              fun _ _ q q' hq _ hs' => ?_
            refine (hsub _ q q' hs').bind fun value _ p p' hvalue hp hs' => ?_
            subst hvalue
            refine (Agrees.accept (k := .comma) hJ hs' nofun nofun).bind
              fun more _ o o' h ho hs' => ?_
            obtain ⟨rfl, -⟩ := h
            split
            · have hshorter : o.length < s.length := by
                have hle := hr.length_le
                rw [hrest, List.length_cons] at hle
                have hle' := ho.length_le
                have hle'' := hp.length_le
                omega
              have hlength := hs.length_eq
              have hlength' := hs'.length_eq
              exact ih _ hs' (by omega) (by omega)
            · exact (Agrees.expect (k := .bracket .curlyClose) hJ hs' nofun nofun).bind
                fun _ _ _ _ _ _ hs' => .pure hs' rfl
      · obtain ⟨hleft, hright⟩ := h.both (P := fun k => keyOf? k = none) rfl rfl
        rw [hleft, hright]
        exact h.fail .expectedKey


/-- A round of statements, where `front` has been read before on the right alone.  At the end of the
left text no statement is read. -/
theorem statementLink_orStops (front : List Term) (found : List Term × Bool) {s s' : List Lexeme}
    (hs : J.Continues s s') :
    J.AgreesOrStops s s' (fun x => ∀ rest, x ≠ some (rest, false))
      (fun x r y => Option.Rel (fun a b => b = (front ++ a.1, a.2)) x y ∧
        (x.isSome = true → r.length < s.length))
      (g.statementLink sub found) (g'.statementLink sub' (front ++ found.1, found.2)) := by
  obtain ⟨found, _ | _⟩ := found
  · rw [statementLink_eq, statementLink_eq]
    refine .peek hJ hs fun t t' hnext => ?_
    cases hnext with
    | token ht hrest =>
      rw [ht.token]
      split
      · refine (Agrees.advance hrest).bind_orStops fun _ _ r r' h _ hr => ?_
        obtain ⟨-, rfl, -⟩ := h
        refine .peek hJ hr fun u u' hsecond => ?_
        cases hsecond with
        | token hu _ =>
          rw [hu.token]
          left
          split
          · exact .pure hr ⟨.some rfl, fun _ => Nat.lt_succ_self _⟩
          · refine (hsub _ _ _ hr).bind fun statement _ q q' h hq hq' => .pure hq' ?_
            subst h
            exact ⟨.some (by simp), fun _ => Nat.lt_succ_of_le hq.length_le⟩
        | finish h _ =>
          rw [if_pos (.inl h.finish)]
          rcases h.right with hsame | ⟨-, hexcused⟩
          · rw [if_pos (.inl (hsame.token ▸ h.finish))]
            exact .inl (.pure hr ⟨.some rfl, fun _ => Nat.lt_succ_self _⟩)
          · exact .inr ⟨hexcused, some (found, true), by simp, rfl⟩
      · exact .inl (.pure hs ⟨.none, nofun⟩)
    | finish h _ =>
      rw [if_neg (by rw [h.finish]; nofun)]
      rcases h.right with hsame | ⟨-, hexcused⟩
      · rw [if_neg (by rw [← hsame.token, h.finish]; nofun)]
        exact .inl (.pure hs ⟨.none, nofun⟩)
      · exact .inr ⟨hexcused, none, nofun, rfl⟩
  · exact .inl (.pure hs ⟨.none, nofun⟩)

/-- Rounds of statements, where `front` has been read before on the right alone. -/
theorem iterate_statements_orStops (front : List Term) (found : List Term × Bool)
    {rounds rounds' : Nat} {s s' : List Lexeme} (hs : J.Continues s s')
    (hrounds : s.length < rounds) (hrounds' : s'.length < rounds') :
    J.AgreesOrStops s s' (fun _ => True) (fun a _ b => b = (front ++ a.1, a.2))
      (iterate (g.statementLink sub) rounds found)
      (iterate (g'.statementLink sub') rounds' (front ++ found.1, found.2)) := by
  have hiterate : J.AgreesOrStops s s' _ _ (iterate (g.statementLink sub) rounds found)
      (iterate (g'.statementLink sub') rounds' (front ++ found.1, found.2)) :=
    .iterate (F := fun a b => b = (front ++ a.1, a.2))
      (fun a b hab s s' hs => hab ▸ statementLink_orStops hJ hsub front a hs)
      (fun next hnext rounds => ?_) rfl hs hrounds hrounds'
  · exact hiterate.imp id fun ⟨hexcused, a, _, hrun⟩ => ⟨hexcused, a, trivial, hrun⟩
  · obtain ⟨rest, ended⟩ := next
    cases ended with
    | false => exact absurd rfl (hnext rest)
    | true => exact ⟨_, iterate_ended g sub rest rounds []⟩

theorem statements_orStops {s s' : List Lexeme} (hs : J.Continues s s') :
    J.AgreesOrStops s s' (fun _ => True) (fun a _ b => a = b) (g.statements sub)
      (g'.statements sub') := by
  rw [statements_eq, statements_eq]
  refine (hsub _ s s' hs).bind_orStops fun first _ r r' h _ hr => ?_
  subst h
  refine .peek hJ hr fun t t' hnext => ?_
  cases hnext with
  | token ht hrest =>
    rw [ht.token]
    split
    · have hfound : J.AgreesOrStops _ _ _ _ (whileSome (g.statementLink sub) ([], false))
          (whileSome (g'.statementLink sub') ([], false)) :=
        iterate_statements_orStops hJ hsub [] ([], false) hr (Nat.lt_succ_self _)
          (Nat.lt_succ_self _)
      exact hfound.map fun a _ b hab => by rw [hab, List.nil_append]
    · exact .inl (.pure hr rfl)
  | finish h _ =>
    rw [if_neg (by rw [h.finish]; nofun)]
    rcases h.right with hsame | ⟨-, hexcused⟩
    · rw [if_neg (by rw [← hsame.token, h.finish]; nofun)]
      exact .inl (.pure hr rfl)
    · exact .inr ⟨hexcused, first, trivial, rfl⟩

theorem pairs_arms : J.Pairs (g.arms sub) (g'.arms sub') := by
  intro s s' hs
  refine Agrees.whileSome (F := Eq) ?_ rfl hs
  rintro found _ rfl s s' hs
  refine Agrees.peek hJ hs fun t t' hnext => ?_
  cases hnext with
  | @token _ _ rest _ ht hrest =>
    rw [ht.token]
    split
    · refine (Agrees.advance hrest).bind fun _ _ r r' h _ hr => ?_
      refine (hsub _ r r' hr).bind fun condition _ q q' hcondition hq hs' => ?_
      refine (Agrees.expectWord hJ hs' _).bind fun _ _ p p' hp _ hs' => ?_
      refine (hsub _ p p' hs').bind fun result _ o o' hresult ho hs' => .pure hs' ?_
      obtain ⟨-, rfl, -⟩ := h
      subst hcondition hresult
      have hle := hq.length_le
      have hle' := ho.length_le
      exact ⟨.some rfl, fun _ => by rw [List.length_cons]; omega⟩
    · split
      · exact ht.fail _
      · exact .pure hs ⟨.none, nofun⟩
  | finish h _ =>
    obtain ⟨hleft, hright⟩ := h.ne (k := .name "when") nofun nofun
    rw [if_neg hleft, if_neg hright]
    split
    · exact h.fail (.expectedWord "when")
    · exact .pure hs ⟨.none, nofun⟩

theorem pairs_caseBlock : J.Pairs (g.caseBlock sub) (g'.caseBlock sub') := by
  intro s s' hs
  refine Agrees.peek hJ hs fun t t' hnext => ?_
  extract_lets withSubject withSubject'
  have hsubject : ∀ subject, J.Pairs (withSubject subject) (withSubject' subject) := by
    intro subject s s' hs
    refine (pairs_arms hJ hsub s s' hs).bind fun arms _ r r' harms _ hr => ?_
    subst harms
    refine Agrees.peek hJ hr fun t t' hnext => ?_
    extract_lets withLast withLast'
    have hlast : ∀ otherwise, J.Pairs (withLast otherwise) (withLast' otherwise) :=
      fun otherwise s s' hs => (Agrees.expectWord hJ hs _).bind fun _ _ _ _ _ _ hr => .pure hr rfl
    have hsome : J.Pairs (some <$> sub .assignment >>= withLast)
        (some <$> sub' .assignment >>= withLast') := fun s s' hs =>
      ((hsub _).map some s s' hs).bind fun a b r r' hab _ hr => hab ▸ hlast a r r' hr
    cases hnext with
    | token ht hrest =>
      rw [ht.token]
      split
      · refine (Agrees.advance hrest).bind fun _ _ r r' h _ hr => ?_
        exact hsome r r' hr
      · exact hlast none _ _ hr
    | finish h _ =>
      obtain ⟨hleft, hright⟩ := h.ne (k := .name "else") nofun nofun
      rw [if_neg hleft, if_neg hright]
      exact hlast none _ _ hr
  have hsome : J.Pairs (some <$> sub .assignment >>= withSubject)
      (some <$> sub' .assignment >>= withSubject') := fun s s' hs =>
    ((hsub _).map some s s' hs).bind fun a b r r' hab _ hr => hab ▸ hsubject a r r' hr
  cases hnext with
  | token ht hrest =>
    rw [ht.token]
    split
    · exact hsubject none _ _ hs
    · exact hsome _ _ hs
  | finish h _ =>
    obtain ⟨hleft, hright⟩ := h.ne (k := .name "when") nofun nofun
    rw [if_neg hleft, if_neg hright]
    exact hsome _ _ hs

theorem agrees_name {t t' : PlacedToken} (ht : J.Matches t t') (n : String) :
    J.Pairs (g.name sub t n) (g'.name sub' t' n) := by
  intro s s' hs
  unfold Grammar.name
  rw [hJ.conditional, hJ.constants]
  split
  · exact pairs_caseBlock hJ hsub s s' hs
  · split
    · exact ht.fail _
    · split <;> exact .pure hs rfl

theorem pairs_atom : J.Pairs (g.atom sub) (g'.atom sub') := by
  intro s s' hs
  refine Agrees.take hJ hs (fun t t' rest rest' _ ht hr => ?_) fun t t' r' _ h => ?_
  · rw [ht.token]
    cases t'.token with
    | name n => exact agrees_name hJ hsub ht n rest rest' hr
    | number x => exact .pure hr rfl
    | string x => exact .pure hr rfl
    | keyword k => cases k <;> exact .pure hr rfl
    | bracket b =>
      cases b with
      | roundOpen => exact (statements_orStops hJ hsub hr).expect hJ nofun nofun
      | squareOpen =>
        dsimp only
        rw [hJ.array]
        split
        · exact (pairs_listUntil hJ hsub (k := .bracket .squareClose) nofun nofun).map _
            rest rest' hr
        · exact ht.fail _
      | curlyOpen =>
        exact (agrees_fieldsUntil hJ hsub [] hr (Nat.lt_succ_self _) (Nat.lt_succ_self _)).map
          fun _ _ _ h => congrArg Term.object h
      | _ => exact ht.fail _
    | _ => exact ht.fail _
  · have hfail : J.Agrees [] r' (fun (a : Term) _ b => a = b) _ _ := h.fail .unexpected
    obtain ⟨hleft, hright | hright⟩ := h.tokens <;> rw [hleft, hright] at hfail ⊢ <;> exact hfail

theorem steps_access : J.Steps Eq (g.access sub) (g'.access sub') := by
  rintro target _ rfl s s' hs
  refine Agrees.peek hJ hs fun t t' hnext => ?_
  cases hnext with
  | @token _ _ rest rest' ht hrest =>
    rw [ht.token]
    cases t'.token with
    | sign sign =>
      cases sign with
      | dot =>
        dsimp only
        rw [hJ.member]
        split
        · refine (Agrees.advance hrest).bind fun _ _ r r' h _ hr => ?_
          obtain ⟨-, rfl, -⟩ := h
          refine Agrees.take hJ hr (fun u u' q q' hq hu hs' => ?_) fun u u' q' _ h => ?_
          · rw [hu.token]
            cases memberName? u'.token with
            | none => exact hu.fail _
            | some name =>
              refine .pure hs' ⟨.some rfl, fun _ => ?_⟩
              rw [hq, List.length_cons, List.length_cons]
              omega
          · obtain ⟨hleft, hright⟩ := h.both (P := fun k => memberName? k = none) rfl rfl
            rw [hleft, hright]
            exact h.fail .unexpected
        · exact .throw (ht.failures _) (.access _ _)
      | _ => exact .pure hs ⟨.none, nofun⟩
    | bracket b =>
      cases b with
      | squareOpen =>
        dsimp only
        rw [hJ.member]
        split
        · refine (Agrees.advance hrest).bind fun _ _ r r' h _ hr => ?_
          refine (hsub _ r r' hr).bind fun key _ q q' hkey hq hs' => ?_
          refine (Agrees.expect (k := .bracket .squareClose) hJ hs' nofun nofun).bind
            fun _ _ p p' hp _ hs' => .pure hs' ?_
          obtain ⟨-, rfl, -⟩ := h
          subst hkey
          have hle := hq.length_le
          exact ⟨.some rfl, fun _ => by rw [List.length_cons]; omega⟩
        · exact .throw (ht.failures _) (.access _ _)
      | roundOpen =>
        refine (Agrees.advance hrest).bind fun _ _ r r' h _ hr => ?_
        refine (pairs_listUntil (k := .bracket .roundClose) hJ hsub nofun nofun r r' hr).bind
          fun arguments _ q q' harguments hq hs' => .pure hs' ?_
        obtain ⟨-, rfl, -⟩ := h
        subst harguments
        exact ⟨.some rfl, fun _ => Nat.lt_succ_of_le hq.length_le⟩
      | _ => exact .pure hs ⟨.none, nofun⟩
    | _ => exact .pure hs ⟨.none, nofun⟩
  | finish h =>
    obtain ⟨hleft, hright | hright⟩ := h.tokens <;> rw [hleft, hright] <;>
      exact .pure hs ⟨.none, nofun⟩

theorem pairs_operand : J.Pairs (g.operand sub) (g'.operand sub') := by
  intro s s' hs
  refine (agrees_calledOperator hJ hs).bind fun called _ r r' h _ hr => ?_
  obtain ⟨rfl, hmore⟩ := h
  cases called with
  | none => exact (pairs_atom hJ hsub).rounds (steps_access hJ hsub) r r' hr
  | some op =>
    refine Agrees.take hJ hr (fun _ _ rest rest' _ _ hrest => ?_) fun _ _ _ hnil _ => ?_
    · refine (pairs_atom hJ hsub rest rest' hrest).bind fun inner _ q q' h _ hq => ?_
      subst h
      exact .whileSome (steps_access hJ hsub) rfl hq
    · exact absurd hnil (hmore rfl)

theorem pairs_factorial : J.Pairs (g.factorial sub) (g'.factorial sub') := by
  refine (pairs_operand hJ hsub).rounds ?_
  rintro inner _ rfl s s' hs
  refine Agrees.peek hJ hs fun t t' hnext => ?_
  cases hnext with
  | token ht hrest =>
    rw [ht.token]
    split
    · refine (Agrees.takeOperator hJ ht hrest _ _).bind fun _ _ r r' h _ hr => .pure hr ?_
      exact ⟨.some rfl, fun _ => h ▸ Nat.lt_succ_self _⟩
    · exact .pure hs ⟨.none, nofun⟩
  | finish h =>
    obtain ⟨hleft, hright⟩ := h.ne (k := .sign .bang) nofun nofun
    rw [if_neg hleft, if_neg hright]
    exact .pure hs ⟨.none, nofun⟩

theorem pairs_power : J.Pairs (g.power sub) (g'.power sub') := by
  refine (pairs_factorial hJ hsub).rounds ?_
  rintro base _ rfl s s' hs
  refine Agrees.peek hJ hs fun t t' hnext => ?_
  cases hnext with
  | token ht hrest =>
    rw [ht.token]
    split
    · exact agrees_joined hJ ht hrest _ _ (hsub _) _
    · exact .pure hs ⟨.none, nofun⟩
  | finish h =>
    obtain ⟨hleft, hright⟩ := h.ne (k := .sign .caret) nofun nofun
    rw [if_neg hleft, if_neg hright]
    exact .pure hs ⟨.none, nofun⟩

theorem pairs_factor : J.Pairs (g.factor sub) (g'.factor sub') := by
  intro s s' hs
  have hpower := pairs_power hJ hsub s s' hs
  refine Agrees.peek hJ hs fun t t' hnext => ?_
  cases hnext with
  | @token _ _ rest rest' ht hrest =>
    have hunary : ∀ (op : UnaryOp) r r', J.Continues r r' →
        J.Agrees r r' (fun a _ b => a = b) (Term.unary op <$> sub .factor)
          (Term.unary op <$> sub' .factor) := fun op => (hsub .factor).map _
    rw [ht.token]
    cases t'.token with
    | sign sign =>
      cases sign with
      | minus => exact (Agrees.takeOperator hJ ht hrest _ _).bind fun _ _ r r' _ _ => hunary _ r r'
      | plus => exact (Agrees.takeOperator hJ ht hrest _ _).bind fun _ _ r r' _ _ => hunary _ r r'
      | _ => exact hpower
    | name n =>
      dsimp only
      rw [hJ.namedOp]
      cases g'.options.namedOp? n with
      | none => exact hpower
      | some op =>
        refine Agrees.peekSecond hJ hrest fun u u' hsecond => ?_
        have hends : endsName u.token = endsName u'.token := by
          cases hsecond with
          | token hu _ => rw [hu.token]
          | finish h =>
            obtain ⟨hleft, hright⟩ := h.both (P := fun k => endsName k = true) rfl rfl
            rw [hleft, hright]
        rw [hends]
        split
        · exact hpower
        · exact (Agrees.advance hrest).bind fun _ _ r r' _ _ => hunary _ r r'
    | _ => exact hpower
  | finish h =>
    obtain ⟨hleft, hright | hright⟩ := h.tokens <;> rw [hleft, hright] <;> exact hpower

theorem pairs_comparison : J.Pairs (g.comparison sub) (g'.comparison sub') :=
  pairs_chain hJ _ (pairs_chain hJ _ (pairs_chain hJ _ (pairs_chain hJ _ (hsub .factor))))

theorem pairs_disjunction : J.Pairs (g.disjunction sub) (g'.disjunction sub') :=
  pairs_wordChain hJ _ _ (pairs_wordChain hJ _ _ (pairs_comparison hJ hsub))

theorem pairs_membership : J.Pairs (g.membership sub) (g'.membership sub') := by
  have hdisjunction := pairs_disjunction hJ hsub
  refine hdisjunction.rounds ?_
  rintro left _ rfl s s' hs
  refine Agrees.peek hJ hs fun t t' hnext => ?_
  cases hnext with
  | @token _ _ rest rest' ht hrest =>
    unfold membershipWord?
    rw [ht.token]
    split
    · exact agrees_joined hJ ht hrest "in" .between hdisjunction (.binary .isIn left)
    · split
      · rw [bind_assoc, bind_assoc]
        refine Agrees.peekSecond hJ hrest fun u u' hsecond => ?_
        cases hsecond with
        | @token _ _ more more' hu hmore =>
          rw [hu.token, pure_bind, pure_bind]
          by_cases hin : u'.token = .name "in"
          · rw [if_pos hin]
            refine (Agrees.takeOperator hJ ht hrest _ _).bind fun _ _ r r' h _ hr => ?_
            subst h
            refine Agrees.take hJ hr (fun _ _ q q' hq _ hs' => ?_) fun _ _ _ hnil _ => nomatch hnil
            refine (hdisjunction q q' hs').bind fun right _ p p' hright hp hs' => .pure hs' ?_
            subst hright
            obtain ⟨-, rfl⟩ := List.cons.inj hq
            have hle := hp.length_le
            exact ⟨.some rfl, fun _ => by rw [List.length_cons, List.length_cons]; omega⟩
          · rw [if_neg hin]
            exact .pure hs ⟨.none, nofun⟩
        | finish h =>
          obtain ⟨hleft, hright⟩ := h.ne (k := .name "in") nofun nofun
          rw [if_neg hleft, if_neg hright]
          exact .pure hs ⟨.none, nofun⟩
      · exact .pure hs ⟨.none, nofun⟩
  | finish h =>
    unfold membershipWord?
    obtain ⟨hleft, hright⟩ := h.ne (k := .name "in") nofun nofun
    obtain ⟨hleft', hright'⟩ := h.ne (k := .name "not") nofun nofun
    rw [if_neg hleft, if_neg hright, if_neg hleft', if_neg hright']
    exact .pure hs ⟨.none, nofun⟩

theorem pairs_conditional : J.Pairs (g.conditional sub) (g'.conditional sub') := by
  intro s s' hs
  refine (pairs_membership hJ hsub s s' hs).bind fun condition _ r r' h _ hr => ?_
  subst h
  refine Agrees.peek hJ hr fun t t' hnext => ?_
  cases hnext with
  | token ht hrest =>
    rw [ht.token]
    split
    · refine (Agrees.takeOperator hJ ht hrest _ _).bind fun _ _ q q' _ _ hs' => ?_
      refine (hsub _ q q' hs').bind fun yes _ p p' hyes _ hs' => ?_
      refine (Agrees.expect (k := .sign .colon) hJ hs' nofun nofun).bind
        fun _ _ o o' _ _ hs' => ?_
      refine (hsub _ o o' hs').bind fun no _ _ _ hno _ hs' => .pure hs' ?_
      rw [hyes, hno]
    · exact .pure hr rfl
  | finish h =>
    obtain ⟨hleft, hright⟩ := h.ne (k := .sign .question) nofun nofun
    rw [if_neg hleft, if_neg hright]
    exact .pure hr rfl

theorem pairs_assignment : J.Pairs (g.assignment sub) (g'.assignment sub') := by
  intro s s' hs
  refine (hsub _ s s' hs).bind fun left _ r r' h _ hr => ?_
  subst h
  refine Agrees.peek hJ hr fun t t' hnext => ?_
  cases hnext with
  | token ht hrest =>
    rw [ht.token]
    split
    · refine (Agrees.takeOperator hJ ht hrest _ _).bind fun _ _ q q' _ _ hs' => ?_
      split
      · rw [hJ.definition]
        split
        · split
          · exact (hsub _).map _ q q' hs'
          · exact ht.fail _
        · exact ht.fail _
      · split
        · exact (hsub _).map _ q q' hs'
        · exact ht.fail _
    · exact .pure hr rfl
  | finish h =>
    obtain ⟨hleft, hright⟩ := h.ne (k := .sign .assign) nofun nofun
    rw [if_neg hleft, if_neg hright]
    exact .pure hr rfl

end

section
variable {J : Pairing} {g g' : Grammar} (hJ : J.Sound g g')
include hJ

/-- **Levels answer the same on pieces that correspond**, as soon as they do so at the limit of
nesting. -/
theorem pairs_level {more : Nat} (hlimit : ∀ l, J.Pairs (g.level 0 l) (g'.level more l))
    (depth : Nat) (l : Level) : J.Pairs (g.level depth l) (g'.level (depth + more) l) := by
  induction depth generalizing l with
  | zero => rw [Nat.zero_add]; exact hlimit l
  | succ depth ih =>
    rw [Nat.add_right_comm]
    cases l with
    | assignment => exact pairs_assignment hJ ih
    | conditional => exact pairs_conditional hJ ih
    | factor => exact pairs_factor hJ ih

theorem pairs_limit (hdepth : g.options.maxDepth = g'.options.maxDepth) (l : Level) :
    J.Pairs (g.level 0 l) (g'.level 0 l) := by
  intro s s' hs
  refine Agrees.peek hJ hs fun t t' hnext => ?_
  rw [hdepth]
  cases hnext with
  | token ht => exact ht.fail _
  | finish h => exact h.fail fun _ => .tooDeep g'.options.maxDepth

end

/-! ## One text, read twice -/

namespace Pairing

/-- A reading corresponds to one of the same text under another limit of nesting; the left one may
fail in the excused ways. -/
def same (excused : Failure → Prop) : Pairing where
  pieces := Eq
  failures := Eq
  tail := []
  excusesLeft := excused
  excusesRight := fun _ => False

section
variable {excused : Failure → Prop}

theorem same_matches (t : PlacedToken) : (same excused).Matches t t := ⟨rfl, fun _ => rfl⟩

theorem same_sound {g : Grammar} (hfinish : g.finish.token = .finish) (limit : Nat) :
    (same excused).Sound g { g with options := g.options.withMaxDepth limit } where
  token := by
    rintro t _ rfl
    exact ⟨t, rfl, same_matches t⟩
  rejected := by
    rintro fault start stop _ rfl
    exact ⟨start, stop, rfl, rfl⟩
  tail := .inl ⟨rfl, hfinish, .inl (same_matches _)⟩
  constants := rfl
  allows _ _ := rfl
  conditional := rfl
  array := rfl
  member := rfl
  definition := rfl
  namedOp _ := rfl

theorem same_continues (s : List Lexeme) : (same excused).Continues s s :=
  ⟨s, List.forall₂_same.mpr fun _ _ => rfl, (List.append_nil s).symm⟩

theorem eq_of_same_continues {s s' : List Lexeme} (h : (same excused).Continues s s') :
    s' = s := by
  obtain ⟨front, hfront, rfl⟩ := h
  obtain rfl := List.forall₂_eq_eq_eq ▸ hfront
  exact List.append_nil s

end
end Pairing

theorem takes_statements {g : Grammar} (hfinish : g.finish.token = .finish) {depth : Nat}
    {s r : List Lexeme} {t : Term} (h : g.statements (g.level depth) s = .ok (t, r)) :
    Takes s r := by
  have hJ : (same fun _ => False).Sound g _ := same_sound hfinish g.options.maxDepth
  have hpairs := statements_orStops hJ (pairs_level hJ (pairs_limit hJ rfl) depth)
    (same_continues s)
  rcases hpairs.of_ok (fun _ => id) h with ⟨_, _, -, -, htaken, -⟩ | ⟨-, -, hexcused⟩
  · exact htaken
  · exact (hexcused ⟨.parse .noTarget, 0⟩).elim

end Grammar
end Formula
