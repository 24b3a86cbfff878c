import Formula.Proofs.Ceiling
import Formula.Proofs.PairedReaders

/-! # Raising the limit of nesting

The limit of nesting only cuts off.  A text that is not refused for nesting too deep has the same
term, or is refused for the same fault at the same place, under every higher limit; and a run that
does not stop at its ceiling is the same run under every higher one (`raised_maxDepth`).

Where a reader meets the limit it still looks at the next token.  So text that is no token at all is
noticed first, and the reader of a higher limit has to notice it as well, whatever it would do with
a token there (`rejects_level`).
-/
namespace Formula

/-- The failure at the limit of nesting `limit`. -/
def Failure.AtLimit (limit : Nat) (failure : Failure) : Prop :=
  failure.fault = .parse (.tooDeep limit)

namespace Grammar

open Pairing

/-! ## Rejected text -/

section
variable {g : Grammar} {fault : LexFault} {start stop : Nat} {rest : List Lexeme} {α β : Type}

/-- The reader finds fault with the rejected text before anything else. -/
def Rejects (m : Reader α) (fault : LexFault) (start stop : Nat) (rest : List Lexeme) : Prop :=
  m (.rejected fault start stop :: rest) = .error ⟨.lex fault, start⟩

theorem Rejects.bind {m : Reader α} (h : Rejects m fault start stop rest) (f : α → Reader β) :
    Rejects (m >>= f) fault start stop rest := by
  unfold Rejects at h ⊢
  rw [reader_bind, h]
  rfl

theorem rejects_peek : Rejects g.peek fault start stop rest := rfl

theorem rejects_disjunction {sub : Level → Reader Term}
    (h : Rejects (sub .factor) fault start stop rest) :
    Rejects (g.disjunction sub) fault start stop rest := by
  have hcomparison : Rejects (g.comparison sub) fault start stop rest :=
    (((h.bind _).bind _).bind _).bind _
  exact (hcomparison.bind _).bind _

/-- **Rejected text is noticed at every level**, also at the limit of nesting. -/
theorem rejects_level (depth : Nat) (l : Level) :
    Rejects (g.level depth l) fault start stop rest := by
  induction depth generalizing l with
  | zero => exact rejects_peek.bind _
  | succ depth ih =>
    cases l with
    | assignment => exact (ih .conditional).bind _
    | conditional => exact ((rejects_disjunction (ih .factor)).bind _).bind _
    | factor => exact rejects_peek.bind _

end

/-! ## Readers under a higher limit -/

section
variable {g : Grammar}

/-- At the limit a reader fails where any other one goes on, or both notice rejected text. -/
theorem pairs_atLimit (g' : Grammar) (more : Nat) (l : Level) :
    (same (Failure.AtLimit g.options.maxDepth)).Pairs (g.level 0 l) (g'.level more l) := by
  intro s s' hs
  rw [eq_of_same_continues hs]
  have hlimit : ∀ t, g.peek s = .ok (t, s) → ∃ failure : Failure,
      failure.AtLimit g.options.maxDepth ∧ g.level 0 l s = .error failure := fun t ht =>
    ⟨⟨.parse (.tooDeep g.options.maxDepth), t.start⟩, rfl, bind_of_ok ht⟩
  unfold Agrees
  cases s with
  | nil =>
    obtain ⟨failure, hfailure, hrun⟩ := hlimit g.finish rfl
    exact hrun ▸ .left hfailure _
  | cons lexeme rest =>
    cases lexeme with
    | token t =>
      obtain ⟨failure, hfailure, hrun⟩ := hlimit t rfl
      exact hrun ▸ .left hfailure _
    | rejected fault start stop =>
      rw [rejects_level (g := g) 0 l, rejects_level (g := g') more l]
      exact .error rfl (.rejected (Takes.refl _))

/-- Whole texts are read alike under both limits, as soon as not every failure is excused. -/
theorem pairs_whole {J : Pairing} {g' : Grammar} (hJ : J.Sound g g') {more : Nat}
    (hlimit : ∀ l, J.Pairs (g.level 0 l) (g'.level more l))
    (hdepth : g'.options.maxDepth = g.options.maxDepth + more)
    (hleft : ¬ ∀ failure, J.excusesLeft failure) : J.Pairs g.whole g'.whole := by
  intro s s' hs
  unfold Grammar.whole
  rw [hdepth]
  rcases statements_orStops hJ (pairs_level hJ hlimit g.options.maxDepth) hs with
    hstatements | ⟨hexcused, -⟩
  · refine hstatements.bind fun t _ r r' h _ hr => ?_
    subst h
    refine Agrees.peek hJ hr fun u u' hnext => ?_
    cases hnext with
    | token hu _ =>
      rw [hu.token]
      split
      · exact .pure hr rfl
      · exact hu.fail _
    | finish h _ =>
      rcases h.right with hu | ⟨-, hexcused⟩
      · rw [← hu.token, if_pos h.finish, if_pos h.finish]
        exact .pure hr rfl
      · exact absurd hexcused hleft
  · exact absurd hexcused hleft

/-- **A text that is not refused at the limit is read alike under a higher limit.** -/
theorem whole_raised (hfinish : g.finish.token = .finish) {limit : Nat}
    (hlimit : g.options.maxDepth ≤ limit) {s : List Lexeme}
    (h : ∀ failure, g.whole s = .error failure → ¬ failure.AtLimit g.options.maxDepth) :
    { g with options := g.options.withMaxDepth limit : Grammar }.whole s = g.whole s := by
  obtain ⟨more, rfl⟩ := Nat.exists_eq_add_of_le hlimit
  let J := same (Failure.AtLimit g.options.maxDepth)
  have hleft : ¬ ∀ failure, J.excusesLeft failure := fun hall =>
    nomatch hall ⟨.parse .noTarget, 0⟩
  have hpairs := pairs_whole (same_sound hfinish _) (pairs_atLimit _ more) rfl hleft s s
    (same_continues s)
  unfold Agrees at hpairs
  generalize
    { g with options := g.options.withMaxDepth (g.options.maxDepth + more) : Grammar }.whole s = y
    at hpairs
  generalize g.whole s = x at h hpairs
  cases hpairs with
  | ok hab _ hr => rw [hab, eq_of_same_continues hr]
  | error heq => rw [heq]
  | left hceiling _ => exact absurd hceiling (h _ rfl)
  | right hnever _ => exact hnever.elim

end
end Grammar

/-- A text that is not refused for nesting too deep is parsed alike under a higher limit. -/
theorem Term.parse_raised {options : Options} {constants : Dict Value} {source : String}
    {limit : Nat} (hlimit : options.maxDepth ≤ limit)
    (h : ∀ error, Term.parse options constants source = .error error →
      error.fault ≠ .parse (.tooDeep options.maxDepth)) :
    Term.parse (options.withMaxDepth limit) constants source
      = Term.parse options constants source := by
  let g : Grammar := ⟨options, constants, finishOf source.toList⟩
  have hwhole : { g with options := options.withMaxDepth limit : Grammar }.whole
      (lexemes source.toList) = g.whole (lexemes source.toList) := by
    refine Grammar.whole_raised (g := g) rfl hlimit fun failure hrun => ?_
    refine h (failure.toError source) ?_
    unfold Term.parse
    dsimp only
    rw [StateT.run, hrun]
  unfold Term.parse
  dsimp only
  rw [StateT.run, hwhole]
  rfl

/-- An evaluation that does not stop at its ceiling is the same under a higher one. -/
theorem Expression.evaluate_raised {e : Expression} {context : Context} {limit : Nat}
    (hlimit : e.options.maxDepth ≤ limit)
    (h : ∀ error, (e.evaluate context).1 = .error error →
      error.fault ≠ .evaluation (.tooDeep e.options.maxDepth)) :
    { e with options := e.options.withMaxDepth limit : Expression }.evaluate context
      = e.evaluate context := by
  have hstays : ∀ u, Evaluation.run e.options e.functions e.options.maxDepth e.program
      { context with } ≠ .error (.ofFault (.evaluation (.tooDeep e.options.maxDepth))) u := by
    intro u hceiling
    obtain ⟨named, hevaluate, hfault⟩ := Expression.evaluate_of_error hceiling
    exact h named (by rw [hevaluate]) hfault
  have hrun := Evaluation.run_raised limit hlimit hstays
  unfold Expression.evaluate Program.evaluate
  rw [← hrun]
  rfl

/-- **The limit of nesting only cuts off.**  Under limits `depth ≤ depth'`, all else equal: a text
that is not refused for nesting deeper than `depth` compiles to the same program, or fails with the
same error at the same place; and an expression, with whatever program, that does not stop at the
ceiling `depth` gives the same value or error, the same variables and the same calls of the host. -/
theorem raised_maxDepth {depth depth' : Nat} (hdepth : depth ≤ depth') :
    (∀ (c : Compiler) (source : String),
      let low := { c with options := c.options.withMaxDepth depth }
      let high := { c with options := c.options.withMaxDepth depth' }
      (∀ error, low.compile source = .error error → error.fault ≠ .parse (.tooDeep depth)) →
        (high.compile source).map Expression.program
          = (low.compile source).map Expression.program) ∧
    ∀ (e : Expression) (context : Context),
      let low := { e with options := e.options.withMaxDepth depth }
      let high := { e with options := e.options.withMaxDepth depth' }
      (∀ error, (low.evaluate context).1 = .error error →
          error.fault ≠ .evaluation (.tooDeep depth)) →
        high.evaluate context = low.evaluate context := by
  constructor
  · intro c source low high h
    have hparse : Term.parse high.options c.constants source
        = Term.parse low.options c.constants source := by
      refine @Term.parse_raised low.options _ _ depth' hdepth fun error herror => h error ?_
      unfold Compiler.compile
      rw [herror]
      rfl
    unfold Compiler.compile
    rw [hparse]
    cases Term.parse low.options c.constants source <;> rfl
  · intro e context low high h
    exact Expression.evaluate_raised (e := low) hdepth h

/-- `a = not true; a` is five levels deep, so that it compiles under a limit of five, and runs. -/
theorem raised_maxDepth_at_limit :
    let low : Options := { maxDepth := 5 }
    let high : Options := { maxDepth := 9 }
    let t : Term :=
      .sequence (.assign "a" [] (.unary (.named .not) (.literal (.bool true)))) [.var "a"]
    let e : Expression := ⟨t.code, {}, {}, none⟩
    (∀ error, ({ options := low } : Compiler).compile "a = not true; a" = .error error →
        error.fault ≠ .parse (.tooDeep 5)) ∧
      (({ options := high } : Compiler).compile "a = not true; a").map Expression.program
        = (({ options := low } : Compiler).compile "a = not true; a").map Expression.program ∧
      (∀ error, ({ e with options := low }.evaluate {}).1 = .error error →
        error.fault ≠ .evaluation (.tooDeep 5)) ∧
      { e with options := high }.evaluate {} = { e with options := low }.evaluate {} := by
  intro low high t e
  have hcompile : ∀ error,
      ({ options := low } : Compiler).compile "a = not true; a" = .error error →
      error.fault ≠ .parse (.tooDeep 5) := by
    have hok : (({ options := low } : Compiler).compile "a = not true; a").map Expression.program
        = .ok t.code := rfl
    intro error herror
    rw [herror] at hok
    cases hok
  have hevaluate : ∀ error, ({ e with options := low }.evaluate {}).1 = .error error →
      error.fault ≠ .evaluation (.tooDeep 5) := by
    have hok : ({ e with options := low }.evaluate {}).1 = .ok (.bool false) := rfl
    intro error herror
    rw [herror] at hok
    cases hok
  have hraised := raised_maxDepth (show 5 ≤ 9 by decide)
  exact ⟨hcompile, hraised.1 {} "a = not true; a" hcompile, hevaluate, hraised.2 e {} hevaluate⟩

end Formula
