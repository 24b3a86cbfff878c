import Formula.Proofs.Ceiling
import Formula.Proofs.Frame
import Formula.Proofs.Joining
import Formula.Proofs.Provenance

/-! # One text after the other

Evaluating two texts with a semicolon between them is evaluating the first, and then, if it answers
a value, the second on the variables that the first has left (`compile_joined`).

Statements that wait as one program run one level deeper than a text of its own would.  That shows
only where a run stops at the ceiling, which is why the theorem asks that the run of both texts does
not.
-/
namespace Formula
namespace Evaluation
section
variable {options : Options} {functions : Registry}

theorem settledLast_append (run : Program → Evaluation Value) (first next : Term)
    (rest more : List Term) :
    settledLast options functions run first (rest ++ next :: more)
      = settledLast options functions run first rest >>= fun _ =>
          settledLast options functions run next more := by
  induction rest generalizing first with
  | nil => rfl
  | cons second rest ih => simp only [List.cons_append, settledLast, ih, bind_assoc]

/-- **Statements behind others run after them**, and the value of the others is dropped. -/
theorem run_statements_append (depth : Nat) (first next : Term) (rest more : List Term) :
    run options functions depth (first.code ++ statementsCode (rest ++ next :: more))
      = run options functions depth (first.code ++ statementsCode rest) >>= fun _ =>
          run options functions depth (next.code ++ statementsCode more) := by
  cases depth with
  | zero => rfl
  | succ depth => simp only [run, execute_statements, settledLast_append]

/-- A sequence runs its statements one level deeper. -/
theorem run_sequence (depth : Nat) (first : Term) (rest : List Term) :
    run options functions (depth + 1) (Term.sequence first rest).code
      = run options functions depth (first.code ++ statementsCode rest) := rfl

/-- A term runs as its statements do one level deeper, unless they stop at the ceiling there. -/
theorem run_madeOf {t first : Term} {rest : List Term} (ht : t.MadeOf first rest) {depth : Nat}
    {s : Scope} (h : ∀ e u, run options functions depth (first.code ++ statementsCode rest) s
      = .error e u → ¬ e.AtCeiling) :
    run options functions (depth + 1) t.code s
      = run options functions depth (first.code ++ statementsCode rest) s := by
  cases ht with
  | row first rest => rw [run_sequence]
  | single t =>
    rw [statementsCode, List.append_nil] at h ⊢
    exact run_add 1 h

/-- **The statements of two terms in a row run as the terms do one after the other**, unless they
stop at the ceiling. -/
theorem run_sequence_append {t₁ t₂ first₁ first₂ : Term} {rest₁ rest₂ : List Term}
    (h₁ : t₁.MadeOf first₁ rest₁) (h₂ : t₂.MadeOf first₂ rest₂) {depth : Nat} {s : Scope}
    (h : ∀ e u, run options functions depth (Term.sequence first₁ (rest₁ ++ first₂ :: rest₂)).code s
      = .error e u → ¬ e.AtCeiling) :
    run options functions depth (Term.sequence first₁ (rest₁ ++ first₂ :: rest₂)).code s
      = (run options functions depth t₁.code >>= fun _ => run options functions depth t₂.code)
          s := by
  cases depth with
  | zero => exact absurd ⟨_, rfl⟩ (h _ _ rfl)
  | succ depth =>
    rw [run_sequence, run_statements_append] at h ⊢
    cases hfirst : run options functions depth (first₁.code ++ statementsCode rest₁) s with
    | error e u =>
      have hstop : ¬ e.AtCeiling := h e u (bind_of_error hfirst _)
      have halone : run options functions (depth + 1) t₁.code s = .error e u := by
        rw [run_madeOf h₁, hfirst]
        rw [hfirst]
        rintro _ _ ⟨⟩
        exact hstop
      rw [bind_of_error hfirst, bind_of_error halone]
    | ok v u =>
      have halone : run options functions (depth + 1) t₁.code s = .ok v u := by
        rw [run_madeOf h₁, hfirst]
        rw [hfirst]
        rintro _ _ ⟨⟩
      rw [bind_of_ok hfirst] at h ⊢
      rw [bind_of_ok halone]
      exact (run_madeOf h₂ h).symm

/-- Outside of functions, a run of the code of a term ends outside of functions. -/
theorem locals_run {depth : Nat} {t : Term} {context : Context} {v : Value} {s : Scope}
    (h : run options functions depth t.code { context with } = .ok v s) : s.locals = none := by
  have hkeeps := ((regime_outermost options functions).keeps_run depth).code (t := t) trivial
    { context with } rfl
  rw [h] at hkeeps
  exact hkeeps.2

end
end Evaluation

namespace Expression

/-- Running the program of an expression. -/
def run (e : Expression) : Evaluation Value :=
  Evaluation.run e.options e.functions e.options.maxDepth e.program

/-- Expressions whose runs end alike give the same answer, whatever texts their errors name. -/
theorem evaluate_of_run_eq {e e' : Expression} {context context' : Context}
    (h : e.run { context with } = e'.run { context' with }) :
    (e.evaluate context).1.mapError Error.unnamed
        = (e'.evaluate context').1.mapError Error.unnamed ∧
      (e.evaluate context).2 = (e'.evaluate context').2 := by
  unfold run at h
  simp only [evaluate, Program.evaluate, h]
  generalize Evaluation.run e'.options e'.functions e'.options.maxDepth e'.program
    { context' with } = result
  cases result with
  | ok v s => exact ⟨rfl, rfl⟩
  | error error s => cases e.source <;> cases e'.source <;> exact ⟨rfl, rfl⟩

/-- Runs an expression and, if it answers a value, another one on the variables that it leaves. -/
def evaluateThen (e next : Expression) (context : Context) : Except Error Value × Context :=
  match e.evaluate context with
  | (.ok _, after) => next.evaluate after
  | failed => failed

/-- A run of one expression and then of another is an evaluation of one and then of the other. -/
theorem evaluate_eq_evaluateThen {e first next : Expression} {t : Term}
    (hcode : first.program = t.code) {context : Context}
    (h : e.run { context with } = (first.run >>= fun _ => next.run) { context with }) :
    (e.evaluate context).1.mapError Error.unnamed
        = (first.evaluateThen next context).1.mapError Error.unnamed ∧
      (e.evaluate context).2 = (first.evaluateThen next context).2 := by
  unfold evaluateThen
  cases hfirst : first.run { context with } with
  | error error s =>
    obtain ⟨named, hevaluate, -⟩ := evaluate_of_error hfirst
    rw [Evaluation.bind_of_error hfirst, ← hfirst] at h
    have hsame := evaluate_of_run_eq h
    rw [hevaluate] at hsame ⊢
    exact hsame
  | ok v s =>
    rw [Evaluation.bind_of_ok hfirst] at h
    have hlocals : s.locals = none := by
      rw [run, hcode] at hfirst
      exact Evaluation.locals_run hfirst
    rw [evaluate_of_ok hfirst]
    refine evaluate_of_run_eq (h.trans ?_)
    rw [← hlocals]

end Expression

open Evaluation in
/-- **The text of two texts is evaluated one after the other.**  Let both compile, let the last
token of the first not be a semicolon, and let no comment of the first stay open.  Then the first
text, a line with a semicolon and the second text compile together; and on all variables they give
the value or error of the second text on the variables that the first one leaves, the same variables
and the same calls of the host.  Where the first text fails, its error is the answer, and the second
one is not run.  All that unless they stop at the ceiling together. -/
theorem compile_joined {c : Compiler} {first second : String} {a b : Expression}
    (ha : c.compile first = .ok a) (hb : c.compile second = .ok b)
    (hclosed : CommentsClosed 0 first.toList)
    (hlast : ∀ t, (lexemes first.toList).getLast? = some (.token t) → t.token ≠ .semicolon) :
    ∃ e, c.compile (joined first second) = .ok e ∧ ∀ context,
      ¬ StopsAtCeiling (e.evaluate context).1 →
        (e.evaluate context).1.mapError Error.unnamed
            = (a.evaluateThen b context).1.mapError Error.unnamed ∧
          (e.evaluate context).2 = (a.evaluateThen b context).2 := by
  obtain ⟨t₁, h₁, rfl⟩ := exists_of_map_eq_ok ha
  obtain ⟨t₂, h₂, rfl⟩ := exists_of_map_eq_ok hb
  obtain ⟨first₁, rest₁, first₂, rest₂, hmade₁, hmade₂, hparse⟩ :=
    Term.parse_joined h₁ h₂ hclosed hlast
  let t : Term := .sequence first₁ (rest₁ ++ first₂ :: rest₂)
  let e : Expression := ⟨t.code, c.options, c.functions, some (joined first second)⟩
  refine ⟨e, by rw [Compiler.compile, hparse]; rfl, fun context hceiling => ?_⟩
  have hstops : ∀ error s, e.run { context with } = .error error s → ¬ error.AtCeiling :=
    fun error s hrun hstop => hceiling (Expression.stopsAtCeiling_of_run hrun hstop)
  exact Expression.evaluate_eq_evaluateThen rfl (run_sequence_append hmade₁ hmade₂ hstops)

/-- `a = true; b = a`, with a semicolon in a comment behind it, and then `not b; b`. -/
theorem compile_joined_comment : ∃ a b e : Expression,
    let c : Compiler := {}
    c.compile "a = true; b = a /* ; */" = .ok a ∧ c.compile "not b; b" = .ok b ∧
      CommentsClosed 0 "a = true; b = a /* ; */".toList ∧
      (∀ t, (lexemes "a = true; b = a /* ; */".toList).getLast? = some (.token t) →
        t.token ≠ .semicolon) ∧
      c.compile (joined "a = true; b = a /* ; */" "not b; b") = .ok e ∧
      (e.evaluate {}).1 = .ok (.bool true) ∧ ¬ StopsAtCeiling (e.evaluate {}).1 ∧
      (e.evaluate {}).1.mapError Error.unnamed
        = (a.evaluateThen b {}).1.mapError Error.unnamed ∧
      (e.evaluate {}).2 = (a.evaluateThen b {}).2 := by
  let t : Term := .sequence (.assign "a" [] (.literal (.bool true)))
    [.assign "b" [] (.var "a"), .unary (.named .not) (.var "b"), .var "b"]
  let both : Expression := ⟨t.code, {}, {}, some (joined "a = true; b = a /* ; */" "not b; b")⟩
  obtain ⟨a, ha⟩ : ∃ a, ({} : Compiler).compile "a = true; b = a /* ; */" = .ok a := ⟨_, rfl⟩
  obtain ⟨b, hb⟩ : ∃ b, ({} : Compiler).compile "not b; b" = .ok b := ⟨_, rfl⟩
  have hclosed : CommentsClosed 0 "a = true; b = a /* ; */".toList := by decide +kernel
  have hlast : ∀ t, (lexemes "a = true; b = a /* ; */".toList).getLast? = some (.token t) →
      t.token ≠ .semicolon := by
    have hname : (lexemes "a = true; b = a /* ; */".toList).getLast?
        = some (.token ⟨.name "a", 14, 15⟩) := rfl
    intro t ht
    rw [hname] at ht
    cases ht
    exact nofun
  obtain ⟨e, he, hsame⟩ := compile_joined ha hb hclosed hlast
  have hboth : ({} : Compiler).compile (joined "a = true; b = a /* ; */" "not b; b") = .ok both :=
    rfl
  obtain rfl : both = e := Except.ok.inj (hboth.symm.trans he)
  have hvalue : (both.evaluate {}).1 = .ok (.bool true) := rfl
  have hceiling : ¬ StopsAtCeiling (both.evaluate {}).1 := by
    rintro ⟨error, herror, -⟩
    rw [hvalue] at herror
    cases herror
  exact ⟨a, b, both, ha, hb, hclosed, hlast, he, hvalue, hceiling, hsame {} hceiling⟩

end Formula
