import Formula.Proofs.Comparison
import Formula.Proofs.Families
import Formula.Proofs.MachineParts
import Formula.Proofs.Sameness

/-! # Texts that go with programs

An expression that comes of a compiled one by simplifying and substituting names a source text only
while it still is the compiled expression (`DerivesFrom.eq_of_source`).  So the text that it names
compiles to it (`source_compiles`).

An error gets the text of the expression that is evaluated, unless it has one already.  The machine
raises its own errors without a text; a function of the host may answer an error with one, and that
error keeps it (`Expression.evaluate_error_source`).
-/
namespace Formula

/-! ## Derived expressions -/

/-- The expression comes of another one in finitely many steps, each of which simplifies it or puts
some expression in place of a variable. -/
inductive Expression.DerivesFrom (e : Expression) : Expression → Prop
  | itself : DerivesFrom e e
  | simplify {d : Expression} (h : DerivesFrom e d) (known : Dict Value) :
      DerivesFrom e (d.simplify known)
  | substitute {d : Expression} (h : DerivesFrom e d) (name : String) (replacement : Expression) :
      DerivesFrom e (d.substitute name replacement)

namespace Expression
variable {d e : Expression}

/-- Where only programs that do not change count as the same, an expression that keeps its text does
not change. -/
theorem withProgram_of_source {program : Program} {text : String}
    (hsame : sameProgram program e.program = true → program = e.program)
    (h : (e.withProgram program).source = some text) : e.withProgram program = e := by
  unfold withProgram at h ⊢
  by_cases heq : sameProgram program e.program = true
  · rw [if_pos heq, hsame heq]
  · rw [if_neg heq] at h
    cases h

theorem simplify_of_source {known : Dict Value} {text : String}
    (h : (d.simplify known).source = some text) : d.simplify known = d :=
  withProgram_of_source fold_eq_of_same h

theorem substitute_of_source {name text : String} {replacement : Expression}
    (h : (d.substitute name replacement).source = some text) : d.substitute name replacement = d :=
  withProgram_of_source substitute_eq_of_same h

/-- **A derived expression that names a text is the expression that it was derived from.** -/
theorem DerivesFrom.eq_of_source (h : e.DerivesFrom d) {text : String}
    (htext : d.source = some text) : d = e := by
  induction h with
  | itself => rfl
  | simplify _ known ih =>
    have hsame := simplify_of_source htext
    rw [hsame] at htext ⊢
    exact ih htext
  | substitute _ name replacement ih =>
    have hsame := substitute_of_source htext
    rw [hsame] at htext ⊢
    exact ih htext

/-- Substituting for a variable that is not read keeps the text, as long as the program is the same
as itself. -/
theorem source_substitute_of_not_mem {name : String} (hname : name ∉ d.program.references)
    (hnan : Program.Everywhere Instr.NaNFree d.program) (replacement : Expression) :
    (d.substitute name replacement).source = d.source := by
  show (if sameProgram (d.program.substitute name replacement.program) d.program = true
    then d.source else none) = d.source
  rw [substitute_of_not_mem hname, if_pos (sameProgram_self_iff.mpr hnan)]

end Expression

/-! ## Errors of a run -/

namespace Evaluation

/-- Whatever error the computation raises, `E` holds of it. -/
def Raises (E : Error → Prop) {α : Type} (m : Evaluation α) : Prop :=
  ∀ s error u, m s = .error error u → E error

section
variable {E : Error → Prop} {α β : Type}

theorem Raises.bind {m : Evaluation α} {f : α → Evaluation β} (hm : Raises E m)
    (hf : ∀ a, Raises E (f a)) : Raises E (m >>= f) := by
  intro s error u h
  cases hr : m s with
  | ok a t =>
    rw [bind_of_ok hr] at h
    exact hf a t error u h
  | error raised t =>
    rw [bind_of_error hr] at h
    obtain ⟨rfl, -⟩ := EStateM.Result.error.inj h
    exact hm s raised t hr

theorem Raises.throw {error : Error} (h : E error) : Raises E (throw error : Evaluation α) := by
  rintro s _ _ ⟨⟩
  exact h

/-- What only changes the scope raises nothing. -/
theorem raises_modify (f : Scope → Scope) : Raises E (modify f) := by
  rintro s error u ⟨⟩

theorem raises_set (s : Scope) : Raises E (set s) := by
  rintro s error u ⟨⟩

theorem Raises.withLocals {m : Evaluation α} (hm : Raises E m) (locals : Dict Value) :
    Raises E (withLocals locals m) := by
  intro s error u h
  unfold Evaluation.withLocals at h
  cases hr : m { s with locals := some locals } with
  | ok a inner =>
    rw [hr] at h
    cases h
  | error raised inner =>
    rw [hr] at h
    obtain ⟨rfl, -⟩ := EStateM.Result.error.inj h
    exact hm _ _ _ hr

end

/-- A registered function has answered the error. -/
def HostError (functions : Registry) (error : Error) : Prop :=
  ∃ id f calls arguments, functions.ofId? id = some f ∧ f.answer calls arguments = .error error

section
variable {functions : Registry} {E : Error → Prop} (hfault : ∀ fault, E (.ofFault fault))
include hfault

/-- Which errors are raised is a matter of the parts of a computation. -/
theorem compositional_raises : Compositional (@Raises E) where
  pure a := by rintro s error u ⟨⟩
  fail fault := .throw (hfault fault)
  get := by rintro s error u ⟨⟩
  bind := .bind

theorem raises_inSlot (name : String) (change : Value → EStateM.Result Fault Value Unit) :
    Raises E (inSlot name change) := by
  have hparts := compositional_raises hfault
  refine (raises_modify _).bind fun _ => hparts.get.bind fun s => ?_
  split
  · exact raises_set _
  · exact (raises_set _).bind fun _ => hparts.fail _

/-- **The errors of a run are those of the machine and those that functions of the host answer.** -/
theorem carried_raises (hhost : ∀ error, HostError functions error → E error) (options : Options) :
    Carried options functions (@Raises E) where
  toCompositional := compositional_raises hfault
  assign path v := by
    have hparts := compositional_raises hfault
    refine (hparts.lift _).bind fun _ => ?_
    split
    · exact hparts.fail _
    · exact raises_modify _
    · split
      · exact raises_inSlot hfault _ _
      · exact hparts.fail _
  makeFunction name params body := by
    have hparts := compositional_raises hfault
    have hfresh : Raises E freshId := by rintro s error u ⟨⟩
    exact (hparts.lift _).bind fun _ => hfresh.bind fun _ => hparts.get.bind fun _ =>
      (raises_modify _).bind fun _ => hparts.pure _
  withLocals locals _ hm := hm.withLocals locals
  callHost id f hf arguments := by
    have hparts := compositional_raises hfault
    refine hparts.get.bind fun s => (raises_modify _).bind fun _ => ?_
    split
    · exact hparts.pure _
    · rename_i error hanswer
      exact .throw (hhost error ⟨id, f, _, arguments, hf, hanswer⟩)

end
end Evaluation

namespace Expression
variable {e : Expression} {context after : Context} {error : Error}

/-- An error of an evaluation is the error of the run, with the text of the expression if it has
none. -/
theorem exists_run_of_error (h : e.evaluate context = (.error error, after)) :
    ∃ raised s, Evaluation.run e.options e.functions e.options.maxDepth e.program { context with }
        = .error raised s ∧ error = { raised with source := raised.source.or e.source } := by
  unfold Expression.evaluate Program.evaluate at h
  cases hrun : Evaluation.run e.options e.functions e.options.maxDepth e.program { context with } with
  | ok v s =>
    rw [hrun] at h
    cases h
  | error raised s =>
    refine ⟨raised, s, rfl, ?_⟩
    rw [hrun] at h
    cases hsource : e.source with
    | none =>
      rw [hsource] at h
      rw [Option.or_none]
      exact (Except.error.inj (Prod.mk.inj h).1).symm
    | some text =>
      rw [hsource] at h
      exact (Except.error.inj (Prod.mk.inj h).1).symm

/-- **An error of an evaluation names the text of the expression**, or it has a text of its own,
with which a function of the host answered it. -/
theorem evaluate_error_source (h : e.evaluate context = (.error error, after)) :
    error.source = e.source ∨
      error.source ≠ none ∧ Evaluation.HostError e.functions error := by
  have hraises : Evaluation.Raises
      (fun error => error.source = none ∨ Evaluation.HostError e.functions error)
      (Evaluation.run e.options e.functions e.options.maxDepth e.program) :=
    (Evaluation.carried_raises (fun _ => .inl rfl) (fun _ h => .inr h) e.options).run _ _
  obtain ⟨raised, s, hrun, rfl⟩ := exists_run_of_error h
  cases hown : raised.source with
  | none => exact .inl rfl
  | some own =>
    obtain hnone | hhost := hraises _ _ _ hrun
    · rw [hown] at hnone
      cases hnone
    · refine .inr ⟨nofun, ?_⟩
      rw [Option.some_or, ← hown]
      exact hhost

end Expression

/-- The expression is compiled from the text whatever functions are registered. -/
theorem compile_with_functions {c : Compiler} {source : String} {e : Expression}
    (he : c.compile source = .ok e) (functions : Registry) :
    Compiler.compile { c with functions } source = .ok { e with functions } := by
  obtain ⟨t, hparse, rfl⟩ := exists_of_map_eq_ok he
  unfold Compiler.compile
  rw [hparse]
  rfl

/-- **The text that an expression names compiles to it.**  An expression comes of a compiled one by
simplifying it and by substituting, finitely often, with any known variables, names and other
expressions.  If it still names a text, that text compiles under the same switches and constants,
whatever functions are registered, and to the same program; and every error of an evaluation names
that text, but for errors that a function of the host answers with a text of their own.  Substituting
for a variable that it does not read keeps the text of an expression in whose literals there is no
`NaN`. -/
theorem source_compiles {c : Compiler} {source : String} {e d : Expression}
    (he : c.compile source = .ok e) (hd : e.DerivesFrom d) :
    (∀ text, d.source = some text →
      (∀ functions, Compiler.compile { c with functions } text = .ok { d with functions }) ∧
        ∀ context error after, d.evaluate context = (.error error, after) →
          error.source = some text ∨
            error.source ≠ none ∧ Evaluation.HostError d.functions error) ∧
      ∀ name replacement, name ∉ d.program.references →
        Program.Everywhere Instr.NaNFree d.program →
        (d.substitute name replacement).source = d.source := by
  refine ⟨fun text htext => ⟨fun functions => ?_, fun context error after h => ?_⟩,
    fun name replacement hname hnan =>
      Expression.source_substitute_of_not_mem hname hnan replacement⟩
  · obtain rfl := hd.eq_of_source htext
    have hsource : d.source = some source := by
      obtain ⟨t, -, rfl⟩ := exists_of_map_eq_ok he
      rfl
    obtain rfl : text = source := Option.some.inj (htext.symm.trans hsource)
    exact compile_with_functions he functions
  · rw [← htext]
    exact Expression.evaluate_error_source h

/-- Nothing of `x = true; x + y` is known, and it does not read `z`. -/
theorem source_compiles_unchanged :
    let e : Expression := ⟨(Term.sequence (.assign "x" [] (.literal (.bool true)))
      [.binary .add (.var "x") (.var "y")]).code, {}, {}, some "x = true; x + y"⟩
    let d := (e.simplify [("k", .null)]).substitute "z" e
    Compiler.compile {} "x = true; x + y" = .ok e ∧ e.DerivesFrom d ∧
      d.source = some "x = true; x + y" ∧
      (∀ functions, Compiler.compile { functions } "x = true; x + y" = .ok { d with functions }) ∧
      (∀ context error after, d.evaluate context = (.error error, after) →
        error.source = some "x = true; x + y" ∨
          error.source ≠ none ∧ Evaluation.HostError d.functions error) ∧
      "k" ∉ d.program.references ∧ Program.Everywhere Instr.NaNFree d.program ∧
      (d.substitute "k" e).source = some "x = true; x + y" := by
  intro e d
  have he : Compiler.compile {} "x = true; x + y" = .ok e := rfl
  have hd : e.DerivesFrom d := .substitute (.simplify .itself _) _ _
  have hsource : d.source = some "x = true; x + y" := by decide +kernel
  have hread : "k" ∉ d.program.references := by decide +kernel
  have hnan : Program.Everywhere Instr.NaNFree d.program := by
    rw [hd.eq_of_source hsource]
    have hliteral : ¬ (Value.bool true).HoldsNaN := nofun
    simpa [e, Term.code, statementsCode, Instr.Everywhere, Instr.NaNFree] using hliteral
  obtain ⟨hnames, hkeeps⟩ := source_compiles he hd
  obtain ⟨hcompile, herrors⟩ := hnames _ hsource
  exact ⟨he, hd, hsource, hcompile, herrors, hread, hnan,
    (hkeeps _ _ hread hnan).trans hsource⟩

/-- The error of a host function that names `inner source`, which is no expression, keeps that text
in an expression from the text `f()`. -/
theorem exists_error_of_other_text :
    let f : HostFunction :=
      ⟨0, "f", fun _ _ => .error ⟨.evaluation (.host "inner"), none, some "inner source"⟩⟩
    let c : Compiler := Compiler.register {} f
    ∃ e error, c.compile "f()" = .ok e ∧ e.source = some "f()" ∧
      (e.evaluate {}).1 = .error error ∧ error.source = some "inner source" ∧
      ∀ d, c.compile "inner source" ≠ .ok d := by
  intro f c
  refine ⟨⟨(Term.call (.var "f") []).code, {}, c.functions, some "f()"⟩,
    ⟨.evaluation (.host "inner"), none, some "inner source"⟩, rfl, rfl, rfl, rfl, ?_⟩
  intro d h
  cases h

end Formula
