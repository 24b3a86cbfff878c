import Formula.Expression
import Formula.Proofs.References

/-! # Substitution and parameters

Substitution goes into the body of every function, also of a function with a parameter of the
variable's name, where a reference reads the parameter.  So it agrees with putting copies in place
of the references that nothing hides if no such body reads its parameter of that name, and only then
(`substitute_bodies`).
-/
namespace Formula

/-- Somewhere in a program behind the instructions `before` a function with these parameters and
this body is defined; the last parameter comes first. -/
inductive Program.DefinesFrom (params : List String) (body : Program) :
    List Instr → List Instr → Prop
  | here {before after : List Instr} (h : paramsAround? before after = some params) :
      DefinesFrom params body before (.sub body :: after)
  | inside {before inner after : List Instr} (h : DefinesFrom params body [] inner) :
      DefinesFrom params body before (.sub inner :: after)
  | behind {before after : List Instr} {instr : Instr}
      (h : DefinesFrom params body (instr :: before) after) :
      DefinesFrom params body before (instr :: after)

/-- Somewhere in the program a function with these parameters and this body is defined. -/
def Program.Defines (program : Program) (params : List String) (body : Program) : Prop :=
  Program.DefinesFrom params body [] program

/-- No function in the program has a parameter of the name and reads it in its body. -/
def Program.IgnoresFrom (x : String) (before : List Instr) (program : Program) : Prop :=
  ∀ params body, Program.DefinesFrom params body before program → x ∈ params →
    x ∉ body.references

/-- A copy in place of one variable. -/
def Copies.single (x : String) (w : Program) : Copies := fun name =>
  if name = x then some w else none

section
variable {x : String} {w : Program} {before before' after after' : List Instr}

/-! ## What a substitution makes of a definition -/

/-- A body reads what the program around it reads. -/
theorem references_subset_of_defines {params : List String} {body program : Program}
    (h : Program.DefinesFrom params body before program) :
    body.references ⊆ Program.references program := by
  induction h with
  | here =>
    rw [references_cons, Instr.references]
    exact List.subset_append_left _ _
  | inside _ ih =>
    rw [references_cons, Instr.references]
    exact List.Subset.trans ih (List.subset_append_left _ _)
  | behind _ ih =>
    rw [references_cons]
    exact List.Subset.trans ih (List.subset_append_right _ _)

/-- More names may stand before the parameters. -/
theorem paramsAround?_of_more_names (hbefore : namesBefore before <+: namesBefore before')
    (hafter : ∀ n, paramsBehind? after = some n → paramsBehind? after' = some n)
    {params : List String} (h : paramsAround? before after = some params) :
    paramsAround? before' after' = some params := by
  rw [paramsAround?_eq] at h ⊢
  obtain ⟨n, hn, hparams⟩ := Option.bind_eq_some_iff.mp h
  rw [hafter n hn, Option.bind_some]
  obtain ⟨more, hmore⟩ := hbefore
  split at hparams
  · rename_i hle
    rw [← hmore, List.length_append, if_pos (by omega), List.take_append_of_le_length hle]
    exact hparams
  · cases hparams

theorem paramsBehind?_substitute {n : Nat} (h : paramsBehind? after = some n) :
    paramsBehind? (Program.substitute after x w) = some n := by
  cases after with
  | nil => cases h
  | cons instr after =>
    cases instr with
    | define params =>
      simp only [Program.substitute_cons, Instr.substitute]
      exact h
    | _ => cases h

theorem definesFrom_append {params : List String} {body : Program} (front : Program)
    {program : Program} (h : Program.DefinesFrom params body (front.reverse ++ before) program) :
    Program.DefinesFrom params body before (front ++ program) := by
  induction front generalizing before with
  | nil => exact h
  | cons instr front ih =>
    rw [List.reverse_cons, List.append_assoc] at h
    exact .behind (ih h)

/-- Names before a place stay there; anything else only stands before fewer names. -/
theorem namesBefore_substitute (instr : Instr)
    (hbefore : namesBefore before <+: namesBefore before') :
    namesBefore (instr :: before)
      <+: namesBefore ((instr.substitute x w).reverse ++ before') := by
  cases instr with
  | name n =>
    simp only [Instr.substitute]
    exact List.cons_prefix_cons.mpr ⟨rfl, hbefore⟩
  | _ => exact List.nil_prefix

/-- **A function is still defined with the same parameters**, and copies stand in its body, whether
or not a parameter hides the variable. -/
theorem defines_substitute {params : List String} {body program : Program}
    (h : Program.DefinesFrom params body before program)
    (hbefore : namesBefore before <+: namesBefore before') :
    Program.DefinesFrom params (body.substitute x w) before'
      (Program.substitute program x w) := by
  induction h generalizing before' with
  | here h =>
    simp only [Program.substitute_cons, Instr.substitute, List.singleton_append]
    exact .here (paramsAround?_of_more_names hbefore (fun n => paramsBehind?_substitute) h)
  | inside _ ih =>
    simp only [Program.substitute_cons, Instr.substitute, List.singleton_append]
    exact .inside (ih (List.prefix_refl _))
  | @behind before after instr _ ih =>
    rw [Program.substitute_cons]
    exact definesFrom_append _ (ih (namesBefore_substitute instr hbefore))

/-! ## Bodies that hide the variable -/

theorem ignoresFrom_nil : Program.IgnoresFrom x before [] := by
  rintro params body ⟨⟩

theorem ignoresFrom_sub {inner rest : Program} :
    Program.IgnoresFrom x before (.sub inner :: rest) ↔
      (∀ params, paramsAround? before rest = some params → x ∈ params → x ∉ inner.references) ∧
        Program.IgnoresFrom x [] inner ∧ Program.IgnoresFrom x (.sub inner :: before) rest := by
  constructor
  · intro h
    exact ⟨fun params hparams => h params inner (.here hparams),
      fun params body hbody => h params body (.inside hbody),
      fun params body hbody => h params body (.behind hbody)⟩
  · rintro ⟨hhere, hinside, hbehind⟩ params body hbody
    cases hbody with
    | here h => exact hhere params h
    | inside h => exact hinside params body h
    | behind h => exact hbehind params body h

theorem ignoresFrom_cons {instr : Instr} {rest : Program} (hinstr : ∀ inner, instr ≠ .sub inner) :
    Program.IgnoresFrom x before (instr :: rest)
      ↔ Program.IgnoresFrom x (instr :: before) rest := by
  constructor
  · exact fun h params body hbody => h params body (.behind hbody)
  · rintro h params body hbody
    cases hbody with
    | here => exact absurd rfl (hinstr _)
    | inside => exact absurd rfl (hinstr _)
    | behind hbody => exact h params body hbody

theorem around_single_of_binds (h : Binds x before after) :
    (Copies.single x w).around before after = fun _ => none := by
  funext name
  by_cases hname : name = x
  · rw [hname, around_of_binds h]
  · exact around_eq_none (if_neg hname)

theorem around_single_of_not_binds (h : ¬ Binds x before after) :
    (Copies.single x w).around before after = Copies.single x w := by
  funext name
  by_cases hname : name = x
  · rw [hname, around_of_not_binds h]
  · rw [around_eq_none (if_neg hname), Copies.single, if_neg hname]

/-- In one program inside the program. -/
theorem substitute_eq_fill_inside (hw : w ≠ [.var x]) {inner : Program}
    (hinner : inner.substitute x w = Program.fillFrom (.single x w) [] inner
      ↔ Program.IgnoresFrom x [] inner) (before after : List Instr) :
    inner.substitute x w
        = Program.fillFrom ((Copies.single x w).around before after) [] inner ↔
      (∀ params, paramsAround? before after = some params → x ∈ params → x ∉ inner.references) ∧
        Program.IgnoresFrom x [] inner := by
  by_cases hbinds : Binds x before after
  · rw [around_single_of_binds hbinds, fillFrom_none, substitute_eq_self_iff, or_iff_right hw]
    constructor
    · intro hnone
      exact ⟨fun _ _ _ => hnone, fun params body hbody _ hx =>
        hnone (references_subset_of_defines hbody hx)⟩
    · obtain ⟨params, hparams, hx⟩ := hbinds
      exact fun h => h.1 params hparams hx
  · rw [around_single_of_not_binds hbinds, hinner]
    exact (and_iff_right fun params hparams hx => absurd ⟨params, hparams, hx⟩ hbinds).symm

theorem substitute_eq_fillFrom_iff (hw : w ≠ [.var x]) (p : Program) (before : List Instr) :
    p.substitute x w = p.fillFrom (.single x w) before ↔ Program.IgnoresFrom x before p := by
  induction p using Program.induct generalizing before with
  | nil => simp [ignoresFrom_nil]
  | cons instr rest hbody hrest =>
    rw [Program.substitute_cons, fillFrom_cons]
    cases instr with
    | sub inner =>
      rw [ignoresFrom_sub, ← hrest, ← and_assoc,
        ← substitute_eq_fill_inside hw (hbody inner rfl []) before rest]
      simp only [Instr.substitute, Instr.fill, List.singleton_append, List.cons.injEq,
        Instr.sub.injEq]
    | var name =>
      have hsame : Instr.substitute (.var name) x w
          = Instr.fill (.single x w) ((Copies.single x w).around before rest) (.var name) := by
        by_cases hname : name = x <;> simp [Instr.substitute, Instr.fill, Copies.single, hname]
      rw [ignoresFrom_cons, ← hrest, hsame, List.append_cancel_left_eq]
      rintro _ ⟨⟩
    | _ =>
      rw [ignoresFrom_cons, ← hrest]
      · simp only [Instr.substitute, Instr.fill, List.append_cancel_left_eq]
      · rintro _ ⟨⟩

theorem fillFrom_single_self (p : Program) (before : List Instr) :
    p.fillFrom (.single x [.var x]) before = p := by
  induction p using Program.induct generalizing before with
  | nil => simp
  | cons instr rest hbody hrest =>
    rw [fillFrom_cons, hrest]
    cases instr with
    | sub inner =>
      rw [Instr.fill]
      by_cases hbinds : Binds x before rest
      · rw [around_single_of_binds hbinds, fillFrom_none, List.singleton_append]
      · rw [around_single_of_not_binds hbinds, hbody inner rfl, List.singleton_append]
    | var name =>
      by_cases hname : name = x <;> simp [Instr.fill, Copies.single, hname]
    | _ => simp [Instr.fill]

/-- **Substitution puts copies in place of the references that nothing hides if no body reads a
parameter that hides the variable, and only then**, unless the variable stands for itself. -/
theorem substitute_eq_fill_iff (p : Program) :
    p.substitute x w = p.fill (.single x w) ↔ w = [.var x] ∨ Program.IgnoresFrom x [] p := by
  by_cases hw : w = [.var x]
  · subst hw
    rw [Program.fill, fillFrom_single_self, substitute_self]
    simp
  · rw [or_iff_right hw]
    exact substitute_eq_fillFrom_iff hw p []

end

/-- A variable that is known to be no function has its literal, and nothing else has one. -/
theorem literals_single {v : Value} (hv : ∀ f, v ≠ .function f) :
    Copies.literals [(x, v)] = Copies.single x [v.toInstr] := by
  funext name
  by_cases hname : name = x
  · rw [Copies.single, if_pos hname]
    exact literals_eq_some_iff.mpr ⟨v, by simp [Dict.get?, hname], hv, rfl⟩
  · simp [Copies.literals, Copies.single, Dict.get?, hname, Ne.symm hname]

/-- **Substitution and parameters.**  Let an expression define a function, at any depth, with a
parameter of the variable's name.  With copies of another expression in place of the variable it
defines a function with the same parameters, in whose body the copies stand as well.  The body is
left as it was if it does not read the parameter, and only then, unless the variable stands for
itself; and then a call of the function, with whatever arguments and among whatever variables, does
what it did.  But a body that reads the parameter no longer reads it, unless the copies do.

So substitution agrees with copies in place of the references that no parameter hides if no body of
such a function reads the parameter, and only then.  Simplification puts its literals in place of
these references alone. -/
theorem substitute_bodies (e r : Expression) (x : String) :
    (∀ params body, e.program.Defines params body → x ∈ params →
      let changed := body.substitute x r.program
      (e.substitute x r).program.Defines params changed ∧
        (changed = body ↔ r.program = [.var x] ∨ x ∉ body.references) ∧
        (x ∉ body.references → ∀ (f : Closure) functions run arguments, f.body = body →
          Evaluation.call functions run (.function (.closure { f with body := changed })) arguments
            = Evaluation.call functions run (.function (.closure f)) arguments) ∧
        (x ∉ r.program.references → x ∉ changed.references)) ∧
    ((e.substitute x r).program = e.program.fill (.single x r.program) ↔
      r.program = [.var x] ∨
        ∀ params body, e.program.Defines params body → x ∈ params → x ∉ body.references) ∧
    ∀ v, (∀ f, v ≠ .function f) → (e.simplify [(x, v)]).program
      = (e.program.fill (.single x [v.toInstr])).fold e.options [] := by
  rw [Expression.program_substitute]
  refine ⟨fun params body hbody _ => ?_, substitute_eq_fill_iff e.program, fun v hv => ?_⟩
  · refine ⟨defines_substitute hbody (List.prefix_refl _), substitute_eq_self_iff body, ?_,
      fun hr => not_mem_references_substitute hr body⟩
    rintro hnone ⟨id, name, params, body, captured⟩ functions run arguments rfl
    rw [substitute_of_not_mem hnone]
  · rw [Expression.program_simplify, fold_eq_fold_fill, literals_single hv]

/-- In `f(x) = y; f(x)` the body reads another variable than its parameter: with `true` in place of
`x` it is left as it was, and the copy stands in the call alone. -/
theorem substitute_bodies_other_variable :
    let c : Compiler := {}
    let definition := Term.define "f" ["x"] (.var "y")
    let e : Expression :=
      ⟨(Term.sequence definition [.call (.var "f") [.var "x"]]).code, {}, {},
        some "f(x) = y; f(x)"⟩
    let r : Expression := ⟨(Term.literal (.bool true)).code, {}, {}, some "true"⟩
    c.compile "f(x) = y; f(x)" = .ok e ∧ c.compile "true" = .ok r ∧
      e.program.Defines ["x"] [.var "y"] ∧ "x" ∈ ["x"] ∧
      (e.substitute "x" r).program.Defines ["x"] [.var "y"] ∧
      (e.substitute "x" r).program
        = (Term.sequence definition [.call (.var "f") [.literal (.bool true)]]).code := by
  intro c definition e r
  have hdefines : e.program.Defines ["x"] [.var "y"] := .inside (.behind (.behind (.here rfl)))
  have hnone : "x" ∉ Program.references [.var "y"] := by simp [Instr.references]
  obtain ⟨hchanged, hsame, -, -⟩ := (substitute_bodies e r "x").1 _ _ hdefines (.head _)
  rw [hsame.mpr (.inr hnone)] at hchanged
  exact ⟨rfl, rfl, hdefines, .head _, hchanged, rfl⟩

/-- In `f(x) = x; f(true)` the body reads its parameter: with `false` in place of `x` the function
answers something else. -/
theorem substitute_bodies_own_parameter :
    let c : Compiler := {}
    let definition := Term.define "f" ["x"] (.var "x")
    let e : Expression :=
      ⟨(Term.sequence definition [.call (.var "f") [.literal (.bool true)]]).code, {}, {},
        some "f(x) = x; f(true)"⟩
    let r : Expression := ⟨(Term.literal (.bool false)).code, {}, {}, some "false"⟩
    c.compile "f(x) = x; f(true)" = .ok e ∧ c.compile "false" = .ok r ∧
      e.program.Defines ["x"] [.var "x"] ∧
      Program.substitute [.var "x"] "x" r.program ≠ [.var "x"] ∧
      (e.evaluate {}).1 = .ok (.bool true) ∧
      ((e.substitute "x" r).evaluate {}).1 = .ok (.bool false) := by
  intro c definition e r
  refine ⟨rfl, rfl, .inside (.behind (.behind (.here rfl))), ?_, rfl, rfl⟩
  simp [r, Term.code, Instr.substitute]

end Formula
