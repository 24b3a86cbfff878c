import Formula.Expression
import Formula.Proofs.Comparison
import Formula.Proofs.References

/-! # What names are resolved to

The evaluator fails on a protected name, then asks the registry, then the operators that are on, and
reads a variable last.  Simplification puts the known value in place of a name without asking any of
them.  So the two agree on the names that are not reserved in this way, and on no others
(`simplify_resolves`).
-/
namespace Formula

/-- A name that reads no variable, whatever the variables are: it is protected, or it is that of a
registered function or of an operator that is on. -/
def Reserved (options : Options) (functions : Registry) (name : String) : Prop :=
  isProtected name = true ∨ functions.contains name = true ∨
    (options.namedOp? name).isSome = true

namespace Evaluation
variable {options : Options} {functions : Registry} {name : String}

/-! ## Looking up a name -/

/-- A reserved name fails or is a function. -/
theorem lookup_of_reserved (h : Reserved options functions name) (s : Scope) :
    (∃ error, lookup options functions name s = .error error s) ∨
      ∃ f, lookup options functions name s = .ok (.function f) s := by
  unfold lookup checkName
  cases hprotected : isProtected name with
  | true => exact .inl ⟨_, rfl⟩
  | false =>
    right
    cases hfunction : functions.get? name with
    | some f => exact ⟨_, rfl⟩
    | none =>
      cases hop : options.namedOp? name with
      | some op => exact ⟨_, rfl⟩
      | none => simp [Reserved, Registry.contains, hprotected, hfunction, hop] at h

/-- Any other name is its variable. -/
theorem lookup_of_not_reserved (h : ¬ Reserved options functions name) {s : Scope} {v : Value}
    (hv : s.get? name = some v) : lookup options functions name s = .ok v s := by
  simp only [Reserved, not_or, Bool.not_eq_true, Option.isSome_eq_false_iff,
    Option.isNone_iff_eq_none] at h
  obtain ⟨hprotected, hfunction, hop⟩ := h
  exact lookup_variable hprotected hfunction hop hv

/-- **The value of a variable is found under its name if the name is not reserved, and only then**,
unless it is a function. -/
theorem lookup_eq_ok_iff {s : Scope} {v : Value} (hv : s.get? name = some v)
    (hfunction : ∀ f, v ≠ .function f) :
    lookup options functions name s = .ok v s ↔ ¬ Reserved options functions name := by
  constructor
  · intro hlookup hreserved
    rcases lookup_of_reserved hreserved s with ⟨error, herror⟩ | ⟨f, hf⟩
    · rw [herror] at hlookup
      cases hlookup
    · rw [hf] at hlookup
      injection hlookup with hvalue
      exact hfunction f hvalue.symm
  · exact fun h => lookup_of_not_reserved h hv

end Evaluation

/-! ## Known names -/

/-- What the evaluator finds under a known name stands for it, as a literal. -/
def Copies.resolved (options : Options) (functions : Registry) (known : Dict Value) (s : Scope) :
    Copies := fun name =>
  if known.contains name then
    match Evaluation.lookup options functions name s with
    | .ok v _ => v.literal?
    | .error _ _ => none
  else none

section
variable {options : Options} {functions : Registry} {known : Dict Value} {s : Scope}
  {name : String}

theorem resolved_of_reserved (h : Reserved options functions name) :
    Copies.resolved options functions known s name = none := by
  unfold Copies.resolved
  split
  · rcases Evaluation.lookup_of_reserved h s with ⟨error, herror⟩ | ⟨f, hf⟩
    · rw [herror]
    · rw [hf]
      rfl
  · rfl

theorem resolved_of_not_reserved (h : ¬ Reserved options functions name)
    (hagree : ∀ v, known.get? name = some v → s.get? name = some v) :
    Copies.resolved options functions known s name = Copies.literals known name := by
  rw [Copies.resolved, Copies.literals, Dict.contains]
  cases hv : known.get? name with
  | none => rfl
  | some v =>
    rw [Evaluation.lookup_of_not_reserved h (hagree v hv)]
    rfl

theorem references_of_literals (name : String) (copy : Program)
    (h : Copies.literals known name = some copy) : Program.references copy = [] := by
  obtain ⟨v, -, -, rfl⟩ := literals_eq_some_iff.mp h
  simp

theorem references_of_resolved (name : String) (copy : Program)
    (h : Copies.resolved options functions known s name = some copy) :
    Program.references copy = [] := by
  unfold Copies.resolved at h
  split at h
  · split at h
    · obtain ⟨-, rfl⟩ := literal?_eq_some_iff.mp h
      simp
    · cases h
  · cases h

/-- Folding with known variables is folding with what the evaluator finds under their names, as long
as the program reads no known variable under a reserved name. -/
theorem fold_eq_fold_resolved_iff
    (hagree : ∀ name v, known.get? name = some v → s.get? name = some v) (p : Program) :
    p.fold options known = (p.fill (.resolved options functions known s)).fold options [] ↔
      ∀ name, Reserved options functions name → (Copies.literals known name).isSome →
        ¬ p.Reads name := by
  constructor
  · intro h name hreserved hknown hreads
    -- a literal in place of the reference is one reference less
    have hfewer : (p.fill (.literals known)).references.count name < p.references.count name :=
      count_fillFrom_lt references_of_literals hknown hreads
    have hsame : (p.fill (.resolved options functions known s)).references.count name
        = p.references.count name :=
      count_fillFrom_of_none references_of_resolved (resolved_of_reserved hreserved) p
    have hreferences := congrArg Program.references h
    rw [references_fold, references_fold_nil] at hreferences
    rw [hreferences, hsame] at hfewer
    exact Nat.lt_irrefl _ hfewer
  · intro h
    rw [fold_eq_fold_fill, Program.fill, Program.fill, fillFrom_congr]
    intro name hreads
    by_cases hreserved : Reserved options functions name
    · rw [resolved_of_reserved hreserved]
      cases hknown : Copies.literals known name with
      | none => rfl
      | some copy => exact absurd hreads (h name hreserved (by rw [hknown]; rfl))
    · exact (resolved_of_not_reserved hreserved (hagree name)).symm

end

/-- **Known names and the evaluator.**  Simplification puts literals in place of the references to
known variables that no parameter hides, wherever they stand, and keeps all other references in
their order.  Among variables that have the known values each of these literals is the value that
the evaluator finds under the name if the name is not reserved, and only then.

So simplification resolves names as the evaluator does, with the reference left in place where the
evaluator fails or finds something else, if the expression reads no known variable under a reserved
name, and only then. -/
theorem simplify_resolves (e : Expression) (known : Dict Value) (context : Context)
    (hagree : ∀ name v, known.get? name = some v → context.globals.get? name = some v) :
    (e.simplify known).program = (e.program.fill (.literals known)).fold e.options [] ∧
    (e.simplify known).program.references = (e.program.fill (.literals known)).references ∧
    (∀ name copy, Copies.literals known name = some copy →
      ∃ v, known.get? name = some v ∧ copy = [v.toInstr] ∧
        ∀ s : Scope, s.globals = context.globals →
          (∀ locals, s.locals = some locals → locals.get? name = none) →
          (Evaluation.lookup e.options e.functions name s = .ok v s ↔
            ¬ Reserved e.options e.functions name)) ∧
    ((e.simplify known).program
        = (e.program.fill (.resolved e.options e.functions known { context with })).fold
            e.options [] ↔
      ∀ name, Reserved e.options e.functions name → (Copies.literals known name).isSome →
        ¬ e.program.Reads name) := by
  rw [Expression.program_simplify]
  refine ⟨fold_eq_fold_fill .., references_fold .., fun name copy hcopy => ?_,
    fold_eq_fold_resolved_iff hagree e.program⟩
  obtain ⟨v, hv, hfunction, hliteral⟩ := literals_eq_some_iff.mp hcopy
  refine ⟨v, hv, hliteral, fun s hglobals hlocals => Evaluation.lookup_eq_ok_iff ?_ hfunction⟩
  rw [Scope.get?, hglobals, hagree name v hv]
  cases hl : s.locals with
  | none => rfl
  | some locals => simp [hlocals locals hl]

/-- In `f(k) = k||m; f(sin)` the parameter hides the known `k`, and `sin` is not known: the
references to both are kept, and the known value of `m` is what the evaluator finds. -/
theorem simplify_resolves_parameter_and_operator :
    let known : Dict Value := [("k", .bool true), ("m", .bool false)]
    let context : Context := { globals := known }
    let definition := Term.define "f" ["k"] (.binary .concatenate (.var "k") (.var "m"))
    let e : Expression :=
      ⟨(Term.sequence definition [.call (.var "f") [.var "sin"]]).code, {}, {},
        some "f(k) = k||m; f(sin)"⟩
    Compiler.compile {} "f(k) = k||m; f(sin)" = .ok e ∧
      (∀ name v, known.get? name = some v → context.globals.get? name = some v) ∧
      (e.simplify known).program.references = ["k", "f", "sin"] ∧
      Evaluation.lookup e.options e.functions "m" { context with }
        = .ok (.bool false) { context with } ∧
      (e.simplify known).program
        = (e.program.fill (.resolved e.options e.functions known { context with })).fold
            e.options [] := by
  intro known context definition e
  obtain ⟨hprogram, hreferences, hliteral, hresolved⟩ :=
    simplify_resolves e known context fun _ _ h => h
  have hknown : ∀ name, (Copies.literals known name).isSome → name = "k" ∨ name = "m" := by
    intro name hsome
    obtain ⟨copy, hcopy⟩ := Option.isSome_iff_exists.mp hsome
    obtain ⟨v, hv, -⟩ := literals_eq_some_iff.mp hcopy
    simp only [known, Dict.get?] at hv
    split at hv
    · rename_i hname
      exact .inl hname.symm
    · split at hv
      · rename_i hname
        exact .inr hname.symm
      · cases hv
  have hfree : ∀ name, name = "k" ∨ name = "m" → ¬ Reserved e.options e.functions name := by
    rintro name (rfl | rfl) (h | h | h) <;> cases h
  obtain ⟨v, hv, -, hlookup⟩ := hliteral "m" [.literal (.bool false)] rfl
  cases hv
  refine ⟨rfl, fun _ _ h => h, ?_, ?_, ?_⟩
  · rw [hreferences]
    cbv
  · exact (hlookup { context with } rfl (by rintro _ ⟨⟩)).mpr (hfree "m" (.inr rfl))
  · exact hresolved.mpr fun name hreserved hsome _ => hfree name (hknown name hsome) hreserved

/-- Under reserved names, what is known takes the place of the operator `sin`, and of the failure
at `__proto__`. -/
theorem simplify_resolves_reserved :
    let known : Dict Value := [("__proto__", .bool true), ("sin", .bool true)]
    let context : Context := { globals := known }
    let sine : Expression := ⟨[.var "sin"], {}, {}, some "sin"⟩
    let proto : Expression := ⟨[.var "__proto__"], {}, {}, some "__proto__"⟩
    Compiler.compile {} "sin" = .ok sine ∧ Compiler.compile {} "__proto__" = .ok proto ∧
      Evaluation.lookup sine.options sine.functions "sin" { context with }
        = .ok (.function (.named .sin)) { context with } ∧
      Evaluation.lookup proto.options proto.functions "__proto__" { context with }
        = .error (.ofFault (.access (.protectedName "__proto__"))) { context with } ∧
      (sine.simplify known).program = [.literal (.bool true)] ∧
      (proto.simplify known).program = [.literal (.bool true)] :=
  ⟨rfl, rfl, rfl, rfl, rfl, rfl⟩

end Formula
