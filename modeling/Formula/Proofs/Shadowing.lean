import Formula.Proofs.Resolution
import Formula.Proofs.Watching

/-! # Parameters and the names around them

A parameter hides every variable of its name, of the caller as well as of enclosing functions.  In
the body of the function, and in the functions defined there, its name is the argument until
something is stored to it (`parameter_hides`).  A function nested in another one keeps the locals it
was defined among, so this holds at any depth of nesting and whenever the nested function is called.

Reserved names are the exception: a registered function, an operator that is on and the failure at a
protected name come before all variables, and so before parameters (`parameter_hidden_by_operator`).
-/
namespace Formula
namespace Evaluation

/-! ## Activations -/

/-- A call of a function that a program defined. -/
structure Activation where
  function : Closure
  arguments : List Value

/-- Called among any variables, the function comes to an operation before it stores to a name. -/
def Activation.ComesTo (a : Activation) (options : Options) (functions : Registry) (depth : Nat)
    (s : Scope) (op : Operation) (u : Scope) (name : String) : Prop :=
  Evaluation.ComesTo options functions depth a.function.body
    { s with locals := some (localsOf a.function a.arguments) } op u name

variable {options : Options} {functions : Registry} {name : String}

/-- On the way the name is what it is at the beginning of the call. -/
theorem Activation.ComesTo.untouched {a : Activation} {depth : Nat} {s u : Scope} {op : Operation}
    (h : a.ComesTo options functions depth s op u name) :
    Untouched s.globals name ((localsOf a.function a.arguments).get? name) u :=
  Evaluation.ComesTo.untouched h ⟨rfl, _, rfl, rfl⟩

/-- A definition makes the function of the locals it is carried out among. -/
theorem makeFunction_eq_ok {params : List String} {body : Program} {u u' : Scope} {f : Value}
    (h : makeFunction name params body u = .ok f u') :
    f = .function (.closure ⟨u.nextId, name, params, body, u.locals⟩) := by
  unfold makeFunction at h
  cases hcheck : checkName name with
  | error fault =>
    rw [hcheck] at h
    cases h
  | ok passed =>
    rw [hcheck] at h
    cases h
    rfl

/-- The second activation is the first, or one of a function that was defined in an activation
nested in the first before anything was stored to the name, and does not bind the name itself. -/
inductive Nested (options : Options) (functions : Registry) (name : String) :
    Activation → Activation → Prop
  | self (a : Activation) : Nested options functions name a a
  | deeper {a b : Activation} {depth : Nat} {s u u' : Scope} {f : String} {params : List String}
      {body : Program} {c : Closure} (hb : Nested options functions name a b)
      (hcomes : b.ComesTo options functions depth s (.define f params body) u name)
      (hmake : makeFunction f params body u = .ok (.function (.closure c)) u')
      (hname : f ≠ name) (hparams : name ∉ params) (arguments : List Value) :
      Nested options functions name a ⟨c, arguments⟩

/-- A name that is local to an activation is the same in those nested in it. -/
theorem Nested.get?_localsOf {a b : Activation} (h : Nested options functions name a b) {v : Value}
    (ha : (localsOf a.function a.arguments).get? name = some v) :
    (localsOf b.function b.arguments).get? name = some v := by
  induction h with
  | self => exact ha
  | deeper hb hcomes hmake hname hparams arguments ih =>
    obtain ⟨-, locals, hlocals, hv⟩ := hcomes.untouched
    cases makeFunction_eq_ok hmake
    rw [get?_localsOf_captured hparams, hlocals, Option.bind_some, if_neg hname, hv]
    exact ih

/-! ## What parameters are -/

/-- Whatever the variables are, reading a reserved name does the same. -/
theorem lookup_eq_lift_of_reserved (h : Reserved options functions name) :
    ∃ result, lookup options functions name = lift result := by
  unfold lookup checkName
  cases hprotected : isProtected name with
  | true => exact ⟨.error _, rfl⟩
  | false =>
    cases hfunction : functions.get? name with
    | some f => exact ⟨.ok _, rfl⟩
    | none =>
      cases hop : options.namedOp? name with
      | some op => exact ⟨.ok _, rfl⟩
      | none => simp [Reserved, Registry.contains, hprotected, hfunction, hop] at h

/-- **A parameter hides the variables of its name.**  Let a function be called, with any arguments,
and let a name that is not reserved be a parameter, at last at the place `i`.  Wherever the body
comes to a reference to the name before it stores to it, and wherever the body of a function nested
in it does that does not bind the name, the reference is the `i`-th argument, or undefined if there
are fewer.  Which variables the caller has does not matter.

A reference to a reserved name is the same everywhere, whether a parameter has that name or not. -/
theorem parameter_hides (options : Options) (functions : Registry) (c : Closure)
    (arguments : List Value) {name : String} {i : Nat} (hi : c.params[i]? = some name)
    (hlast : ∀ j, i < j → c.params[j]? ≠ some name) :
    (¬ Reserved options functions name →
      ∀ a, Nested options functions name ⟨c, arguments⟩ a → ∀ depth s u,
        a.ComesTo options functions depth s (.read name) u name →
        lookup options functions name u = .ok (arguments[i]?.getD .undefined) u) ∧
    (Reserved options functions name → ∃ result, lookup options functions name = lift result) := by
  refine ⟨fun hfree a ha depth s u hcomes => ?_, lookup_eq_lift_of_reserved⟩
  have hstart : (localsOf c arguments).get? name = some (arguments[i]?.getD .undefined) :=
    get?_localsOf_param hi hlast
  obtain ⟨-, locals, hlocals, hv⟩ := hcomes.untouched
  rw [ha.get?_localsOf hstart] at hv
  refine lookup_of_not_reserved hfree ?_
  rw [Scope.get?, hlocals, Option.bind_some, hv, Option.some_or]

/-- In `f(x, x) = (g(y) = x; g(true))` the nested `g` refers to the second parameter of `f`,
although the caller has a variable `x`, and after the call of `f` as well. -/
theorem parameter_hides_in_nested_function :
    let body : Program := [.sub [.name "g", .name "y", .sub [.var "x"], .define 1, .endStatement,
      .var "g", .literal (.bool true), .call 1]]
    let f : Closure := ⟨1, "f", ["x", "x"], body, none⟩
    let g : Closure := ⟨2, "g", ["y"], [.var "x"], some [("x", .bool true)]⟩
    let s : Scope := { globals := [("x", .null)], nextId := 2 }
    f.params[1]? = some "x" ∧ (∀ j, 1 < j → f.params[j]? ≠ some "x") ∧
      ¬ Reserved {} {} "x" ∧
      Nested {} {} "x" ⟨f, [.bool false, .bool true]⟩ ⟨g, [.null]⟩ ∧
      ∃ u, (Activation.mk g [.null]).ComesTo {} {} 1 s (.read "x") u "x" ∧
        lookup {} {} "x" u = .ok (.bool true) u := by
  intro body f g s
  have hlast : ∀ j, 1 < j → f.params[j]? ≠ some "x" := by
    rintro (_ | _ | j) hj h
    · cases hj
    · exact absurd hj (Nat.lt_irrefl _)
    · cases h
  have hfree : ¬ Reserved {} {} "x" := by rintro (h | h | h) <;> cases h
  let u : Scope := { s with locals := some [("x", .bool true)] }
  have hnested : Nested {} {} "x" ⟨f, [.bool false, .bool true]⟩ ⟨g, [.null]⟩ := by
    have hcomes : (Activation.mk f [.bool false, .bool true]).ComesTo {} {} 2 s
        (.define "g" ["y"] [.var "x"]) u "x" :=
      fun _ _ => bind_of_error (bind_of_error alarm_self _) _
    exact .deeper (.self _) hcomes rfl (by decide) (by decide) _
  have hcomes : (Activation.mk g [.null]).ComesTo {} {} 1 s (.read "x")
      { s with locals := some (localsOf g [.null]) } "x" :=
    fun _ _ => bind_of_error (bind_of_error alarm_self _) _
  exact ⟨rfl, hlast, hfree, hnested, _, hcomes,
    (parameter_hides {} {} f [.bool false, .bool true] rfl hlast).1 hfree _ hnested _ _ _ hcomes⟩

/-- In `f(sin) = sin; f(true)` the parameter `sin` does not hide the operator: where the body comes
to the reference the local variable is true, and the call still answers the operator. -/
theorem parameter_hidden_by_operator :
    let definition := Term.define "f" ["sin"] (.var "sin")
    let e : Expression :=
      ⟨(Term.sequence definition [.call (.var "f") [.literal (.bool true)]]).code, {}, {},
        some "f(sin) = sin; f(true)"⟩
    let f : Closure := ⟨1, "f", ["sin"], [.var "sin"], none⟩
    let s : Scope := { globals := [("f", .function (.closure f))], nextId := 2 }
    let u : Scope := { s with locals := some [("sin", .bool true)] }
    Compiler.compile {} "f(sin) = sin; f(true)" = .ok e ∧
      (e.evaluate {}).1 = .ok (.function (.named .sin)) ∧
      (e.evaluate {}).2.globals = s.globals ∧
      (Activation.mk f [.bool true]).ComesTo {} {} 1 s (.read "sin") u "sin" ∧
      lookup {} {} "sin" u = .ok (.function (.named .sin)) u :=
  ⟨rfl, rfl, rfl, fun _ _ => bind_of_error (bind_of_error alarm_self _) _, rfl⟩

end Evaluation
end Formula
