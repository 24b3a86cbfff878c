import Formula.Proofs.Shadowing

/-! # Functions that call themselves

A function finds itself under its own name.  One that is defined outside of all functions finds
itself among the variables of the caller, as long as they are not stored to.  One that is defined in
the body of a function has a copy of the locals it was defined among; a call adds the function to
them, but only if the copy has nothing of that name.  So a nested function reaches itself exactly if
its name was no local variable where it was defined (`recursion_reaches_itself`): no parameter, not
stored to before, and not the name of an earlier or an enclosing nested function.
-/
namespace Formula
namespace Evaluation

/-- Nothing that a function captured is the function itself. -/
theorem ne_of_get?_captured {c : Closure} {captured : Dict Value} {name : String} {v : Value}
    (hc : c.captured = some captured) (hv : captured.get? name = some v) :
    v ≠ .function (.closure c) := by
  rintro rfl
  have hentry := List.sizeOf_lt_of_mem (Dict.mem_of_get? hv)
  obtain ⟨id, f, params, body, _⟩ := c
  cases hc
  simp only [Prod.mk.sizeOf_spec, Value.function.sizeOf_spec, Callable.closure.sizeOf_spec,
    Closure.mk.sizeOf_spec, Option.some.sizeOf_spec] at hentry
  omega

section
variable {options : Options} {functions : Registry} {c : Closure} {arguments : List Value}
  {depth : Nat} {s w : Scope}
  (hcomes : (Activation.mk c arguments).ComesTo options functions depth s (.read c.name) w c.name)
  (hparams : c.name ∉ c.params) (hfree : ¬ Reserved options functions c.name)
include hcomes hparams hfree

/-- In a nested function its name is what it was before the definition, or else the function. -/
theorem lookup_own_name_nested {captured : Dict Value} (hc : c.captured = some captured) :
    lookup options functions c.name w
      = .ok ((captured.get? c.name).getD (.function (.closure c))) w := by
  obtain ⟨-, locals, hlocals, hv⟩ := hcomes.untouched
  rw [get?_localsOf_captured hparams, hc, Option.bind_some, if_pos rfl] at hv
  refine lookup_of_not_reserved hfree ?_
  rw [Scope.get?, hlocals, Option.bind_some, hv, Option.some_or]

/-- In a function defined outside of all others its name is what it is for the caller. -/
theorem lookup_own_name_outermost (hc : c.captured = none) {v : Value}
    (hv : s.globals.get? c.name = some v) :
    lookup options functions c.name w = .ok v w := by
  obtain ⟨hglobals, locals, hlocals, hnone⟩ := hcomes.untouched
  rw [get?_localsOf_captured hparams, hc, Option.bind_none] at hnone
  refine lookup_of_not_reserved hfree ?_
  rw [Scope.get?, hlocals, Option.bind_some, hnone, Option.none_or, hglobals, hv]

end

/-- **A nested function calls itself if its name was free, and only then.**  Let a function be
defined whose name is neither reserved nor one of its parameters, and let a call of it, with any
arguments, come to a reference to the name before the body stores to it.

Defined among local variables, in the body of a function, the reference is the function itself if
and only if there was no local variable of that name.  If there was one, then the reference is the
value it had.  Defined outside of all functions, the reference is the function itself if the caller
still has it under its name. -/
theorem recursion_reaches_itself (options : Options) (functions : Registry) {name : String}
    {params : List String} {body : Program} {u u' : Scope} {f : Value}
    (hmake : makeFunction name params body u = .ok f u') (hparams : name ∉ params)
    (hfree : ¬ Reserved options functions name) :
    ∃ c, f = .function (.closure c) ∧ c.body = body ∧
      ∀ arguments depth s w,
        (Activation.mk c arguments).ComesTo options functions depth s (.read name) w name →
        (∀ locals, u.locals = some locals →
          lookup options functions name w = .ok ((locals.get? name).getD f) w ∧
          (lookup options functions name w = .ok f w ↔ locals.get? name = none)) ∧
        (u.locals = none → s.globals.get? name = some f →
          lookup options functions name w = .ok f w) := by
  let c : Closure := ⟨u.nextId, name, params, body, u.locals⟩
  obtain rfl : f = .function (.closure c) := makeFunction_eq_ok hmake
  refine ⟨c, rfl, rfl, fun arguments depth s w hcomes => ⟨fun locals hlocals => ?_, ?_⟩⟩
  · have hread := lookup_own_name_nested hcomes hparams hfree (c := c) hlocals
    refine ⟨hread, ?_⟩
    rw [hread]
    cases hv : locals.get? name with
    | none => simp
    | some v =>
      -- the value that hides the function was there before the function was
      have hne : v ≠ .function (.closure c) := ne_of_get?_captured (c := c) hlocals hv
      simp [hne]
  · exact fun hlocals hglobal => lookup_own_name_outermost hcomes hparams hfree hlocals hglobal

/-- In `f() = (g(n) = n ? g(false) : true; g(true))` the name of `g` is free, and its call reaches
`g` in the branch that runs late. -/
theorem recursion_reaches_itself_in_branch :
    let body : Program := [.var "n", .sub [.var "g", .literal (.bool false), .call 1],
      .sub [.literal (.bool true)], .choose]
    let u : Scope := { locals := some [] }
    let g : Closure := ⟨1, "g", ["n"], body, some []⟩
    let w : Scope := { locals := some (localsOf g [.bool true]), nextId := 2 }
    (∃ u', makeFunction "g" ["n"] body u = .ok (.function (.closure g)) u') ∧ "g" ∉ ["n"] ∧
      ¬ Reserved {} {} "g" ∧
      (Activation.mk g [.bool true]).ComesTo {} {} 2 { nextId := 2 } (.read "g") w "g" ∧
      lookup {} {} "g" w = .ok (.function (.closure g)) w := by
  intro body u g w
  have hfree : ¬ Reserved {} {} "g" := by rintro (h | h | h) <;> cases h
  have hparam : lookup {} {} "n" w = .ok (.bool true) w := by
    have hlast : ∀ j, 0 < j → g.params[j]? ≠ some "n" := by
      rintro (_ | j) hj <;> cases hj <;> nofun
    refine lookup_of_not_reserved (by rintro (h | h | h) <;> cases h) ?_
    rw [Scope.get?, Option.bind_some, get?_localsOf_param (i := 0) rfl hlast]
    rfl
  have hmake : makeFunction "g" ["n"] body u
      = .ok (.function (.closure g)) ({ u with nextId := 2 }.set "g" (.function (.closure g))) :=
    rfl
  have hcomes : (Activation.mk g [.bool true]).ComesTo {} {} 2 { nextId := 2 } (.read "g")
      w "g" := by
    intro hit spoilt
    let watch := alarm (.read "g") w "g" hit spoilt
    have hcondition : stepWatched {} {} watch (run {} {} 1) (runWatched {} {} watch 1)
        (.var "n") [] w = .ok [.value (.bool true)] w := by
      refine (bind_of_ok (alarm_of_ne (by simp) (by simp [Operation.storesTo?])) _).trans ?_
      exact bind_of_ok hparam _
    change (stepWatched {} {} watch (run {} {} 1) (runWatched {} {} watch 1) (.var "n") [] >>=
      executeWatched {} {} watch (run {} {} 1) (runWatched {} {} watch 1) body.tail) w = _
    rw [bind_of_ok hcondition]
    -- behind the condition, the branch that is wanted begins with the reference
    exact bind_of_error (bind_of_error (bind_of_error (bind_of_error alarm_self _) _) _) _
  obtain ⟨c, hc, -, hreads⟩ := recursion_reaches_itself {} {} hmake (by decide) hfree
  obtain rfl : g = c := by cases hc; rfl
  exact ⟨⟨_, hmake⟩, by decide, hfree, hcomes, ((hreads _ _ _ _ hcomes).1 [] rfl).2.mpr rfl⟩

/-- In `f() = (g(n) = n; g(n) = n ? g(false) : true; g(true)); f()` the second `g` calls the first,
which it is to replace: the answer is false.  Without the first, the second calls itself and the
answer is true. -/
theorem recursion_reaches_earlier_definition :
    let first := Term.define "g" ["n"] (.var "n")
    let second := Term.define "g" ["n"] (.choose (.var "n")
      (.call (.var "g") [.literal (.bool false)]) (.literal (.bool true)))
    let call := Term.call (.var "g") [.literal (.bool true)]
    let redefining : Expression :=
      ⟨(Term.sequence (.define "f" [] (.sequence first [second, call])) [.call (.var "f") []]).code,
        {}, {}, some "f() = (g(n) = n; g(n) = n ? g(false) : true; g(true)); f()"⟩
    let defining : Expression :=
      ⟨(Term.sequence (.define "f" [] (.sequence second [call])) [.call (.var "f") []]).code,
        {}, {}, some "f() = (g(n) = n ? g(false) : true; g(true)); f()"⟩
    Compiler.compile {} "f() = (g(n) = n; g(n) = n ? g(false) : true; g(true)); f()"
        = .ok redefining ∧
      Compiler.compile {} "f() = (g(n) = n ? g(false) : true; g(true)); f()" = .ok defining ∧
      (redefining.evaluate {}).1 = .ok (.bool false) ∧
      (defining.evaluate {}).1 = .ok (.bool true) :=
  ⟨rfl, rfl, rfl, rfl⟩

end Evaluation
end Formula
