import Formula.Proofs.Regimes
import Formula.Proofs.Simplification

/-! # What evaluation leaves alone

A run stores to the variables of the caller only under the names that its program stores to outside
of the bodies of functions; every other variable has afterwards the value it had, or is missing as
before, also if the run failed on the way (`evaluate_frame`).

Bodies of functions store to local variables.  That a function leaves the caller's variables alone
holds of every function, wherever it comes from, so it is an invariant of arbitrary programs
(`call_closure_frame`); what the code of a term stores itself is a matter of its regime.
-/
namespace Formula

/-- The first term stands in the second outside of the bodies of functions defined there. -/
inductive Term.Outside : Term → Term → Prop
  | self (t : Term) : Outside t t
  | deeper {s t part : Term} : part ∈ t.running → Outside s part → Outside s t

/-- Nothing in the term, outside of the bodies of functions, stores to the name. -/
def Term.LeavesAlone (t : Term) (name : String) : Prop :=
  ∀ s, Term.Outside s t → s.storesTo? ≠ some name

theorem Term.LeavesAlone.part {t part : Term} {name : String} (h : t.LeavesAlone name)
    (hp : part ∈ t.running) : part.LeavesAlone name := fun s hs => h s (.deeper hp hs)

theorem Term.LeavesAlone.intro {t : Term} {name : String} (hown : t.storesTo? ≠ some name)
    (hparts : ∀ part ∈ t.running, part.LeavesAlone name) : t.LeavesAlone name := by
  intro s hs
  cases hs with
  | self => exact hown
  | deeper hp hs => exact hparts _ hp s hs

namespace Evaluation

/-! ## Inside the bodies of functions -/

/-- While a function body runs, nothing changes the variables of the caller. -/
theorem invariant_globals (functions : Registry) (globals : Dict Value) :
    Invariant functions fun s => s.globals = globals ∧ s.locals.isSome where
  store s name v h := by
    obtain ⟨locals, hlocals⟩ := Option.isSome_iff_exists.mp h.2
    rw [Scope.set, hlocals]
    exact ⟨h.1, rfl⟩
  identity s h := h
  enter s locals h := ⟨h.1, rfl⟩
  leave s inner h hinner := ⟨hinner.1, h.2⟩
  host s id f arguments hf h := h

/-- **The call of a function that a program defined changes no variable**, neither of the caller nor
of the place of the call, whatever its body does and however it ends. -/
theorem call_closure_frame (options : Options) (functions : Registry) (depth : Nat) (c : Closure)
    (arguments : List Value) (s : Scope) :
    (finalScope (call functions (run options functions depth) (.function (.closure c)) arguments)
        s).globals = s.globals ∧
      (finalScope (call functions (run options functions depth) (.function (.closure c)) arguments)
        s).locals = s.locals := by
  have hbody := (invariant_globals functions s.globals).run options depth c.body
    { s with locals := some (localsOf c arguments) } ⟨rfl, rfl⟩
  unfold finalScope call withLocals
  dsimp only
  cases hr : run options functions depth c.body
      { s with locals := some (localsOf c arguments) } with
  | ok v inner =>
    rw [hr] at hbody
    exact ⟨hbody.2.1, rfl⟩
  | error e inner =>
    rw [hr] at hbody
    exact ⟨hbody.1, rfl⟩

/-- A call keeps what depends on the variables of the caller and of the place of the call. -/
theorem maintains_call {options : Options} {functions : Registry} {I : Scope → Prop}
    (hI : ∀ s s' : Scope, s'.globals = s.globals → s'.locals = s.locals → I s → I s')
    (depth : Nat) (callee : Value) (arguments : List Value) :
    Maintains I (call functions (run options functions depth) callee arguments) := by
  cases callee with
  | function f =>
    cases f with
    | named op => exact Maintains.pure _
    | host id hostName =>
      unfold Evaluation.call
      dsimp only
      split
      · exact maintains_callHost fun s hs => hI s _ rfl rfl hs
      · exact Keeps.fail _
    | closure c =>
      intro s hs
      obtain ⟨hglobals, hlocals⟩ := call_closure_frame options functions depth c arguments s
      unfold finalScope at hglobals hlocals
      cases hr : Evaluation.call functions (run options functions depth) (.function (.closure c))
          arguments s with
      | ok v s' =>
        rw [hr] at hglobals hlocals
        exact ⟨trivial, hI s s' hglobals hlocals hs⟩
      | error e s' =>
        rw [hr] at hglobals hlocals
        exact hI s s' hglobals hlocals hs
  | _ => exact Keeps.fail _

/-! ## Outside of them -/

section
variable {options : Options} {functions : Registry} {name : String} {old : Option Value}

/-- Outside of all functions, the variable of the caller has the old value. -/
def Holds (name : String) (old : Option Value) (s : Scope) : Prop :=
  s.locals = none ∧ s.globals.get? name = old

theorem Holds.set {s : Scope} (h : Holds name old s) {other : String} (hne : other ≠ name)
    (v : Value) : Holds name old (s.set other v) := by
  rw [Scope.set, h.1]
  refine ⟨rfl, ?_⟩
  rw [Dict.get?_insert_ne _ _ hne]
  exact h.2

theorem Holds.call (depth : Nat) (callee : Value) (arguments : List Value) :
    Maintains (Holds name old) (call functions (run options functions depth) callee arguments) :=
  maintains_call (fun s s' hglobals hlocals hs =>
    ⟨hlocals.trans hs.1, by rw [hglobals]; exact hs.2⟩) depth callee arguments

/-- Terms that leave a name alone keep its value. -/
theorem regime_holds (options : Options) (functions : Registry) (name : String)
    (old : Option Value) :
    Regime options functions (Holds name old) (fun _ => True) fun t => t.LeavesAlone name where
  part h hp := h.part hp
  undefined := trivial
  bool _ := trivial
  array _ := trivial
  object _ _ := trivial
  literal _ := trivial
  unary _ _ _ := trivial
  binary _ _ _ _ := trivial
  member _ _ _ := trivial
  index _ _ _ _ := trivial
  lookup _ := compositional_maintains.lookup _ _ _
  assign h _ := maintains_assign (fun _ _ v hroot hs => hs.set
    (fun hname => h _ (.self _) (hname ▸ hroot)) v) _ _
  define h := maintains_makeFunction (fun _ hs => hs) (fun _ v hs => hs.set
    (fun hname => h _ (.self _) (hname ▸ rfl)) v) _ _
  call _ _ _ := Holds.call _ _ _

/-- Outside of all functions there are no local variables. -/
def Outermost (s : Scope) : Prop := s.locals = none

theorem Outermost.set {s : Scope} (h : Outermost s) (name : String) (v : Value) :
    Outermost (s.set name v) := by
  rw [Scope.set, h]
  rfl

/-- Every term leaves the functions that it enters. -/
theorem regime_outermost (options : Options) (functions : Registry) :
    Regime options functions Outermost (fun _ => True) (fun _ => True) where
  part _ _ := trivial
  undefined := trivial
  bool _ := trivial
  array _ := trivial
  object _ _ := trivial
  literal _ := trivial
  unary _ _ _ := trivial
  binary _ _ _ _ := trivial
  member _ _ _ := trivial
  index _ _ _ _ := trivial
  lookup _ := compositional_maintains.lookup _ _ _
  assign _ _ := maintains_assign (fun _ root v _ hs => hs.set root v) _ _
  define _ := maintains_makeFunction (fun _ hs => hs) (fun _ v hs => hs.set _ v) _ _
  call _ _ _ := maintains_call (fun _ _ _ hlocals hs => hlocals.trans hs) _ _ _

end
end Evaluation

/-- **Evaluation changes only what the expression stores to.**  A variable of the caller to which
nothing in the expression stores, outside of the bodies of functions, has after every evaluation,
successful or failed, the value it had, or is missing as before.  What is stored to in the bodies of
functions does not matter: at every depth, the call of a function that this or any other expression
defined changes no variable of the caller, and none of the place of the call. -/
theorem evaluate_frame {e : Expression} {t : Term} (hcode : e.program = t.code) :
    (∀ (context : Context) (name : String), t.LeavesAlone name →
      (e.evaluate context).2.globals.get? name = context.globals.get? name) ∧
    ∀ (depth : Nat) (c : Closure) (arguments : List Value) (s : Scope),
      let after := Evaluation.finalScope (Evaluation.call e.functions
        (Evaluation.run e.options e.functions depth) (.function (.closure c)) arguments) s
      after.globals = s.globals ∧ after.locals = s.locals := by
  refine ⟨fun context name ht => ?_, fun depth c arguments s =>
    Evaluation.call_closure_frame e.options e.functions depth c arguments s⟩
  have hrun := ((Evaluation.regime_holds e.options e.functions name
    (context.globals.get? name)).keeps_run e.options.maxDepth).code ht
  rw [← hcode] at hrun
  have hstart : Evaluation.Holds name (context.globals.get? name) { context with } := ⟨rfl, rfl⟩
  obtain ⟨-, s, hs, hafter⟩ := Expression.evaluate_of_keeps hrun hstart
  rw [hafter]
  exact hs.2

/-- `f(x) = y = x; f(true)` stores to a local `y`, although the caller has a variable of that
name. -/
theorem evaluate_frame_stored_in_body :
    ∃ (e : Expression) (t : Term) (context : Context),
      ({} : Compiler).compile "f(x) = y = x; f(true)" = .ok e ∧ e.program = t.code ∧
      t.LeavesAlone "y" ∧ (e.evaluate context).1 = .ok (.bool true) ∧
      (e.evaluate context).2.globals.get? "y" = some (.bool false) := by
  let t : Term := .sequence (.define "f" ["x"] (.assign "y" [] (.var "x")))
    [.call (.var "f") [.literal (.bool true)]]
  let e : Expression := ⟨t.code, {}, {}, some "f(x) = y = x; f(true)"⟩
  let context : Context := { globals := [("y", .bool false)] }
  have hleaves : t.LeavesAlone "y" := by
    have hdefine : Term.LeavesAlone (.define "f" ["x"] (.assign "y" [] (.var "x"))) "y" :=
      .intro (by simp [Term.storesTo?]) (by simp [Term.running])
    have hcall : Term.LeavesAlone (.call (.var "f") [.literal (.bool true)]) "y" :=
      .intro (by simp [Term.storesTo?]) (List.forall_mem_cons.mpr
        ⟨.intro (by simp [Term.storesTo?]) (by simp [Term.running, Term.children]),
          List.forall_mem_singleton.mpr
            (.intro (by simp [Term.storesTo?]) (by simp [Term.running, Term.children]))⟩)
    exact .intro (by simp [Term.storesTo?])
      (List.forall_mem_cons.mpr ⟨hdefine, List.forall_mem_singleton.mpr hcall⟩)
  have hframe := (evaluate_frame (e := e) (t := t) rfl).1 context "y" hleaves
  exact ⟨e, t, context, rfl, rfl, hleaves, rfl, hframe⟩

end Formula
