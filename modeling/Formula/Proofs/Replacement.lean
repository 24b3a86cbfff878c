import Formula.Proofs.Passive
import Formula.Proofs.Simplification
import Formula.Proofs.SubstitutionTrees
import Formula.Proofs.TreeSemantics

/-! # A copy in place of a variable

Where an expression that only reads and computes has the value of a variable, it may be put in the
place of the variable: the expression with the copies answers what the expression answered, or
fails in the same way, leaves the same variables and calls the host in the same way
(`substitute_preserves`).  The copies are evaluated again at every site, later and among other
variables, and may be nested deeper than the variable was; so nothing is said of a run that stops at
the ceiling.

Where the copies stand, no name that they read may be stored to, be a parameter, or name a function:
then these names keep their values for the whole run (`Tracks`), and a copy pushes at every site
what the variable pushed.  In the comparison the run with the copies stands on the left.
-/
namespace Formula

/-- The names that a term itself gives a new meaning, leaving its parts aside: the variable it
stores to, or the name and the parameters of the function it defines. -/
def Term.binds : Term → List String
  | .assign root path _ => (pathNames (targetName root path)).head?.toList
  | .define name params _ => name :: params
  | _ => []

/-- Nothing in the term, at any depth, gives a new meaning to a name of the table. -/
def Term.Keeps (names : Dict Value) (t : Term) : Prop :=
  t.Everywhere fun part => ∀ name ∈ part.binds, names.contains name = false

/-- The function has the body, or that body with the copies in place of the variable. -/
def SubstitutedBody (x : String) (replacement : Program) (c : Closure) (body : Program) : Prop :=
  c.body = body ∨ c.body = body.substitute x replacement

/-- A function of the expression with the copies: its body is the body `body` with the copies, and
none of the names that the copies read is hidden in it. -/
structure CopiedFrom (known : Dict Value) (x : String) (w : Term) (c : Closure) (body : Program)
    (t : Term) : Prop where
  code : body = t.code
  copied : c.body = (Term.substitute x w t).code
  keeps : t.Keeps known
  name : known.contains c.name = false
  params : ∀ param ∈ c.params, known.contains param = false
  captured : ∀ locals ∈ c.captured, ∀ name, known.contains name = true →
    Dict.get? locals name = none

/-- The function has the body, or that body with the copies. -/
def CopiedBody (known : Dict Value) (x : String) (w : Term) (c : Closure) (body : Program) : Prop :=
  c.body = body ∨ ∃ t, CopiedFrom known x w c body t

namespace Evaluation

/-- The comparison of runs on variables that are alike, of which the left one may stop at the
ceiling. -/
def copying (bodies : Closure → Program → Prop) (known active : Dict Value) : Comparison :=
  { tracking bodies known active with excusesLeft := Error.AtCeiling }

section
variable {bodies : Closure → Program → Prop} {known active : Dict Value}

theorem copying_of_simulates {α β : Type} {R : α → β → Prop} {m : Evaluation α}
    {n : Evaluation β} (h : Simulates bodies known active R m n) :
    (copying bodies known active).Relates R m n := by
  intro s s' hs
  have hmn := h s s' hs
  generalize m s = x at hmn
  generalize n s' = y at hmn
  cases hmn with
  | ok h hs => exact .ok h hs
  | error e hs => exact .error e hs

/-- A call enters bodies that correspond, where no local variable hides a name of `inner`. -/
theorem copying_withLocals {inner : Dict Value} {m n : Evaluation Value}
    (h : (copying bodies known inner).Relates (Like bodies) m n) {locals locals' : Dict Value}
    (hl : Dict.Rel (Like bodies) locals locals')
    (hidden : ∀ name, inner.contains name = true → locals.get? name = none) :
    (copying bodies known active).Relates (Like bodies) (withLocals locals m)
      (withLocals locals' n) :=
  .withLocals h (fun _ h => h) (fun _ h => h) (fun _ _ hs => hs.enter hl hidden)
    fun _ _ _ _ hs hu => hs.leave hu

/-- Functions that are alike are called alike, whatever is active where they are called. -/
def CallsCopied (bodies : Closure → Program → Prop) (known : Dict Value)
    (run : Program → Evaluation Value) : Prop :=
  ∀ active c d xs ys, Like bodies (.function (.closure c)) (.function (.closure d)) →
    List.Forall₂ (Like bodies) xs ys → (copying bodies known active).Relates (Like bodies)
      (withLocals (localsOf c xs) (run c.body)) (withLocals (localsOf d ys) (run d.body))

theorem copying_call {functions : Registry} {run : Program → Evaluation Value}
    (hblind : functions.Blind) (hrefl : ∀ c, bodies c c.body)
    (hcalls : CallsCopied bodies known run) (f g : Value) (xs ys : List Value)
    (hfg : Like bodies f g) (hargs : List.Forall₂ (Like bodies) xs ys) :
    (copying bodies known active).Relates (Like bodies) (call functions run f xs)
      (call functions run g ys) :=
  Comparison.relates_call
    (fun _ hmem => copying_of_simulates (simulates_callHost hblind hrefl hmem hargs))
    (fun c d hcd => hcalls active c d xs ys hcd hargs) hfg hargs

end

/-! ## One site -/

/-- The variable is one that is known, and `w` has its value wherever the known names have their
values, leaving the scope as it was, unless it stops at the ceiling. -/
structure StandsFor (options : Options) (functions : Registry) (known : Dict Value) (x : String)
    (w : Term) (v : Value) : Prop where
  isKnown : known.get? x = some v
  unprotected : isProtected x = false
  unregistered : functions.contains x = false
  noOperator : options.namedOp? x = none
  settled : ∀ depth s, (∀ name u, known.get? name = some u → s.get? name = some u) →
    (∃ e s', settled options functions (run options functions depth) w s = .error e s' ∧
        e.AtCeiling) ∨
      settled options functions (run options functions depth) w s = .ok v s

section
variable {bodies : Closure → Program → Prop} {options : Options} {functions : Registry}
  {known : Dict Value} {x : String} {w : Term} {v : Value}

/-- An active name has its known value, whatever is local. -/
theorem Tracks.get?_known {active : Dict Value} {s s' : Scope}
    (h : Tracks bodies known active s s') {name : String} {u : Value}
    (hu : known.get? name = some u) (hactive : active.contains name = true) :
    s.get? name = some u := by
  unfold Scope.get?
  cases hl : s.locals with
  | none => simpa using h.fixed name u hu
  | some locals => simpa [h.hidden locals hl name hactive] using h.fixed name u hu

/-- The value of the variable, wherever the known names are active. -/
theorem StandsFor.lookup (h : StandsFor options functions known x w v) {s s' : Scope}
    (hs : Tracks bodies known known s s') :
    ∃ v', Like bodies v v' ∧ lookup options functions x s' = .ok v' s' := by
  have hactive : known.contains x = true := by rw [Dict.contains, h.isKnown]; rfl
  have hrel := hs.get? x
  rw [hs.get?_known h.isKnown hactive] at hrel
  cases hv' : s'.get? x with
  | none => rw [hv'] at hrel; cases hrel
  | some v' =>
    rw [hv'] at hrel
    cases hrel with
    | some hlike =>
      exact ⟨v', hlike, lookup_variable h.unprotected h.unregistered h.noOperator hv'⟩

/-- Whenever the copy is settled, it has the value of the variable. -/
theorem StandsFor.relates_settled (h : StandsFor options functions known x w v) {v' : Value}
    (hv : Like bodies v v') (depth : Nat) :
    (copying bodies known known).Relates (Like bodies)
      (Evaluation.settled options functions (run options functions depth) w) (pure v') := by
  intro s s' hs
  rcases h.settled depth s (fun name u hu => hs.get?_known hu (by rw [Dict.contains, hu]; rfl)) with
    ⟨e, u, hstop, he⟩ | hok
  · rw [hstop]
    exact .left he u _
  · rw [hok]
    exact .ok hv hs

/-- **A copy leaves at its site what the variable leaves.** -/
theorem StandsFor.matches (h : StandsFor options functions known x w v) (depth : Nat) :
    (copying bodies known known).Matches options functions (run options functions depth)
      (run options functions depth) w (.var x) := by
  intro s s' hs
  obtain ⟨v', hv, hlookup⟩ := h.lookup hs
  have hright : pushed options functions (run options functions depth) (.var x) s'
      = .ok (.value v') s' := bind_of_ok hlookup _
  rw [hright]
  by_cases hsequence : w.isSequence = true
  · -- a sequence waits, and has the value when it is wanted
    cases w with
    | sequence first rest => exact .ok (h.relates_settled hv depth) hs
    | _ => cases hsequence
  · rw [pushed_of_not_sequence (Bool.not_eq_true _ ▸ hsequence)]
    exact Comparison.Relates.value (h.relates_settled hv depth) s s' hs

end

/-! ## Terms with copies -/

section
variable {options : Options} {functions : Registry} {known : Dict Value} {x : String} {w : Term}
  {v : Value} {run : Program → Evaluation Value}

theorem copiedBody_refl (c : Closure) : CopiedBody known x w c c.body := .inl rfl

/-- A function that is defined where copies were put in. -/
theorem copiedFrom_of_define {name : String} {params : List String} {body : Term}
    (h : (Term.define name params body).Keeps known) (id : Nat) {captured : Option (Dict Value)}
    (hcaptured : ∀ locals ∈ captured, ∀ other, known.contains other = true →
      Dict.get? locals other = none) :
    CopiedFrom known x w ⟨id, name, params, (Term.substitute x w body).code, captured⟩ body.code
      body :=
  ⟨rfl, rfl, h.child (.head _), h.here name (.head _), fun param hparam =>
    h.here param (.tail _ hparam), hcaptured⟩

/-- At one depth: statements with copies do what the statements do, and every program does the same
on variables that are alike. -/
structure RunsCopied (known : Dict Value) (x : String) (w : Term)
    (run : Program → Evaluation Value) : Prop where
  copied : ∀ first rest, Term.Keeps known first → (∀ t ∈ rest, Term.Keeps known t) →
    (copying (CopiedBody known x w) known known).Relates (Like (CopiedBody known x w))
      (run ((Term.substitute x w first).code ++ statementsCode (substituteTerms x w rest)))
      (run (first.code ++ statementsCode rest))
  same : ∀ p, (copying (CopiedBody known x w) known []).Relates (Like (CopiedBody known x w))
    (run p) (run p)

theorem RunsCopied.code (h : RunsCopied known x w run) {t : Term} (ht : t.Keeps known) :
    (copying (CopiedBody known x w) known known).Defers run run (Term.substitute x w t) t := by
  have hcode := h.copied t [] ht (by simp)
  rwa [substituteTerms, statementsCode, List.append_nil, List.append_nil] at hcode

/-- A call enters a body, or the body with copies, where no parameter or local hides a known
name. -/
theorem RunsCopied.calls (h : RunsCopied known x w run) :
    CallsCopied (CopiedBody known x w) known run := by
  intro active c d xs ys hcd hargs
  obtain ⟨hname, hparams, hbody, hcaptured⟩ := hcd.of_closure
  have hlocals := rel_localsOf hcd hargs
  have hsame : c.body = d.body → (copying (CopiedBody known x w) known active).Relates
      (Like (CopiedBody known x w)) (withLocals (localsOf c xs) (run c.body))
      (withLocals (localsOf d ys) (run d.body)) := by
    intro hbody
    rw [hbody]
    exact copying_withLocals (h.same d.body) hlocals fun _ hnone => nomatch hnone
  rcases hbody with rfl | hbody | ⟨t, hcopied⟩
  · exact hsame rfl
  · exact hsame hbody
  · rw [hcopied.code, hcopied.copied]
    refine copying_withLocals (h.code hcopied.keeps) hlocals fun name hactive => ?_
    refine get?_localsOf ?_ ?_ fun locals hl => hcopied.captured locals hl name hactive
    · rintro rfl
      rw [hcopied.name] at hactive
      cases hactive
    · intro hparam
      rw [hcopied.params name hparam] at hactive
      cases hactive

/-- **A term with copies leaves what the term leaves**, at one level. -/
theorem matches_substitute (hblind : functions.Blind) (hruns : RunsCopied known x w run)
    (hsite : (copying (CopiedBody known x w) known known).Matches options functions run run w
      (.var x)) {t : Term} (ht : t.Keeps known) :
    (copying (CopiedBody known x w) known known).Matches options functions run run
      (Term.substitute x w t) t := by
  induction t with
  | literal v => exact .literal v
  | undefined => exact .undefined
  | var name =>
    rw [Term.substitute]
    split
    · rename_i hname
      rw [hname]
      exact hsite
    · exact .var (copying_of_simulates (simulates_lookup options functions name))
  | unary op operand ih => exact .unary op (ih (ht.child (.head _)))
  | binary op left right ihl ihr =>
    exact .binary op (ihl (ht.child (.head _))) (ihr (ht.child (.tail _ (.head _))))
  | and left right ihl _ =>
    exact .and (ihl (ht.child (.head _))) (hruns.code (ht.child (.tail _ (.head _))))
  | or left right ihl _ =>
    exact .or (ihl (ht.child (.head _))) (hruns.code (ht.child (.tail _ (.head _))))
  | choose condition yes no ihc _ _ =>
    exact .choose (ihc (ht.child (.head _))) (hruns.code (ht.child (.tail _ (.head _))))
      (hruns.code (ht.child (.tail _ (.tail _ (.head _)))))
  | caseOf subject arms otherwise ihs _ _ =>
    refine .caseOf (optionRel_substituteOption fun t hmem => ?_)
      (forall₂_substituteArms fun arm hmem => ?_) (optionRel_substituteOption fun t hmem => ?_)
    · exact ihs t hmem (ht.child (subject_mem_children hmem))
    · obtain ⟨hcondition, hresult⟩ := mem_children_of_arm hmem
      exact ⟨hruns.code (ht.child hcondition), hruns.code (ht.child hresult)⟩
    · exact hruns.code (ht.child (otherwise_mem_children hmem))
  | member target name ih => exact .member name (ih (ht.child (.head _)))
  | index target key iht ihk =>
    exact .index (iht (ht.child (.head _))) (ihk (ht.child (.tail _ (.head _))))
  | call callee arguments ihc iha =>
    exact .call (copying_call hblind copiedBody_refl hruns.calls) (ihc (ht.child (.head _)))
      (forall₂_substituteTerms fun t hmem => iha t hmem (ht.child (.tail _ hmem)))
  | array items ih =>
    exact .array (forall₂_substituteTerms fun t hmem => ih t hmem (ht.child hmem))
  | object fields ih =>
    exact .object (forall₂_substituteFields fun field hmem =>
      ih field hmem (ht.child (List.mem_map_of_mem hmem)))
  | assign root path value _ =>
    have hroot : ∀ name ∈ (pathNames (targetName root path)).head?,
        known.contains name = false :=
      fun name hname => ht.here name (by simpa [Term.binds] using hname)
    exact .assign (fun v w hvw => copying_of_simulates (simulates_assign options hroot hvw))
      (hruns.code (ht.child (.head _)))
  | define name params body _ =>
    refine .define (copying_of_simulates (simulates_makeFunction (ht.here name (.head _)) ?_))
    exact fun id captured hcaptured => .inr ⟨body, copiedFrom_of_define ht id hcaptured⟩
  | sequence first rest _ _ =>
    exact .sequence (hruns.copied first rest (ht.child (.head _))
      fun t hmem => ht.child (.tail _ hmem))

end

/-! ## All levels -/

section
variable {options : Options} {functions : Registry} {known : Dict Value} {x : String} {w : Term}
  {v : Value}

/-- At every depth. -/
theorem runsCopied (hblind : functions.Blind) (hw : StandsFor options functions known x w v)
    (depth : Nat) : RunsCopied known x w (run options functions depth) := by
  induction depth with
  | zero => exact ⟨fun _ _ _ _ => .fail _, fun _ => .fail _⟩
  | succ depth ih =>
    constructor
    · intro first rest hfirst hrest
      -- everything that the statements run or call is run at the depth below
      rw [run, run, execute_statements, execute_statements]
      have hmatches : ∀ t : Term, t.Keeps known →
          (copying (CopiedBody known x w) known known).Matches options functions
            (run options functions depth) (run options functions depth) (Term.substitute x w t) t :=
        fun t => matches_substitute hblind ih (hw.matches depth)
      exact Comparison.relates_settledLast (hmatches first hfirst)
        (forall₂_substituteTerms fun t hmem => hmatches t (hrest t hmem))
    · intro p
      have hsame : ∀ p q, p = q → (copying (CopiedBody known x w) known []).Relates
          (Like (CopiedBody known x w)) (run options functions depth p)
          (run options functions depth q) := by
        rintro p _ rfl
        exact ih.same p
      refine Comparison.relates_execute hsame (fun instr _ => ?_) .nil
      constructor
      · exact fun name _ => copying_of_simulates (simulates_lookup options functions name)
      · exact fun body _ => rfl
      · exact fun _ path v w hvw =>
          copying_of_simulates (simulates_assign options (fun _ _ => rfl) hvw)
      · rintro _ _ name params p _ rfl
        exact copying_of_simulates (simulates_makeFunction rfl fun _ _ _ => copiedBody_refl _)
      · exact fun _ _ => copying_call hblind copiedBody_refl ih.calls

/-- A term without assignments, definitions and calls stands for a variable that has its value, as
long as the variables that it reads are known. -/
theorem standsFor_of_passive {context : Context} {s' : Scope} (hpassive : w.Everywhere Term.Passive)
    (hreads : ∀ name u, Term.Within (.var name) w → context.globals.get? name = some u →
      known.get? name = some u)
    (hvalue : run options functions options.maxDepth w.code { context with } = .ok v s')
    (hknown : known.get? x = some v) (hprotected : isProtected x = false)
    (hfunction : functions.contains x = false) (hop : options.namedOp? x = none) :
    StandsFor options functions known x w v := by
  refine ⟨hknown, hprotected, hfunction, hop, fun depth s hs => settled_elsewhere ?_ hvalue depth⟩
  intro part hpart
  refine ⟨hpassive part hpart, ?_⟩
  rintro name rfl u hu
  exact hs name u (hreads name u hpart hu)

end
end Evaluation

/-! ## Expressions with copies -/

/-- Runs that correspond are evaluations that do, if neither ends with an excused error. -/
theorem Expression.sameOutcome_of_runs (e e' : Expression) {context : Context}
    {C : Evaluation.Comparison}
    {bodies : Closure → Program → Prop} (hbodies : ∀ c body, C.bodies c body → bodies c body)
    (hscopes : ∀ s s', C.scopes s s' → ContextLike bodies s.toContext s'.toContext)
    (hleft : ∀ error s, Evaluation.run e.options e.functions e.options.maxDepth e.program
      { context with } = .error error s → ¬ C.excusesLeft error)
    (hright : ∀ error s, Evaluation.run e'.options e'.functions e'.options.maxDepth e'.program
      { context with } = .error error s → ¬ C.excusesRight error)
    (hruns : C.Outcome (Like C.bodies)
      (Evaluation.run e.options e.functions e.options.maxDepth e.program { context with })
      (Evaluation.run e'.options e'.functions e'.options.maxDepth e'.program { context with })) :
    SameOutcome bodies (e.evaluate context).1 (e'.evaluate context).1 ∧
      ContextLike bodies (e.evaluate context).2 (e'.evaluate context).2 := by
  cases hrun : Evaluation.run e.options e.functions e.options.maxDepth e.program
      { context with } with
  | ok v s =>
    cases hrun' : Evaluation.run e'.options e'.functions e'.options.maxDepth e'.program
        { context with } with
    | ok v' s' =>
      rw [hrun, hrun'] at hruns
      cases hruns with
      | ok h hs =>
        rw [Expression.evaluate_of_ok hrun, Expression.evaluate_of_ok hrun']
        exact ⟨.ok (h.mono hbodies), hscopes _ _ hs⟩
    | error error' s' =>
      rw [hrun, hrun'] at hruns
      cases hruns with
      | right h => exact absurd h (hright _ _ hrun')
  | error error s =>
    rw [hrun] at hruns
    cases hrun' : Evaluation.run e'.options e'.functions e'.options.maxDepth e'.program
        { context with } with
    | ok v' s' =>
      rw [hrun'] at hruns
      cases hruns with
      | left h => exact absurd h (hleft _ _ hrun)
    | error error' s' =>
      rw [hrun'] at hruns
      cases hruns with
      | left h => exact absurd h (hleft _ _ hrun)
      | right h => exact absurd h (hright _ _ hrun')
      | error _ hs =>
        obtain ⟨named, hevaluate, hfault⟩ := Expression.evaluate_of_error hrun
        obtain ⟨named', hevaluate', hfault'⟩ := Expression.evaluate_of_error hrun'
        rw [hevaluate, hevaluate']
        refine ⟨.error ?_ ?_, hscopes _ _ hs⟩
        · rw [Error.kind, Error.kind, hfault, hfault']
        · rw [Error.message, Error.message, hfault, hfault']

/-- The entries whose names have a property. -/
theorem Dict.exists_restriction {α : Type} (entries : Dict α) (P : String → Prop) :
    ∃ part : Dict α, ∀ name v, part.get? name = some v ↔ P name ∧ entries.get? name = some v := by
  classical
  refine ⟨entries.eraseAll (entries.names.filter fun name => ¬ P name), fun name v => ?_⟩
  rw [Dict.get?_eraseAll]
  constructor
  · intro h
    split at h
    · cases h
    · rename_i hname
      have hmem : name ∈ entries.names := List.mem_map_of_mem (Dict.mem_of_get? h)
      refine ⟨?_, h⟩
      by_contra hP
      exact hname (List.mem_filter.mpr ⟨hmem, by simpa using hP⟩)
  · rintro ⟨hP, h⟩
    rw [if_neg, h]
    intro hname
    exact absurd hP (by simpa using (List.mem_filter.mp hname).2)

/-- **A passive expression may stand in the place of a variable that has its value.**  Let `w` be
an expression without assignments, definitions and calls, whose value on the given variables is
that of the variable `x`, a variable that is no registered function, no operator and no protected
name.  Let no part of the expression `t` store to `x` or to a name that `w` reads, or define a
function of such a name or with such a parameter.  Then with `w` in place of `x` the expression
gives the same answer, or an error of the same kind with the same message, leaves the same variables
and makes the same calls of the host, unless with `w` it stops at the ceiling; functions may differ
in that their bodies have `w` in place of `x`. -/
theorem substitute_preserves {e r : Expression} {t w : Term} (hcode : e.program = t.code)
    (hreplacement : r.program = w.code) (hpassive : w.Everywhere Term.Passive) {x : String}
    (hbinds : ∀ name, name = x ∨ Term.Within (.var name) w →
      t.Everywhere fun part => name ∉ part.binds)
    (hprotected : isProtected x = false) (hfunction : e.functions.contains x = false)
    (hop : e.options.namedOp? x = none) (hblind : e.functions.Blind) {context : Context} {v : Value}
    (hvalue : (r.program.evaluate e.options e.functions context).1 = .ok v)
    (hx : context.globals.get? x = some v)
    (hceiling : ¬ StopsAtCeiling ((e.substitute x r).evaluate context).1) :
    SameOutcome (SubstitutedBody x r.program) ((e.substitute x r).evaluate context).1
        (e.evaluate context).1 ∧
      ContextLike (SubstitutedBody x r.program) ((e.substitute x r).evaluate context).2
        (e.evaluate context).2 := by
  obtain ⟨known, hknown⟩ := context.globals.exists_restriction
    fun name => name = x ∨ Term.Within (.var name) w
  have hbodies : ∀ c body, CopiedBody known x w c body → SubstitutedBody x r.program c body := by
    rintro c body (hbody | ⟨t, hcopied⟩)
    · exact .inl hbody
    · exact .inr (by rw [hcopied.copied, hcopied.code, hreplacement, substitute_code])
  have hkeeps : t.Keeps known := by
    intro part hpart name hname
    by_contra hcontains
    obtain ⟨u, hu⟩ := Option.isSome_iff_exists.mp (Bool.not_eq_false _ ▸ hcontains)
    exact hbinds name ((hknown name u).mp hu).1 part hpart hname
  have hstart : Evaluation.Tracks (CopiedBody known x w) known known { context with }
      { context with } := by
    refine ⟨⟨likeEntries_refl _, rfl, ?_⟩, .none, fun name u hu => ((hknown name u).mp hu).2, ?_,
      fun _ _ h => h⟩
    · exact List.forall₂_same.mpr fun call _ => ⟨rfl, rfl, likeAll_refl _⟩
    · rintro _ ⟨⟩
  obtain ⟨s', hrun⟩ : ∃ s', Evaluation.run e.options e.functions e.options.maxDepth w.code
      { context with } = .ok v s' := Program.exists_run_of_ok (hreplacement ▸ hvalue)
  have hw := Evaluation.standsFor_of_passive hpassive
    (fun name u hname hu => (hknown name u).mpr ⟨.inr hname, hu⟩) hrun
    ((hknown x v).mpr ⟨.inl rfl, hx⟩) hprotected hfunction hop
  have hcopied := (Evaluation.runsCopied hblind hw e.options.maxDepth).code hkeeps _ _ hstart
  have hsubstituted : (e.substitute x r).program = (Term.substitute x w t).code := by
    rw [Expression.program_substitute, hcode, hreplacement, substitute_code]
  rw [← hcode, ← hsubstituted] at hcopied
  refine Expression.sameOutcome_of_runs (e.substitute x r) e
    (C := Evaluation.copying (CopiedBody known x w) known known) hbodies
    (fun s s' hs => hs.context.mono hbodies) (fun error s hrun hstop => ?_) (fun _ _ _ h => h)
    hcopied
  exact hceiling (Expression.stopsAtCeiling_of_run (e := e.substitute x r) hrun hstop)

/-- The statements `p; q` in the place of `v` in `f(k) = k || v; f(v)`, where `v` and `q` are
true. -/
theorem substitute_preserves_statements_in_body :
    ∃ (c : Compiler) (e r : Expression) (t w : Term),
      let context : Context :=
        { globals := [("p", .bool false), ("q", .bool true), ("v", .bool true)] }
      c.compile "f(k) = k || v; f(v)" = .ok e ∧ c.compile "(p; q)" = .ok r ∧
      e.program = t.code ∧ r.program = w.code ∧ w.Everywhere Term.Passive ∧
      (∀ name, name = "v" ∨ Term.Within (.var name) w →
        t.Everywhere fun part => name ∉ part.binds) ∧
      isProtected "v" = false ∧ e.functions.contains "v" = false ∧
      e.options.namedOp? "v" = none ∧ e.functions.Blind ∧
      (r.program.evaluate e.options e.functions context).1 = .ok (.bool true) ∧
      context.globals.get? "v" = some (.bool true) ∧
      ¬ StopsAtCeiling ((e.substitute "v" r).evaluate context).1 ∧
      (e.substitute "v" r).program = [.sub [.name "f", .name "k", .sub [.var "k",
        .sub [.var "p", .endStatement, .var "q"], .binary .concatenate], .define 1, .endStatement,
        .var "f", .sub [.var "p", .endStatement, .var "q"], .call 1]] ∧
      SameOutcome (SubstitutedBody "v" r.program) ((e.substitute "v" r).evaluate context).1
          (e.evaluate context).1 ∧
        ContextLike (SubstitutedBody "v" r.program) ((e.substitute "v" r).evaluate context).2
          (e.evaluate context).2 := by
  let w : Term := .sequence (.var "p") [.var "q"]
  let body : Term := .binary .concatenate (.var "k") (.var "v")
  let t : Term := .sequence (.define "f" ["k"] body) [.call (.var "f") [.var "v"]]
  let c : Compiler := { functions := {}, constants := [] }
  let e : Expression := ⟨t.code, c.options, c.functions, some "f(k) = k || v; f(v)"⟩
  let r : Expression := ⟨w.code, c.options, c.functions, some "(p; q)"⟩
  let context : Context :=
    { globals := [("p", .bool false), ("q", .bool true), ("v", .bool true)] }
  have hleaf {H : Term → Prop} {name : String} (h : H (.var name)) :
      (Term.var name).Everywhere H := Term.everywhere_of_children h (by rintro _ ⟨⟩)
  have hw {H : Term → Prop} (h : H w) (hp : H (.var "p")) (hq : H (.var "q")) :
      w.Everywhere H :=
    Term.everywhere_of_children h
      (List.forall_mem_cons.mpr ⟨hleaf hp, List.forall_mem_singleton.mpr (hleaf hq)⟩)
  have hpassive : w.Everywhere Term.Passive := hw trivial trivial trivial
  have hreads : ∀ name, name = "v" ∨ Term.Within (.var name) w →
      name = "v" ∨ name = "p" ∨ name = "q" := by
    rintro name (hname | hname)
    · exact .inl hname
    · have hparts : w.Everywhere fun part => ∀ name, part = .var name → name = "p" ∨ name = "q" :=
        hw (fun _ h => nomatch h) (fun _ h => .inl (Term.var.inj h).symm)
          (fun _ h => .inr (Term.var.inj h).symm)
      exact .inr (hparts _ hname name rfl)
  have hbinds : ∀ name, name = "v" ∨ Term.Within (.var name) w →
      t.Everywhere fun part => name ∉ part.binds := by
    intro name hname
    have hdiffers : name ∉ ["f", "k"] := by
      rcases hreads name hname with rfl | rfl | rfl <;> decide
    have hbody : body.Everywhere fun part => name ∉ part.binds :=
      Term.everywhere_of_children List.not_mem_nil (List.forall_mem_cons.mpr
        ⟨hleaf List.not_mem_nil, List.forall_mem_singleton.mpr (hleaf List.not_mem_nil)⟩)
    have hdefine : (Term.define "f" ["k"] body).Everywhere fun part => name ∉ part.binds :=
      Term.everywhere_of_children hdiffers (List.forall_mem_singleton.mpr hbody)
    have hcall : (Term.call (.var "f") [.var "v"]).Everywhere fun part => name ∉ part.binds :=
      Term.everywhere_of_children List.not_mem_nil (List.forall_mem_cons.mpr
        ⟨hleaf List.not_mem_nil, List.forall_mem_singleton.mpr (hleaf List.not_mem_nil)⟩)
    exact Term.everywhere_of_children List.not_mem_nil
      (List.forall_mem_cons.mpr ⟨hdefine, List.forall_mem_singleton.mpr hcall⟩)
  have hblind : e.functions.Blind := by
    rintro entry ⟨⟩
  have hvalue : (r.program.evaluate e.options e.functions context).1 = .ok (.bool true) := rfl
  have hresult : ((e.substitute "v" r).evaluate context).1 = .ok (.string "truetrue") := rfl
  have hceiling : ¬ StopsAtCeiling ((e.substitute "v" r).evaluate context).1 := by
    rintro ⟨error, herror, -⟩
    rw [hresult] at herror
    cases herror
  exact ⟨c, e, r, t, w, rfl, rfl, rfl, rfl, hpassive, hbinds, rfl, rfl, rfl, hblind, hvalue, rfl,
    hceiling, rfl, substitute_preserves rfl rfl hpassive hbinds rfl rfl rfl hblind hvalue rfl
      hceiling⟩

end Formula
