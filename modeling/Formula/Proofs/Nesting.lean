import Formula.Proofs.Blocks
import Formula.Proofs.Brackets
import Formula.Proofs.Ceiling
import Formula.Proofs.Frame
import Formula.Proofs.Matching
import Formula.Proofs.Pairing
import Formula.Proofs.Provenance

/-! # What nests in a text nests when it runs

The reader counts assignments, conditions and factors, the machine counts programs inside programs
and calls of functions.  The two agree almost: a term takes no more levels to run than the reader
was allowed to use for it (`nests_of_level`), the calls of functions apart.  The one exception is a
row of statements.  It is a program of its own, which the reader counts only inside of brackets, so
a text that is a row of statements may take one level more than the limit.

That a run comes to its ceiling only while a function is called is said by means of a machine that
may do anything at all where the run stops at the ceiling outside of calls: it makes no difference
(`Expression.StopsOnlyInCalls`).
-/
namespace Formula

/-! ## How deep terms nest -/

/-- The parts of a term that wait, to be run as programs of their own.  The body of a function is
none of them: it is run in calls. -/
def Term.waiting : Term → List Term
  | .and _ right | .or _ right => [right]
  | .choose _ yes no => [yes, no]
  | .caseOf _ arms otherwise => arms.flatMap (fun arm => [arm.1, arm.2]) ++ otherwise.toList
  | .assign _ _ value => [value]
  | .sequence first rest => first :: rest
  | _ => []

/-- The parts of a term whose code is a part of its code. -/
def Term.inline : Term → List Term
  | .and left _ | .or left _ => [left]
  | .choose condition _ _ => [condition]
  | .caseOf subject _ _ => subject.toList
  | .assign _ _ _ | .define _ _ _ | .sequence _ _ => []
  | t => t.children

/-- Outside of the calls of functions the code of the term takes at most so many levels. -/
inductive Term.Nests : Nat → Term → Prop
  | intro {n : Nat} {t : Term} (inline : ∀ part ∈ t.inline, Nests (n + 1) part)
      (waiting : ∀ part ∈ t.waiting, Nests n part) : Nests (n + 1) t

theorem Term.Nests.succ {n : Nat} {t : Term} (h : t.Nests n) : t.Nests (n + 1) := by
  induction h with
  | intro _ _ ihi ihw => exact .intro ihi ihw

/-- A term all of whose parts are in line takes the levels that they take. -/
theorem Term.Nests.of_inline {n : Nat} {t part : Term} (hwaiting : t.waiting = [])
    (hmem : part ∈ t.inline) (h : ∀ part ∈ t.inline, part.Nests n) : t.Nests n := by
  obtain ⟨n, rfl⟩ : ∃ k, n = k + 1 := by
    cases h part hmem with
    | intro => exact ⟨_, rfl⟩
  exact .intro h (by simp [hwaiting])

namespace Grammar

/-- The constructs of the grammar nest as the reader counts. -/
theorem nests_keeps (g : Grammar) : g.Keeps (fun _ => True) fun n t => t.Nests n where
  finish := trivial
  mono := Term.Nests.succ
  number _ := .intro nofun nofun
  string _ := .intro nofun nofun
  bool _ := .intro nofun nofun
  undefined := .intro nofun nofun
  constant _ _ _ := .intro nofun nofun
  var _ _ _ _ _ := .intro nofun nofun
  unary _ _ _ h := .of_inline rfl (.head _) (List.forall_mem_singleton.mpr h)
  binary _ _ _ _ hl hr := .of_inline rfl (.head _)
    (List.forall_mem_cons.mpr ⟨hl, List.forall_mem_singleton.mpr hr⟩)
  and _ _ hl hr := .intro (List.forall_mem_singleton.mpr hl) (List.forall_mem_singleton.mpr hr)
  or _ _ hl hr := .intro (List.forall_mem_singleton.mpr hl) (List.forall_mem_singleton.mpr hr)
  choose _ _ _ hc hy hn := .intro (List.forall_mem_singleton.mpr hc)
    (List.forall_mem_cons.mpr ⟨hy, List.forall_mem_singleton.mpr hn⟩)
  caseOf subject arms otherwise hs _ ha ho := by
    refine .intro (by simpa [Term.inline] using hs) (List.forall_mem_append.mpr ⟨?_, ?_⟩)
    · exact List.forall_mem_flatMap.mpr fun arm harm =>
        List.forall_mem_cons.mpr ⟨(ha arm harm).1, List.forall_mem_singleton.mpr (ha arm harm).2⟩
    · simpa using ho
  member _ _ _ _ _ h := .of_inline rfl (.head _) (List.forall_mem_singleton.mpr h)
  index _ _ ht hk := .of_inline rfl (.head _)
    (List.forall_mem_cons.mpr ⟨ht, List.forall_mem_singleton.mpr hk⟩)
  call _ _ hc ha := .of_inline rfl (.head _) (List.forall_mem_cons.mpr ⟨hc, ha⟩)
  array _ h := .intro h nofun
  object _ h := .intro (List.forall_mem_map.mpr fun field hfield => (h field hfield).2) nofun
  assign _ _ _ _ _ _ hv := .intro nofun (List.forall_mem_singleton.mpr hv)
  define _ _ _ _ _ _ _ _ _ := .intro nofun nofun
  sequence _ _ hfirst hrest := .intro nofun (List.forall_mem_cons.mpr ⟨hfirst, hrest⟩)

/-- **A term takes no more levels to run than the reader had for it**, or one more if it is a
condition. -/
theorem nests_of_level {g : Grammar} {depth : Nat} {l : Level} {s r : List Lexeme} {t : Term}
    (h : g.level depth l s = .ok (t, r)) : t.Nests (l.bound depth) :=
  (yields_level (nests_keeps g) depth l s (fun _ _ => trivial) t r h).1

end Grammar

/-- A parsed text takes at most one level more than the limit of nesting to run. -/
theorem Term.nests_of_parse {options : Options} {constants : Dict Value} {source : String}
    {t : Term} (h : Term.parse options constants source = .ok t) : t.Nests (options.maxDepth + 1) :=
  Term.of_parse (Grammar.nests_keeps _) (fun _ _ => trivial) h

/-! ## Runs with something else in place of the ceiling -/

namespace Evaluation

/-- Runs a program, and does `stop` in place of a program that nests too deep. -/
def runOr (options : Options) (functions : Registry) (stop : Evaluation Value) :
    Nat → Program → Evaluation Value
  | 0, _ => stop
  | depth + 1, program =>
    execute options functions (runOr options functions stop depth) program []

/-- A run fails in place of a program that nests too deep. -/
theorem run_eq_runOr (options : Options) (functions : Registry) (depth : Nat) :
    run options functions depth
      = runOr options functions (fail (.evaluation (.tooDeep options.maxDepth))) depth := by
  induction depth with
  | zero => rfl
  | succ depth ih =>
    funext program
    rw [run, runOr, ih]

/-- In the body of a function, and so while it is called. -/
def InCall (s : Scope) : Prop := s.locals.isSome = true

theorem stable_inCall : Stable InCall where
  store s name v hs := by
    obtain ⟨locals, hlocals⟩ := Option.isSome_iff_exists.mp hs
    rw [Scope.set, hlocals]
    rfl
  identity _ hs := hs
  host _ _ hs := hs

theorem stable_outermost : Stable Outermost where
  store _ name v hs := hs.set name v
  identity _ hs := hs
  host _ _ hs := hs

section
variable {options : Options} {functions : Registry} {stop : Evaluation Value}
  (hstop : ∀ s, InCall s → stop s = fail (.evaluation (.tooDeep options.maxDepth)) s)
include hstop

/-- In calls every program runs the same. -/
theorem runOr_inCall (depth : Nat) (program : Program) :
    (exactly InCall).Relates (Like (exactly InCall).bodies)
      (runOr options functions stop depth program) (run options functions depth program) := by
  induction depth generalizing program with
  | zero =>
    rintro s _ ⟨rfl, hs⟩
    rw [runOr, run, hstop s hs]
    exact .error _ ⟨rfl, hs⟩
  | succ depth ih =>
    rw [runOr, run]
    have hbelow : ∀ p q, p = q → (exactly InCall).Relates (Like (exactly InCall).bodies)
        (runOr options functions stop depth p) (run options functions depth q) := by
      rintro p _ rfl
      exact ih p
    refine Comparison.relates_execute hbelow
      (fun instr _ => alike_handles stable_inCall ?_ instr) .nil
    exact fun c _ => alike_withLocals (fun _ _ _ => rfl) (fun _ _ hs _ => hs) (ih c.body) _

/-- Outside of calls a term runs the same with the levels that it takes. -/
theorem matches_outermost {depth : Nat}
    (hbelow : ∀ first rest, Term.Nests depth first → (∀ t ∈ rest, Term.Nests depth t) →
      (exactly Outermost).Relates (Like (exactly Outermost).bodies)
        (runOr options functions stop depth (first.code ++ statementsCode rest))
        (run options functions depth (first.code ++ statementsCode rest)))
    {t : Term} (ht : t.Nests (depth + 1)) :
    (exactly Outermost).Matches options functions (runOr options functions stop depth)
      (run options functions depth) t t := by
  let C := exactly Outermost
  have hhandles : ∀ instr, C.Handles options functions (runOr options functions stop depth)
      (run options functions depth) Eq instr := alike_handles stable_outermost fun c _ =>
    alike_withLocals (fun _ _ _ => rfl) (fun _ _ hs _ => hs) (runOr_inCall hstop depth c.body) _
  have hdefers : ∀ {t : Term}, t.Nests depth → C.Defers (runOr options functions stop depth)
      (run options functions depth) t t := by
    intro t ht
    have hrun := hbelow t [] ht nofun
    rwa [statementsCode, List.append_nil] at hrun
  induction t with
  | literal v => exact .literal v
  | undefined => exact .undefined
  | var name => exact .var ((hhandles (.var name)).var name rfl)
  | unary op t ih =>
    cases ht with
    | intro hinline _ => exact .unary op (ih (hinline _ (.head _)))
  | binary op l r ihl ihr =>
    cases ht with
    | intro hinline _ =>
      exact .binary op (ihl (hinline _ (.head _))) (ihr (hinline _ (.tail _ (.head _))))
  | and l r ihl _ =>
    cases ht with
    | intro hinline hwaiting =>
      exact .and (ihl (hinline _ (.head _))) (hdefers (hwaiting _ (.head _)))
  | or l r ihl _ =>
    cases ht with
    | intro hinline hwaiting =>
      exact .or (ihl (hinline _ (.head _))) (hdefers (hwaiting _ (.head _)))
  | choose condition yes no ihc _ _ =>
    cases ht with
    | intro hinline hwaiting =>
      exact .choose (ihc (hinline _ (.head _))) (hdefers (hwaiting _ (.head _)))
        (hdefers (hwaiting _ (.tail _ (.head _))))
  | caseOf subject arms otherwise ihs _ _ =>
    cases ht with
    | intro hinline hwaiting =>
      refine .caseOf ?_ (List.forall₂_same.mpr fun arm harm => ?_) ?_
      · cases subject with
        | none => exact .none
        | some subject => exact .some (ihs subject rfl (hinline subject (.head _)))
      · have hparts : ∀ part ∈ [arm.1, arm.2], part.Nests depth := fun part hpart =>
          hwaiting part (List.mem_append_left _ (List.mem_flatMap.mpr ⟨arm, harm, hpart⟩))
        exact ⟨hdefers (hparts _ (.head _)), hdefers (hparts _ (.tail _ (.head _)))⟩
      · cases otherwise with
        | none => exact .none
        | some otherwise =>
          exact .some (hdefers (hwaiting _ (List.mem_append_right _ (.head _))))
  | member target name ih =>
    cases ht with
    | intro hinline _ => exact .member name (ih (hinline _ (.head _)))
  | index target key iht ihk =>
    cases ht with
    | intro hinline _ =>
      exact .index (iht (hinline _ (.head _))) (ihk (hinline _ (.tail _ (.head _))))
  | call callee arguments ihc iha =>
    cases ht with
    | intro hinline _ =>
      exact .call ((hhandles (.call 0)).call 0 rfl) (ihc (hinline _ (.head _)))
        (List.forall₂_same.mpr fun t hmem => iha t hmem (hinline t (.tail _ hmem)))
  | array items ih =>
    cases ht with
    | intro hinline _ =>
      exact .array (List.forall₂_same.mpr fun t hmem => ih t hmem (hinline t hmem))
  | object fields ih =>
    cases ht with
    | intro hinline _ =>
      refine .object (List.forall₂_same.mpr fun field hmem => ⟨rfl, ih field hmem ?_⟩)
      exact hinline field.2 (List.mem_map_of_mem hmem)
  | assign root path value _ =>
    cases ht with
    | intro _ hwaiting =>
      exact .assign ((hhandles .assign).assign rfl _) (hdefers (hwaiting _ (.head _)))
  | define name params body _ =>
    exact .define ((hhandles (.define 0)).define 0 rfl name params _ _ rfl)
  | sequence first rest _ _ =>
    cases ht with
    | intro _ hwaiting =>
      exact .sequence (hbelow first rest (hwaiting _ (.head _)) fun t hmem =>
        hwaiting t (.tail _ hmem))

/-- **Outside of calls, statements never come to the ceiling** with the levels that they take. -/
theorem runOr_outermost (depth : Nat) {first : Term} {rest : List Term}
    (hfirst : first.Nests depth) (hrest : ∀ t ∈ rest, t.Nests depth) :
    (exactly Outermost).Relates (Like (exactly Outermost).bodies)
      (runOr options functions stop depth (first.code ++ statementsCode rest))
      (run options functions depth (first.code ++ statementsCode rest)) := by
  induction depth generalizing first rest with
  | zero => cases hfirst
  | succ depth ih =>
    have hmatches : ∀ {t : Term}, t.Nests (depth + 1) → (exactly Outermost).Matches options
        functions (runOr options functions stop depth) (run options functions depth) t t :=
      matches_outermost hstop fun _ _ => ih
    rw [runOr, run, execute_statements, execute_statements]
    exact Comparison.relates_settledLast (hmatches hfirst)
      (List.forall₂_same.mpr fun t hmem => hmatches (hrest t hmem))

end
end Evaluation

/-! ## Ceilings of expressions -/

/-- The evaluation comes to its ceiling only while a function is called: whatever is done where a
program nests too deep outside of calls, the run is the same. -/
def Expression.StopsOnlyInCalls (e : Expression) (context : Context) : Prop :=
  ∀ stop : Evaluation Value,
    (∀ s, Evaluation.InCall s →
      stop s = Evaluation.fail (.evaluation (.tooDeep e.options.maxDepth)) s) →
    Evaluation.runOr e.options e.functions stop e.options.maxDepth e.program { context with }
      = Evaluation.run e.options e.functions e.options.maxDepth e.program { context with }

/-- An expression whose term takes no more levels than its ceiling allows comes to the ceiling in
calls only. -/
theorem Expression.stopsOnlyInCalls {e : Expression} {t : Term} (hcode : e.program = t.code)
    (ht : t.Nests e.options.maxDepth) (context : Context) : e.StopsOnlyInCalls context := by
  intro stop hstop
  have hrun := @Evaluation.runOr_outermost _ e.functions _ hstop _ _ [] ht nofun
  rw [statementsCode, List.append_nil, ← hcode] at hrun
  exact Evaluation.eq_of_alike hrun rfl fun _ _ _ => id

/-- The whole text is read as one statement, with no semicolon behind it. -/
def Compiler.ReadsStatement (c : Compiler) (source : String) : Prop :=
  let g : Grammar := ⟨c.options, c.constants, finishOf source.toList⟩
  ∃ t, g.level c.options.maxDepth .assignment (lexemes source.toList) = .ok (t, [])

/-- A text that is read as one statement compiles to the code of that statement. -/
theorem Compiler.parse_of_readsStatement {c : Compiler} {source : String}
    (h : c.ReadsStatement source) :
    ∃ t, Term.parse c.options c.constants source = .ok t ∧ t.Nests c.options.maxDepth := by
  obtain ⟨t, hread⟩ := h
  let g : Grammar := ⟨c.options, c.constants, finishOf source.toList⟩
  refine ⟨t, ?_, Grammar.nests_of_level hread⟩
  have hend : g.peek [] = .ok (g.finish, []) := rfl
  have hstatements : g.statements (g.level c.options.maxDepth) (lexemes source.toList)
      = .ok (t, []) := by
    rw [Grammar.statements_eq, Grammar.bind_of_ok hread, Grammar.bind_of_ok hend]
    rfl
  unfold Term.parse
  dsimp only
  have hwhole : g.whole (lexemes source.toList) = .ok (t, []) :=
    (Grammar.bind_of_ok hstatements).trans (Grammar.bind_of_ok hend)
  rw [StateT.run, hwhole]

/-- **A text that can be parsed is one statement exactly if no semicolon stands outside of its
brackets.** -/
theorem Compiler.readsStatement_iff {c : Compiler} {source : String} {t : Term}
    (h : Term.parse c.options c.constants source = .ok t) :
    c.ReadsStatement source ↔ ¬ HasOuterSemicolon source := by
  let g : Grammar := ⟨c.options, c.constants, finishOf source.toList⟩
  have hcrosses := Grammar.crosses_level (g := g) rfl c.options.maxDepth .assignment 0
    (lexemes source.toList)
  constructor
  · rintro ⟨u, hread⟩
    exact (hcrosses u [] hread).outer.not.mpr id
  · intro hnone
    obtain ⟨first, q, found, rounds, hfirst, hrounds, hrest, -⟩ :=
      Grammar.statements_cases (Term.statements_of_parse h)
    have hbehind : ¬ OuterSemicolon 0 q := (hcrosses first q hfirst).outer.not.mp hnone
    -- if anything is left, it begins with a semicolon
    obtain ⟨rounds, rfl⟩ := Nat.exists_eq_add_of_lt hrounds
    obtain ⟨next, r, hlink, hmore⟩ := Grammar.ok_of_bind hrest
    rcases Grammar.statementLink_cases rfl hlink with ⟨rfl, rfl⟩ | ⟨place, rest, hplace, rfl, -⟩
    · cases hmore
      exact ⟨first, hfirst⟩
    · exact absurd (.inl ⟨rfl, hplace⟩) hbehind

/-- **What nests in a text nests when it runs.**  Let a text compile.  It is one statement exactly
if it has no semicolon outside of all brackets, and then its evaluation on any variables comes to
the ceiling only while a function is called.  A row of statements is a program of its own, which the
reader does not count at the outside of a text: with one level more than the limit its evaluation,
too, comes to the ceiling only while a function is called. -/
theorem compile_stopsOnlyInCalls {c : Compiler} {source : String} {e : Expression}
    (h : c.compile source = .ok e) (context : Context) :
    (c.ReadsStatement source ↔ ¬ HasOuterSemicolon source) ∧
      (c.ReadsStatement source → e.StopsOnlyInCalls context) ∧
      { e with options := e.options.withMaxDepth (e.options.maxDepth + 1) }.StopsOnlyInCalls
        context := by
  obtain ⟨t, hparse, rfl⟩ := exists_of_map_eq_ok h
  refine ⟨Compiler.readsStatement_iff hparse, fun hstatement => ?_, ?_⟩
  · obtain ⟨u, hread, hnests⟩ := c.parse_of_readsStatement hstatement
    obtain rfl := Except.ok.inj (hparse.symm.trans hread)
    exact Expression.stopsOnlyInCalls rfl hnests context
  · exact Expression.stopsOnlyInCalls rfl (Term.nests_of_parse hparse) context

/-- A function that calls itself without end comes to the ceiling, in calls. -/
theorem compile_stopsOnlyInCalls_endless : ∃ e : Expression,
    let c : Compiler := { options := { maxDepth := 3 } }
    let f : Closure := ⟨1, "f", [], (Term.call (.var "f") []).code, none⟩
    let context : Context := { globals := [("f", .function (.closure f))], nextId := 2 }
    c.compile "f()" = .ok e ∧ c.ReadsStatement "f()" ∧ ¬ HasOuterSemicolon "f()" ∧
      StopsAtCeiling (e.evaluate context).1 ∧ e.StopsOnlyInCalls context := by
  let options : Options := { maxDepth := 3 }
  let f : Closure := ⟨1, "f", [], (Term.call (.var "f") []).code, none⟩
  let e : Expression := ⟨f.body, options, {}, some "f()"⟩
  have hcompile : ({ options := options } : Compiler).compile "f()" = .ok e := rfl
  have hstatement : ({ options := options } : Compiler).ReadsStatement "f()" := ⟨_, rfl⟩
  obtain ⟨hsingle, hstops, -⟩ := compile_stopsOnlyInCalls hcompile
    { globals := [("f", .function (.closure f))], nextId := 2 }
  exact ⟨e, hcompile, hstatement, hsingle.mp hstatement, ⟨_, rfl, 3, rfl⟩, hstops hstatement⟩

/-- `false or true and true;` is read under a limit of three, and takes four levels to run: it comes
to the ceiling though it calls no function. -/
theorem compile_stops_outside_calls : ∃ e : Expression,
    ({ options := { maxDepth := 3 } } : Compiler).compile "false or true and true;" = .ok e ∧
      StopsAtCeiling (e.evaluate {}).1 ∧ ¬ e.StopsOnlyInCalls {} := by
  let options : Options := { maxDepth := 3 }
  let t : Term := .sequence (.or (.literal (.bool false))
    (.and (.literal (.bool true)) (.literal (.bool true)))) []
  let e : Expression := ⟨t.code, options, {}, some "false or true and true;"⟩
  refine ⟨e, rfl, ⟨_, rfl, 3, rfl⟩, fun hstops => ?_⟩
  -- outside of calls the value is put in place of the ceiling
  let stop : Evaluation Value := fun s =>
    if s.locals.isSome then Evaluation.fail (.evaluation (.tooDeep 3)) s else .ok (.bool true) s
  have hsame := hstops stop fun s hs => if_pos hs
  cases hsame

end Formula
