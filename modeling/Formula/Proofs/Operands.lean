import Formula.Proofs.Frame
import Formula.Proofs.Passive
import Formula.Proofs.TreeSemantics

/-! # The order of operands

Operands run from left to right, each before the next one, but for sequences of statements: a
sequence waits on the stack until the instruction behind all operands wants its value.  So
`(a = true;) || a` reads `a` before it stores to it (`operands_out_of_turn`), although
`(a = true) || a` does not.

The order is kept where behind a sequence stand only operands to which it makes no difference
when they run: those that are there at once, such as literals and other sequences
(`Term.Inert`), and those that change nothing and do not read what the sequence stores to
(`Term.Untouched`).
-/
namespace Formula

/-- What the term leaves is there at once: no variable is read, nothing is run, and nothing
fails. -/
def Term.Inert (options : Options) (functions : Registry) (t : Term) : Prop :=
  ∃ x, ∀ run, Evaluation.pushed options functions run t = pure x

theorem Term.Inert.literal (options : Options) (functions : Registry) (v : Value) :
    (Term.literal v).Inert options functions := ⟨_, fun _ => by rw [Evaluation.pushed]⟩

theorem Term.Inert.sequence (options : Options) (functions : Registry) (first : Term)
    (rest : List Term) : (Term.sequence first rest).Inert options functions :=
  ⟨_, fun _ => by rw [Evaluation.pushed]⟩

/-- In the row, only inert terms stand behind a sequence. -/
def InertBehind (options : Options) (functions : Registry) (terms : List Term) : Prop :=
  terms.Pairwise fun left right => left.isSequence = true → right.Inert options functions

/-- Among the operands of the term, only inert ones stand behind a sequence. -/
structure Term.Orderly (options : Options) (functions : Registry) (t : Term) : Prop where
  behind : InertBehind options functions t.siblings
  /-- If access is off, the operands of an index are not wanted. -/
  access : ∀ target key, t = .index target key → options.allowMemberAccess = true

namespace Evaluation

/-- The value of a construct from the values of its operands, of which the left ones are evaluated
first. -/
def inTurn (functions : Registry) (run : Program → Evaluation Value)
    (evaluate : Term → Evaluation Value) : Term → Evaluation Value
  | .binary op left right => do
    let x ← evaluate left
    let y ← evaluate right
    lift (op.apply x y)
  | .index target key => do
    let x ← evaluate target
    let y ← evaluate key
    lift (x.index y)
  | .call callee arguments => do
    let f ← evaluate callee
    let xs ← arguments.mapM evaluate
    call functions run f xs
  | .array items => return .array (← items.mapM evaluate)
  | .object fields => do
    let xs ← (fields.map Prod.snd).mapM evaluate
    return .object (Dict.ofPairs ((fields.map Prod.fst).zip xs))
  | t => evaluate t

/-! ## Operands in a row -/

section
variable {options : Options} {functions : Registry} (run : Program → Evaluation Value)

/-- Operands that are inert are there at once, and have their values when these are wanted. -/
theorem pushedAll_inert {terms : List Term} (h : ∀ t ∈ terms, t.Inert options functions) :
    ∃ xs, pushedAll options functions run terms = pure xs ∧
      (xs.map Pushed.operand).mapM (resolve run) = terms.mapM (settled options functions run) := by
  induction terms with
  | nil => exact ⟨[], by rw [pushedAll], rfl⟩
  | cons t terms ih =>
    obtain ⟨⟨x, hx⟩, hterms⟩ := List.forall_mem_cons.mp h
    obtain ⟨xs, hxs, hvalues⟩ := ih hterms
    have hsettled : settled options functions run t = resolve run x.operand := by
      rw [settled, hx, pure_bind]
    exact ⟨x :: xs, by simp [pushedAll, hx, hxs], by simp [hsettled, ← hvalues]⟩

/-- **Operands are evaluated in turn**, if only inert ones stand behind a sequence. -/
theorem pushedAll_in_turn {terms : List Term} (h : InertBehind options functions terms) :
    (pushedAll options functions run terms >>= fun xs =>
        (xs.map Pushed.operand).mapM (resolve run))
      = terms.mapM (settled options functions run) := by
  induction terms with
  | nil => simp [pushedAll]
  | cons t terms ih =>
    obtain ⟨hbehind, hterms⟩ := List.pairwise_cons.mp h
    rw [List.mapM_cons, ← ih hterms, pushedAll]
    by_cases ht : t.isSequence = true
    · -- the sequence runs when all operands are there, and the others are there at once
      obtain ⟨xs, hxs, hvalues⟩ := pushedAll_inert run fun other hother =>
        hbehind other hother ht
      simp [hxs, settled]
    · rw [pushed_of_not_sequence (Bool.not_eq_true _ ▸ ht)]
      simp [Pushed.operand, resolve]

theorem pushedAll_in_turn_bind {α : Type} {terms : List Term}
    (h : InertBehind options functions terms) (f : List Value → Evaluation α) :
    (do
      let xs ← pushedAll options functions run terms
      let values ← (xs.map Pushed.operand).mapM (resolve run)
      f values) = terms.mapM (settled options functions run) >>= f := by
  rw [← pushedAll_in_turn run h, bind_assoc]

/-- Two operands are evaluated in turn. -/
theorem pushed_pair_in_turn {left right : Term} (h : InertBehind options functions [left, right])
    (f : Value → Value → Evaluation Pushed) :
    (do
      let x ← pushed options functions run left
      let y ← pushed options functions run right
      let x ← resolve run x.operand
      let y ← resolve run y.operand
      f x y)
    = (do
      let x ← settled options functions run left
      let y ← settled options functions run right
      f x y) := by
  have hpair := pushedAll_in_turn_bind run h fun values =>
    f (values.getD 0 .undefined) (values.getD 1 .undefined)
  simpa [pushedAll] using hpair

/-- A callee and its arguments are evaluated in turn. -/
theorem pushed_call_in_turn {callee : Term} {arguments : List Term}
    (h : InertBehind options functions (callee :: arguments))
    (f : Value → List Value → Evaluation Pushed) :
    (do
      let x ← pushed options functions run callee
      let ys ← pushedAll options functions run arguments
      let x ← resolve run x.operand
      let ys ← (ys.map Pushed.operand).mapM (resolve run)
      f x ys)
    = (do
      let x ← settled options functions run callee
      let ys ← arguments.mapM (settled options functions run)
      f x ys) := by
  have hcall := pushedAll_in_turn_bind run h fun values => f (values.headD .undefined) values.tail
  simpa [pushedAll] using hcall

/-- As many operands are left behind keys as there are fields. -/
theorem pushedEntries_bind {α : Type} (entries : List (String × Term))
    (f : List (String × Pushed) → Evaluation α) :
    pushedEntries options functions run entries >>= f
      = pushedAll options functions run (entries.map Prod.snd) >>= fun xs =>
          f ((entries.map Prod.fst).zip xs) := by
  induction entries generalizing f with
  | nil => simp [pushedEntries, pushedAll]
  | cons entry entries ih =>
    obtain ⟨key, t⟩ := entry
    simp [pushedEntries, pushedAll, ih]

/-- The values of the fields are wanted in turn. -/
theorem fields_zip {keys : List String} {xs : List Pushed} (h : xs.length = keys.length)
    (entries : Dict Value) :
    fields run entries (entryOperands (keys.zip xs))
      = (xs.map Pushed.operand).mapM (resolve run) >>= fun values =>
          pure ((keys.zip values).foldl (fun entries pair => entries.insert pair.1 pair.2)
            entries) := by
  induction keys generalizing xs entries with
  | nil =>
    obtain rfl := List.length_eq_zero_iff.mp h
    simp [entryOperands, fields]
  | cons key keys ih =>
    cases xs with
    | nil => cases h
    | cons x xs =>
      have hrest : ∀ entries, fields run entries (entryOperands (keys.zip xs)) = _ :=
        ih (Nat.succ.inj h)
      show (do
        let v ← resolve run x.operand
        fields run (entries.insert key v) (entryOperands (keys.zip xs))) = _
      simp [hrest]

/-- **The code of an orderly term evaluates its operands in turn**, and leaves the value of the
term. -/
theorem pushed_in_turn {t : Term} (ht : t.isSequence = false) (h : t.Orderly options functions) :
    pushed options functions run t = (do
      return Pushed.value (← inTurn functions run (settled options functions run) t)) := by
  cases t with
  | sequence first rest => cases ht
  | binary op left right =>
    rw [pushed, inTurn, pushed_pair_in_turn run h.behind]
    simp
  | index target key =>
    simp only [pushed, inTurn, h.access target key rfl, if_true]
    rw [pushed_pair_in_turn run h.behind]
    simp
  | call callee arguments =>
    rw [pushed, inTurn, pushed_call_in_turn run h.behind]
    simp
  | array items =>
    have hitems : InertBehind options functions items := h.behind
    rw [pushed, inTurn, pushedAll_in_turn_bind run hitems]
    simp
  | object entries =>
    have hentries : InertBehind options functions (entries.map Prod.snd) := h.behind
    have hfields : ∀ xs : List Pushed, xs.length = (entries.map Prod.snd).length →
        fields run [] (entryOperands ((entries.map Prod.fst).zip xs))
          = (xs.map Pushed.operand).mapM (resolve run) >>= fun values =>
              pure (Dict.ofPairs ((entries.map Prod.fst).zip values)) := by
      intro xs hxs
      rw [List.length_map, ← List.length_map Prod.fst] at hxs
      exact fields_zip run hxs []
    rw [pushed, inTurn, pushedEntries_bind]
    rw [pushedAll_bind_congr _ fun xs hxs => by rw [hfields xs hxs, bind_assoc]]
    rw [pushedAll_in_turn_bind run hentries]
    simp
  | _ => exact pushed_of_not_sequence rfl

end

end Evaluation

/-! ## An operand behind a statement -/

/-- On the variables of the context, it makes no difference to the operand whether the statement
has run. -/
inductive Term.Untouched (options : Options) (functions : Registry) (context : Context)
    (operand statement : Term) : Prop
  | inert (h : operand.Inert options functions)
  /-- The operand has a value without the statement and changes nothing itself, and the statement
  stores to no variable that it reads. -/
  | apart {v : Value} (hpassive : operand.Everywhere Term.Passive)
      (hvalue : (operand.code.evaluate options functions context).1 = .ok v)
      (hapart : ∀ name, Term.Within (.var name) operand → statement.LeavesAlone name)

namespace Evaluation
section
variable {options : Options} {functions : Registry} {context : Context} {t statement : Term}

/-- What the operand reads has the same values before the statement and after it. -/
theorem carries_of_apart (hpassive : t.Everywhere Term.Passive)
    (hapart : ∀ name, Term.Within (.var name) t → statement.LeavesAlone name) {depth : Nat}
    {v : Value} {s : Scope}
    (h : run options functions depth statement.code { context with } = .ok v s) :
    Term.Carries { context with } s t := by
  rintro part hpart
  refine ⟨hpassive part hpart, ?_⟩
  rintro name rfl v hv
  have hkeeps := ((regime_holds options functions name (context.globals.get? name)).keeps_run
    depth).code (hapart name hpart) { context with } ⟨rfl, rfl⟩
  rw [h] at hkeeps
  obtain ⟨-, hlocals, hglobals⟩ := hkeeps
  rw [Scope.get?, hlocals, hglobals]
  exact hv

/-- The operand leaves the same before the statement and after it, unless it stops at the
ceiling. -/
theorem pushed_untouched {depth : Nat} (hdepth : options.maxDepth = depth + 1)
    (h : t.Untouched options functions context statement) :
    ∃ x, pushed options functions (run options functions depth) t { context with }
        = .ok x { context with } ∧
      ∀ v s, settled options functions (run options functions depth) statement { context with }
          = .ok v s →
        (∃ e u, pushed options functions (run options functions depth) t s = .error e u ∧
          e.AtCeiling) ∨
        pushed options functions (run options functions depth) t s = .ok x s := by
  cases h with
  | inert h =>
    obtain ⟨x, hx⟩ := h
    rw [hx]
    exact ⟨x, rfl, fun _ _ _ => .inr rfl⟩
  | @apart v hpassive hvalue hapart =>
    by_cases ht : t.isSequence = true
    · cases t with
      | sequence first rest =>
        rw [pushed]
        exact ⟨_, rfl, fun _ _ _ => .inr rfl⟩
      | _ => cases ht
    · obtain ⟨s₀, hrun⟩ := Program.exists_run_of_ok hvalue
      rw [hdepth] at hrun
      have hsettled : ∀ s, Term.Carries { context with } s t →
          (∃ e u, settled options functions (run options functions depth) t s = .error e u ∧
            e.AtCeiling) ∨
          settled options functions (run options functions depth) t s = .ok v s := fun s hs =>
        settled_elsewhere hs hrun depth
      rw [pushed_of_not_sequence (Bool.not_eq_true _ ▸ ht)]
      refine ⟨.value v, bind_of_ok ?_ _, fun w s hstatement => ?_⟩
      · rw [run_code] at hrun
        rcases hsettled { context with } (fun part hpart =>
          ⟨hpassive part hpart, fun _ _ _ h => h⟩) with ⟨e, u, he, -⟩ | hok
        · rw [hrun] at he
          cases he
        · exact hok
      · rw [← run_code] at hstatement
        rcases hsettled s (carries_of_apart hpassive hapart hstatement) with ⟨e, u, he, hstop⟩ | hok
        · exact .inl ⟨e, u, bind_of_error he _, hstop⟩
        · exact .inr (bind_of_ok hok _)

/-- Before an operand like that, the left operand runs first or makes no difference by running
last, unless the operand stops at the ceiling. -/
theorem settled_binary_untouched {run : Program → Evaluation Value} (op : BinaryOp) {left t : Term}
    {x : Pushed} {s : Scope} (hbefore : pushed options functions run t s = .ok x s)
    (hafter : ∀ v u, settled options functions run left s = .ok v u →
      (∃ e w, pushed options functions run t u = .error e w ∧ e.AtCeiling) ∨
      pushed options functions run t u = .ok x u) :
    (∃ e u, settled options functions run (.binary op left t) s = .error e u ∧ e.AtCeiling) ∨
      settled options functions run (.binary op left t) s = (do
        let v ← settled options functions run left
        let w ← resolve run x.operand
        lift (op.apply v w) : Evaluation Value) s := by
  by_cases hleft : left.isSequence = true
  · right
    cases left with
    | sequence first rest =>
      have hwaits : settled options functions run (.binary op (.sequence first rest) t) = (do
          let y ← pushed options functions run t
          let v ← settled options functions run (.sequence first rest)
          let w ← resolve run y.operand
          lift (op.apply v w)) := by
        simp [settled, pushed, Pushed.operand, resolve]
      rw [hwaits, bind_of_ok hbefore]
    | _ => cases hleft
  · have hfirst : settled options functions run (.binary op left t) = (do
        let v ← settled options functions run left
        let y ← pushed options functions run t
        let w ← resolve run y.operand
        lift (op.apply v w)) := by
      rw [settled, pushed, pushed_of_not_sequence (Bool.not_eq_true _ ▸ hleft)]
      simp [Pushed.operand, resolve]
    rw [hfirst]
    cases hrun : settled options functions run left s with
    | error e u => exact .inr (by rw [bind_of_error hrun, bind_of_error hrun])
    | ok v u =>
      rw [bind_of_ok hrun, bind_of_ok hrun]
      rcases hafter v u hrun with ⟨e, w, he, hstop⟩ | hok
      · exact .inl ⟨e, w, bind_of_error he _, hstop⟩
      · exact .inr (bind_of_ok hok _)

/-- A statement that waits with a semicolon behind it does what it does at once, before an operand
to which that makes no difference, unless one of the two stops at the ceiling. -/
theorem run_semicolon (op : BinaryOp) {depth : Nat} (hdepth : options.maxDepth = depth + 1)
    (h : t.Untouched options functions context statement)
    (hwaiting : ∀ e u, run options functions (depth + 1)
      (Term.binary op (.sequence statement []) t).code { context with } = .error e u →
        ¬ e.AtCeiling)
    (hinline : ∀ e u, run options functions (depth + 1) (Term.binary op statement t).code
      { context with } = .error e u → ¬ e.AtCeiling) :
    run options functions (depth + 1) (Term.binary op (.sequence statement []) t).code
        { context with }
      = run options functions (depth + 1) (Term.binary op statement t).code { context with } := by
  obtain ⟨x, hbefore, hafter⟩ := pushed_untouched hdepth h
  have hsequence : settled options functions (run options functions depth)
      (.sequence statement []) = run options functions depth statement.code := by
    simp [settled, pushed, Pushed.operand, resolve, statementsCode]
  rw [run_code] at hwaiting hinline ⊢
  rw [run_code]
  -- what the statement did one level deeper it also does at once
  have hdeeper : ∀ v u, run options functions depth statement.code { context with } = .ok v u →
      settled options functions (run options functions depth) statement { context with }
        = .ok v u := by
    intro v u hrun
    rw [← run_code, run_add 1 (by rw [hrun]; rintro _ _ ⟨⟩), hrun]
  rcases settled_binary_untouched op hbefore hafter with ⟨e, u, he, hstop⟩ | hatOnce
  · exact absurd hstop (hinline e u he)
  rw [← hsequence] at hdeeper
  rcases settled_binary_untouched op hbefore fun v u hrun => hafter v u (hdeeper v u hrun) with
    ⟨e, u, he, hstop⟩ | hlater
  · exact absurd hstop (hwaiting e u he)
  rw [hsequence] at hlater hdeeper
  cases hrun : run options functions depth statement.code { context with } with
  | ok v u => rw [hatOnce, hlater, bind_of_ok hrun, bind_of_ok (hdeeper v u hrun)]
  | error e u =>
    have hfails := hlater.trans (bind_of_error hrun _)
    have hsame := run_add 1 (by rw [hrun]; rintro _ _ ⟨⟩; exact hwaiting e u hfails)
    rw [run_code, hrun] at hsame
    rw [hfails, hatOnce, bind_of_error hsame]

/-- **Operands run in turn where nothing behind a sequence of statements can tell the difference.**

Let behind the sequences among the operands of a binary operator, an index, a call, an array or an
object stand only operands that are inert.  Then, wherever its code stands, it evaluates the
operands one after the other, each to its value as its own code does, before it computes, and does
nothing else.

And let a statement with a semicolon behind it stand in parentheses before an operand for which it
makes no difference whether the statement has run.  Then `(s;) + t` gives on these variables what
`(s) + t` gives, with every operator: the same value or error, the same variables and the same calls
of the host, unless one of the two stops at the ceiling. -/
theorem operands_in_turn (options : Options) (functions : Registry) :
    (∀ t : Term, t.isSequence = false → t.Orderly options functions → ∀ depth rest stack,
      execute options functions (run options functions depth) (t.code ++ rest) stack
        = inTurn functions (run options functions depth)
            (fun operand => run options functions (depth + 1) operand.code) t
          >>= fun v => execute options functions (run options functions depth) rest
            (.value v :: stack)) ∧
    ∀ (op : BinaryOp) (s t : Term) (context : Context), t.Untouched options functions context s →
      let waiting := (Term.binary op (.sequence s []) t).code.evaluate options functions context
      let atOnce := (Term.binary op s t).code.evaluate options functions context
      ¬ StopsAtCeiling waiting.1 → ¬ StopsAtCeiling atOnce.1 → waiting = atOnce := by
  constructor
  · intro t ht horderly depth rest stack
    simp only [run_code]
    rw [execute_code t rest stack, pushed_in_turn _ ht horderly]
    simp [Pushed.operand]
  · intro op s t context huntouched waiting atOnce hwaiting hatOnce
    have hrun : ∀ program : Program,
        ¬ StopsAtCeiling (program.evaluate options functions context).1 → ∀ e u,
          run options functions options.maxDepth program { context with } = .error e u →
            ¬ e.AtCeiling := by
      intro program hprogram e u hrun hstop
      refine hprogram ⟨e, ?_, hstop⟩
      rw [Program.evaluate, hrun]
    have hwaits := hrun _ hwaiting
    have hgoes := hrun _ hatOnce
    cases hdepth : options.maxDepth with
    | zero =>
      rw [hdepth] at hwaits
      exact absurd ⟨_, rfl⟩ (hwaits _ _ rfl)
    | succ depth =>
      rw [hdepth] at hwaits hgoes
      have hsame := run_semicolon op hdepth huntouched hwaits hgoes
      show Program.evaluate _ _ _ _ = Program.evaluate _ _ _ _
      rw [Program.evaluate, Program.evaluate, hdepth, hsame]

/-- The array of `(a = true; a)` and `false`, and `(a = true;) || b` beside `(a = true) || b`. -/
theorem operands_in_turn_stored :
    let store : Term := .assign "a" [] (.literal (.bool true))
    let items : Term := .array [.sequence store [.var "a"], .literal (.bool false)]
    let context : Context := { globals := [("b", .string "x")] }
    let waiting := (Term.binary .concatenate (.sequence store []) (.var "b")).code.evaluate {} {}
      context
    let atOnce := (Term.binary .concatenate store (.var "b")).code.evaluate {} {} context
    items.Orderly {} {} ∧
      run {} {} 2 items.code
        = inTurn {} (run {} {} 1) (fun operand => run {} {} 2 operand.code) items ∧
      (Term.var "b").Untouched {} {} context store ∧ ¬ StopsAtCeiling waiting.1 ∧
      ¬ StopsAtCeiling atOnce.1 ∧ waiting.1 = .ok (.string "truex") ∧ waiting = atOnce := by
  intro store items context waiting atOnce
  have horderly : items.Orderly {} {} :=
    ⟨List.pairwise_pair.mpr fun _ => .literal _ _ _, fun _ _ h => nomatch h⟩
  have hstore : store.LeavesAlone "b" :=
    .intro (by decide) (List.forall_mem_singleton.mpr (.intro (by decide) (by rintro _ ⟨⟩)))
  have hreads : ∀ name, Term.Within (.var name) (.var "b") → name = "b" := by
    intro name hname
    cases hname with
    | self => rfl
    | deeper hpart => cases hpart
  have huntouched : (Term.var "b").Untouched {} {} context store :=
    .apart (Term.everywhere_of_children trivial (by rintro _ ⟨⟩)) rfl
      fun name hname => hreads name hname ▸ hstore
  have hwaiting : waiting.1 = .ok (.string "truex") := rfl
  have hatOnce : atOnce.1 = .ok (.string "truex") := rfl
  have hceiling : ∀ {outcome : Except Error Value}, outcome = .ok (.string "truex") →
      ¬ StopsAtCeiling outcome := by
    rintro _ rfl ⟨error, herror, -⟩
    cases herror
  obtain ⟨hturn, hsemicolon⟩ := operands_in_turn {} {}
  have hitems : run {} {} 2 items.code
      = inTurn {} (run {} {} 1) (fun operand => run {} {} 2 operand.code) items := by
    rw [run, ← List.append_nil items.code, hturn items rfl horderly 1 [] []]
    simp [execute, resolve]
  exact ⟨horderly, hitems, huntouched, hceiling hwaiting, hceiling hatOnce, hwaiting,
    hsemicolon _ _ _ _ huntouched (hceiling hwaiting) (hceiling hatOnce)⟩

/-- `(a = true;) + a` reads `a` before it stores to it, and `(a = true) + a` afterwards. -/
theorem operands_out_of_turn : ∃ e e' : Expression,
    ({} : Compiler).compile "(a = true;) + a" = .ok e ∧
      ({} : Compiler).compile "(a = true) + a" = .ok e' ∧
      (e.evaluate {}).1 = .error ⟨.evaluation (.undefinedVariable "a"), none,
        some "(a = true;) + a"⟩ ∧
      (e'.evaluate {}).1 = .ok (.number 2.0) := by
  let e : Expression := ⟨[.sub [.name "a", .sub [.literal (.bool true)], .assign], .var "a",
    .binary .add], {}, {}, some "(a = true;) + a"⟩
  let e' : Expression := ⟨[.name "a", .sub [.literal (.bool true)], .assign, .var "a",
    .binary .add], {}, {}, some "(a = true) + a"⟩
  exact ⟨e, e', rfl, rfl, rfl, rfl⟩

end
end Evaluation
end Formula
