import Formula.Proofs.Stack

/-! # Evaluating trees

`treeValue` evaluates a term as one reads it: operands from left to right and each once, the right
side of `and` and `or` only when the left side leaves the answer open, one branch of a condition,
the conditions of a `case` block in their order and then one result.  There is no stack, and nothing
waits.  The theorem of this module is that running the code of a term does just that
(`evaluate_code`), with the same value or error, the same variables, the same calls of the host, and
the same limit of nesting.

A sequence of statements is the one construct for which this fails beside other operands: its code
is a program that waits, so `(x = 1; 2) + x` reads `x` first.  `Term.Ordered` keeps sequences away
from the operands of one instruction; they may be the whole program, a function body, an assigned
value, a branch, a right side of `and` or `or`, a condition or result of a `case` block, and
also stand where an instruction has no other operand.
-/
namespace Formula

/-- The operands that lie on the stack beside others, or are left there if access is off. -/
def Term.siblings : Term → List Term
  | .binary _ left right => [left, right]
  | .member target _ => [target]
  | .index target key => [target, key]
  | .call callee arguments => callee :: arguments
  | .array items => items
  | .object fields => fields.map Prod.snd
  | _ => []

/-- Whether a term is a sequence of statements. -/
def Term.isSequence : Term → Bool
  | .sequence _ _ => true
  | _ => false

/-- No sequence of statements stands among the operands of one instruction, at any depth. -/
inductive Term.Ordered : Term → Prop
  | intro {t : Term} (children : ∀ child ∈ t.children, child.Ordered)
      (siblings : ∀ operand ∈ t.siblings, operand.isSequence = false) : Ordered t

theorem Term.Ordered.child {t child : Term} (h : t.Ordered) (hc : child ∈ t.children) :
    child.Ordered := by
  obtain ⟨children, -⟩ := h
  exact children child hc

theorem Term.Ordered.sibling {t operand : Term} (h : t.Ordered) (ho : operand ∈ t.siblings) :
    operand.isSequence = false := by
  obtain ⟨-, siblings⟩ := h
  exact siblings operand ho

theorem Term.Ordered.literal (v : Value) : (Term.literal v).Ordered :=
  .intro (fun _ h => nomatch h) fun _ h => nomatch h

theorem Term.Ordered.var (name : String) : (Term.var name).Ordered :=
  .intro (fun _ h => nomatch h) fun _ h => nomatch h

/-- The program is that of these statements, and no sequence stands among operands in them. -/
structure IsCodeOf (program : Program) (first : Term) (rest : List Term) : Prop where
  code : first.code ++ statementsCode rest = program
  first_ordered : first.Ordered
  rest_ordered : ∀ t ∈ rest, t.Ordered

namespace Evaluation
section
variable (options : Options) (functions : Registry)

section Level
/- `deeper` evaluates statements in a row, and `body` the body of a function, one level deeper. -/
variable (deeper : Term → List Term → Evaluation Value) (body : Program → Evaluation Value)

/-- The result of the first arm whose condition holds: is true, or equals the subject. -/
def treeArms (subject : Option Value) (otherwise : Option Term) :
    List (Term × Term) → Evaluation Value
  | [] =>
    match otherwise with
    | some result => deeper result []
    | none => pure .undefined
  | (condition, result) :: rest => do
    let v ← deeper condition []
    let holds := match subject with
      | some subject => v.same subject
      | none => v.isTruthy
    if holds then deeper result [] else treeArms subject otherwise rest

mutual

/-- The value of a term. -/
def treeValue : Term → Evaluation Value
  | .literal v => pure v
  | .undefined => pure .undefined
  | .var name => lookup options functions name
  | .unary op operand => do
    let x ← treeValue operand
    lift (op.apply x)
  | .binary op left right => do
    let x ← treeValue left
    let y ← treeValue right
    lift (op.apply x y)
  | .and left right => do
    let x ← treeValue left
    if x.isTruthy then return .bool (← deeper right []).isTruthy else return .bool false
  | .or left right => do
    let x ← treeValue left
    if x.isTruthy then return .bool true else return .bool (← deeper right []).isTruthy
  | .choose condition yes no => do
    let x ← treeValue condition
    if x.isTruthy then deeper yes [] else deeper no []
  | .caseOf subject arms otherwise => do
    let x ← treeSubject subject
    treeArms deeper x otherwise arms
  | .member target name => do
    let x ← treeValue target
    if options.allowMemberAccess then lift (x.member name) else fail (.access .memberAccessOff)
  | .index target key => do
    let x ← treeValue target
    let y ← treeValue key
    if options.allowMemberAccess then lift (x.index y) else fail (.access .memberAccessOff)
  | .call callee arguments => do
    let f ← treeValue callee
    let xs ← treeValues arguments
    call functions body f xs
  | .array items => return .array (← treeValues items)
  | .object fields => return .object (Dict.ofPairs (← treeEntries fields))
  | .assign root path value => do
    let v ← deeper value []
    assign options (targetName root path) v
    return v
  | .define name params body => makeFunction name params body.code
  | .sequence first rest => deeper first rest

/-- The value of the subject of a `case` block, if it has one. -/
def treeSubject : Option Term → Evaluation (Option Value)
  | none => pure none
  | some subject => some <$> treeValue subject

/-- The values of operands in a row, the first one first. -/
def treeValues : List Term → Evaluation (List Value)
  | [] => pure []
  | t :: rest => do
    let x ← treeValue t
    let xs ← treeValues rest
    return x :: xs

/-- The fields of an object, the first one first. -/
def treeEntries : List (String × Term) → Evaluation (List (String × Value))
  | [] => pure []
  | (key, t) :: rest => do
    let x ← treeValue t
    let xs ← treeEntries rest
    return (key, x) :: xs

end

/-- The values of statements in a row; the last one counts. -/
def treeLast : Term → List Term → Evaluation Value
  | first, [] => treeValue options functions deeper body first
  | first, next :: rest => do
    let _ ← treeValue options functions deeper body first
    treeLast next rest

end Level

/-- The value of a function body: of the statements whose program it is.  A closure made elsewhere
may hold a program that is not the code of any ordered statements; the machine runs it. -/
noncomputable def treeBody (deeper : Term → List Term → Evaluation Value)
    (machine : Program → Evaluation Value) (body : Program) : Evaluation Value := by
  classical
  exact if h : ∃ statements : Term × List Term, IsCodeOf body statements.1 statements.2 then
    deeper (Classical.choose h).1 (Classical.choose h).2
  else machine body

/-- The value of statements that may nest `depth` levels deep. -/
noncomputable def treeRun : Nat → Term → List Term → Evaluation Value
  | 0, _, _ => fail (.evaluation (.tooDeep options.maxDepth))
  | depth + 1, first, rest =>
    treeLast options functions (treeRun depth)
      (treeBody (treeRun depth) (run options functions depth)) first rest

end
end Evaluation

/-- Evaluates a term on the variables of a context. -/
noncomputable def Term.evaluate (options : Options) (functions : Registry) (t : Term)
    (context : Context) : Except Error Value × Context :=
  match Evaluation.treeRun options functions options.maxDepth t [] { context with } with
  | .ok v s => (.ok v, s.toContext)
  | .error e s => (.error e, s.toContext)

namespace Evaluation

/-! ## One level -/

section
variable {options : Options} {functions : Registry} {run : Program → Evaluation Value}
  {deeper : Term → List Term → Evaluation Value}

/-- Running the code of ordered statements is evaluating the statements. -/
def Agrees (run : Program → Evaluation Value) (deeper : Term → List Term → Evaluation Value) :
    Prop :=
  ∀ first rest, first.Ordered → (∀ t ∈ rest, t.Ordered) →
    run (first.code ++ statementsCode rest) = deeper first rest

theorem Agrees.code (h : Agrees run deeper) {t : Term} (ht : t.Ordered) :
    run t.code = deeper t [] := by
  have := h t [] ht (by simp)
  rwa [statementsCode, List.append_nil] at this

theorem chooseArm_eq_treeArms (h : Agrees run deeper) (subject : Option Value)
    {arms : List (Term × Term)} {otherwise : Option Term}
    (harms : ∀ arm ∈ arms, arm.1.Ordered ∧ arm.2.Ordered) (hlast : ∀ t ∈ otherwise, t.Ordered) :
    chooseArm run subject (otherwise.map fun t => .waiting t.code) (armOperands arms)
      = treeArms deeper subject otherwise arms := by
  induction arms with
  | nil =>
    cases otherwise with
    | none => rfl
    | some t => exact h.code (hlast t rfl)
  | cons arm arms ih =>
    obtain ⟨condition, result⟩ := arm
    obtain ⟨⟨hc, hr⟩, harms⟩ := List.forall_mem_cons.mp harms
    show chooseArm run subject _
      (.waiting condition.code :: .waiting result.code :: armOperands arms) = _
    rw [chooseArm, treeArms, ← ih harms, ← h.code hc, ← h.code hr]
    rfl

theorem pushed_bind_resolve {α : Type} (t : Term) (f : Value → Evaluation α) :
    (pushed options functions run t >>= fun x => resolve run x.operand >>= f)
      = settled options functions run t >>= f := by
  rw [settled, bind_assoc]

/-- What is left is a value: to take its value and leave that again makes no difference. -/
def Prompt (run : Program → Evaluation Value) (m : Evaluation Pushed) : Prop :=
  (do let x ← m; return Pushed.value (← resolve run x.operand)) = m

theorem Prompt.value (v : Value) : Prompt run (pure (.value v)) := rfl

theorem Prompt.fail (fault : Fault) : Prompt run (fail fault) := rfl

theorem Prompt.bind {α : Type} {m : Evaluation α} {f : α → Evaluation Pushed}
    (h : ∀ a, Prompt run (f a)) : Prompt run (m >>= f) := by
  rw [Prompt, bind_assoc]
  exact bind_congr h

/-- What is no sequence leaves its value at once. -/
theorem pushed_of_not_sequence {t : Term} (ht : t.isSequence = false) :
    pushed options functions run t
      = (do return Pushed.value (← settled options functions run t)) := by
  have hprompt : Prompt run (pushed options functions run t) := by
    cases t with
    | sequence first rest => cases ht
    | literal v => exact .value v
    | undefined => exact .value _
    | var name => exact .bind .value
    | unary op operand => exact .bind fun _ => .bind fun _ => .bind .value
    | binary op left right =>
      exact .bind fun _ => .bind fun _ => .bind fun _ => .bind fun _ => .bind .value
    | and left right =>
      refine .bind fun _ => .bind fun x => ?_
      split
      · exact .bind fun _ => .value _
      · exact .value _
    | or left right =>
      refine .bind fun _ => .bind fun x => ?_
      split
      · exact .value _
      · exact .bind fun _ => .value _
    | choose condition yes no => exact .bind fun _ => .bind fun _ => .bind .value
    | caseOf subject arms otherwise => exact .bind fun _ => .bind fun _ => .bind .value
    | member target name =>
      refine .bind fun _ => ?_
      split
      · exact .bind fun _ => .bind .value
      · exact .fail _
    | index target key =>
      refine .bind fun _ => .bind fun _ => ?_
      split
      · exact .bind fun _ => .bind fun _ => .bind .value
      · exact .fail _
    | call callee arguments =>
      exact .bind fun _ => .bind fun _ => .bind fun _ => .bind fun _ => .bind .value
    | array items => exact .bind fun _ => .bind fun _ => .value _
    | object fields => exact .bind fun _ => .bind fun _ => .value _
    | assign root path value => exact .bind fun _ => .bind fun _ => .value _
    | define name params body => exact .bind .value
  rw [settled, bind_assoc]
  exact hprompt.symm

/-- What is left is a value already, so that nothing is run later. -/
def Immediate (options : Options) (functions : Registry) (run : Program → Evaluation Value)
    (deeper : Term → List Term → Evaluation Value) (t : Term) : Prop :=
  pushed options functions run t = Pushed.value <$> treeValue options functions deeper run t

theorem Immediate.settled {t : Term} (h : Immediate options functions run deeper t) :
    settled options functions run t = treeValue options functions deeper run t := by
  rw [Evaluation.settled, h, map_eq_pure_bind, bind_assoc]
  simp [Pushed.operand, resolve]

theorem pushedAll_eq_treeValues {terms : List Term}
    (h : ∀ t ∈ terms, Immediate options functions run deeper t) :
    pushedAll options functions run terms
      = List.map Pushed.value <$> treeValues options functions deeper run terms := by
  induction terms with
  | nil => simp [pushedAll, treeValues]
  | cons t terms ih =>
    obtain ⟨ht, hterms⟩ := List.forall_mem_cons.mp h
    rw [pushedAll, treeValues, ht, ih hterms]
    simp

theorem pushedEntries_eq_treeEntries {entries : List (String × Term)}
    (h : ∀ entry ∈ entries, Immediate options functions run deeper entry.2) :
    pushedEntries options functions run entries
      = List.map (fun entry => (entry.1, Pushed.value entry.2))
          <$> treeEntries options functions deeper run entries := by
  induction entries with
  | nil => simp [pushedEntries, treeEntries]
  | cons entry entries ih =>
    obtain ⟨ht, hterms⟩ := List.forall_mem_cons.mp h
    obtain ⟨key, t⟩ := entry
    rw [pushedEntries, treeEntries, ht, ih hterms]
    simp

theorem map_fail {α β : Type} (f : α → β) (fault : Fault) :
    f <$> (fail fault : Evaluation α) = fail fault := rfl

theorem fields_value (entries : Dict Value) (pairs : List (String × Value)) :
    fields run entries (entryOperands (pairs.map fun pair => (pair.1, Pushed.value pair.2)))
      = pure (pairs.foldl (fun entries pair => entries.insert pair.1 pair.2) entries) := by
  induction pairs generalizing entries with
  | nil => rfl
  | cons pair pairs ih => exact ih _

/-- What a term of a sort leaves: all but sequences leave their value at once, and a sequence has
its value when it is run. -/
def Faithful (options : Options) (functions : Registry) (run : Program → Evaluation Value)
    (deeper : Term → List Term → Evaluation Value) (t : Term) : Prop :=
  (t.isSequence = false → Immediate options functions run deeper t) ∧
    settled options functions run t = treeValue options functions deeper run t

theorem Immediate.faithful {t : Term} (h : Immediate options functions run deeper t) :
    Faithful options functions run deeper t := ⟨fun _ => h, h.settled⟩

/-- **One level of the machine is one level of the evaluator.** -/
theorem faithful_of_ordered (h : Agrees run deeper) (t : Term) (ht : t.Ordered) :
    Faithful options functions run deeper t := by
  induction t with
  | literal v => exact Immediate.faithful (by simp [Immediate, pushed, treeValue])
  | undefined => exact Immediate.faithful (by simp [Immediate, pushed, treeValue])
  | var name => exact Immediate.faithful (by simp [Immediate, pushed, treeValue])
  | unary op operand ih =>
    have ho := (ih (ht.child (by simp [Term.children]))).2
    refine Immediate.faithful ?_
    rw [Immediate, pushed, treeValue, pushed_bind_resolve, ho]
    simp
  | binary op left right ihl ihr =>
    have hl := (ihl (ht.child (by simp [Term.children]))).1 (ht.sibling (by simp [Term.siblings]))
    have hr := (ihr (ht.child (by simp [Term.children]))).1 (ht.sibling (by simp [Term.siblings]))
    refine Immediate.faithful ?_
    rw [Immediate, pushed, treeValue, hl, hr]
    simp [Pushed.operand, resolve]
  | and left right ihl ihr =>
    have hl := (ihl (ht.child (by simp [Term.children]))).2
    have hr := h.code (t := right) (ht.child (by simp [Term.children]))
    refine Immediate.faithful ?_
    rw [Immediate, pushed, treeValue, pushed_bind_resolve, hl, hr, map_bind]
    refine bind_congr fun x => ?_
    split <;> simp
  | or left right ihl ihr =>
    have hl := (ihl (ht.child (by simp [Term.children]))).2
    have hr := h.code (t := right) (ht.child (by simp [Term.children]))
    refine Immediate.faithful ?_
    rw [Immediate, pushed, treeValue, pushed_bind_resolve, hl, hr, map_bind]
    refine bind_congr fun x => ?_
    split <;> simp
  | choose condition yes no ihc ihy ihn =>
    have hc := (ihc (ht.child (by simp [Term.children]))).2
    have hy := h.code (t := yes) (ht.child (by simp [Term.children]))
    have hn := h.code (t := no) (ht.child (by simp [Term.children]))
    refine Immediate.faithful ?_
    rw [Immediate, pushed, treeValue, pushed_bind_resolve, hc, map_bind]
    refine bind_congr fun x => ?_
    split
    · rw [hy]; simp
    · rw [hn]; simp
  | caseOf subject arms otherwise ihs iha iho =>
    have harms : ∀ arm ∈ arms, arm.1.Ordered ∧ arm.2.Ordered := by
      intro arm harm
      obtain ⟨hcondition, hresult⟩ := mem_children_of_arm harm
      exact ⟨ht.child hcondition, ht.child hresult⟩
    have hlast : ∀ t ∈ otherwise, t.Ordered := by
      intro t hlast
      exact ht.child (otherwise_mem_children hlast)
    refine Immediate.faithful ?_
    rw [Immediate, pushed, treeValue]
    cases subject with
    | none =>
      simp [pushedSubject, treeSubject, resolveSubject, chooseArm_eq_treeArms h none harms hlast]
    | some t =>
      have hs := (ihs t rfl (ht.child (subject_mem_children rfl))).2
      simp only [pushedSubject, treeSubject, resolveSubject, map_eq_pure_bind, bind_assoc,
        pure_bind, pushed_bind_resolve, hs, chooseArm_eq_treeArms h _ harms hlast]
  | member target name ih =>
    have ho := (ih (ht.child (by simp [Term.children]))).1 (ht.sibling (by simp [Term.siblings]))
    refine Immediate.faithful ?_
    rw [Immediate, pushed, treeValue, ho]
    split <;> simp [Pushed.operand, resolve, map_fail]
  | index target key iht ihk =>
    have hl := (iht (ht.child (by simp [Term.children]))).1 (ht.sibling (by simp [Term.siblings]))
    have hr := (ihk (ht.child (by simp [Term.children]))).1 (ht.sibling (by simp [Term.siblings]))
    refine Immediate.faithful ?_
    rw [Immediate, pushed, treeValue, hl, hr]
    split <;> simp [Pushed.operand, resolve, map_fail]
  | call callee arguments ihc iha =>
    have hc := (ihc (ht.child (by simp [Term.children]))).1 (ht.sibling (by simp [Term.siblings]))
    have ha := pushedAll_eq_treeValues fun t hmem => (iha t hmem (ht.child (.tail _ hmem))).1
      (ht.sibling (.tail _ hmem))
    refine Immediate.faithful ?_
    rw [Immediate, pushed, treeValue, hc, ha]
    simp [Pushed.operand, resolve, mapM_resolve_value]
  | array items ih =>
    have hi := pushedAll_eq_treeValues fun t hmem => (ih t hmem (ht.child hmem)).1 (ht.sibling hmem)
    refine Immediate.faithful ?_
    rw [Immediate, pushed, treeValue, hi]
    simp [mapM_resolve_value]
  | object entries ih =>
    have hmem : ∀ entry ∈ entries, entry.2 ∈ entries.map Prod.snd :=
      fun entry => List.mem_map_of_mem
    have he := pushedEntries_eq_treeEntries fun entry h =>
      (ih entry h (ht.child (hmem entry h))).1 (ht.sibling (hmem entry h))
    refine Immediate.faithful ?_
    rw [Immediate, pushed, treeValue, he]
    simp [fields_value, Dict.ofPairs]
  | assign root path value ih =>
    have hv := h.code (t := value) (ht.child (by simp [Term.children]))
    refine Immediate.faithful ?_
    rw [Immediate, pushed, treeValue, hv]
    simp
  | define name params body ih =>
    exact Immediate.faithful (by simp [Immediate, pushed, treeValue])
  | sequence first rest ihf ihr =>
    -- a sequence waits on the stack until it is used
    refine ⟨fun hs => by simp [Term.isSequence] at hs, ?_⟩
    simp only [settled, pushed, treeValue, pure_bind]
    exact h first rest (ht.child (.head _)) fun t hmem => ht.child (.tail _ hmem)

theorem settledLast_eq_treeLast (h : Agrees run deeper) {first : Term} {rest : List Term}
    (hfirst : first.Ordered) (hrest : ∀ t ∈ rest, t.Ordered) :
    settledLast options functions run first rest
      = treeLast options functions deeper run first rest := by
  induction rest generalizing first with
  | nil => exact (faithful_of_ordered h first hfirst).2
  | cons next rest ih =>
    obtain ⟨hnext, hrest⟩ := List.forall_mem_cons.mp hrest
    rw [settledLast, treeLast, ih hnext hrest, (faithful_of_ordered h first hfirst).2]

/-- A body is evaluated as it is run, whatever it is the code of. -/
theorem treeBody_eq (h : Agrees run deeper) : treeBody deeper run = run := by
  classical
  funext body
  unfold treeBody
  split
  · rename_i hex
    -- the chosen statements may be others than the body was made of, but their code is the body
    obtain ⟨hcode, hfirst, hrest⟩ := Classical.choose_spec hex
    rw [← h _ _ hfirst hrest, hcode]
  · rfl

end

/-! ## All levels -/

section
variable (options : Options) (functions : Registry)

/-- **Running the code of ordered statements is evaluating them**, at every depth. -/
theorem agrees_run (depth : Nat) :
    Agrees (run options functions depth) (treeRun options functions depth) := by
  induction depth with
  | zero =>
    intro first rest _ _
    rfl
  | succ depth ih =>
    intro first rest hfirst hrest
    rw [run, treeRun, execute_statements, treeBody_eq ih, settledLast_eq_treeLast ih hfirst hrest]

/-- The body of a function is evaluated as the tree that it was defined with. -/
theorem treeBody_code {t : Term} (ht : t.Ordered) (depth : Nat) :
    treeBody (treeRun options functions depth) (run options functions depth) t.code
      = treeRun options functions depth t [] := by
  have h := agrees_run options functions depth
  rw [treeBody_eq h, h.code ht]

end

/-- **The machine implements the evaluation of trees.**  Running the code of an ordered term on any
variables gives the value or error of the term, its variables and its calls of the host; and a
function that was defined with the body `t` is evaluated as the tree `t` when it is called. -/
theorem evaluate_code (options : Options) (functions : Registry) {t : Term} (ht : t.Ordered) :
    (∀ context, t.code.evaluate options functions context = t.evaluate options functions context) ∧
      ∀ depth, treeBody (treeRun options functions depth) (run options functions depth) t.code
        = treeRun options functions depth t [] := by
  refine ⟨fun context => ?_, treeBody_code options functions ht⟩
  have h := (agrees_run options functions options.maxDepth).code ht
  cases hr : treeRun options functions options.maxDepth t [] { context with } with
  | ok v s => simp only [Program.evaluate, Term.evaluate, h, hr]
  | error e s => simp only [Program.evaluate, Term.evaluate, h, hr]

/-- `f(x) = (y = x; y || y); f("a")`, with a sequence as the body of a function. -/
theorem evaluate_code_statements_in_body :
    let body : Term := .sequence (.assign "y" [] (.var "x"))
      [.binary .concatenate (.var "y") (.var "y")]
    let t : Term := .sequence (.define "f" ["x"] body)
      [.call (.var "f") [.literal (.string "a")]]
    t.Ordered ∧ t.code.evaluate {} {} {} = t.evaluate {} {} {} := by
  intro body t
  have hbody : body.Ordered := by
    refine .intro (List.forall_mem_cons.mpr ⟨?_, List.forall_mem_singleton.mpr ?_⟩)
      (by simp [body, Term.siblings])
    · exact .intro (List.forall_mem_singleton.mpr (.var "x")) (by simp [Term.siblings])
    · exact .intro (List.forall_mem_cons.mpr ⟨.var "y", List.forall_mem_singleton.mpr (.var "y")⟩)
        (by simp [Term.siblings, Term.isSequence])
  have ht : t.Ordered := by
    refine .intro (List.forall_mem_cons.mpr ⟨?_, List.forall_mem_singleton.mpr ?_⟩)
      (by simp [t, Term.siblings])
    · exact .intro (List.forall_mem_singleton.mpr hbody) (by simp [Term.siblings])
    · exact .intro (List.forall_mem_cons.mpr
        ⟨.var "f", List.forall_mem_singleton.mpr (.literal (.string "a"))⟩)
        (by simp [Term.siblings, Term.isSequence])
  exact ⟨ht, (evaluate_code {} {} ht).1 {}⟩

end Evaluation
end Formula
