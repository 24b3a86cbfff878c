import Formula.Evaluation.Machine
import Formula.Proofs.Trees

/-! # What the code of a term does to the stack

The code of a term leaves exactly one operand on the stack and touches nothing below it
(`execute_code`).  That operand is a value, or, if the term is a sequence of statements, a program
that waits: a sequence runs when its operand is used, not when its code is reached.  `Term.pushed`
says what is left and what happens on the way, by recursion on the term and without a stack; the
proofs about runs are about `Term.pushed` from here on.
-/
namespace Formula

/-- What the code of a term leaves on the stack. -/
inductive Pushed
  | value (v : Value)
  /-- A program whose value has not been wanted yet. -/
  | waiting (program : Program)

/-- What was left, as an operand. -/
def Pushed.operand : Pushed → Operand
  | .value v => .value v
  | .waiting program => .waiting program

/-- Keys and what was left behind each, as the operands of an object. -/
def entryOperands (entries : List (String × Pushed)) : List Operand :=
  entries.flatMap fun entry => [.key entry.1, entry.2.operand]

/-- Conditions and results as the operands of a `case` block. -/
def armOperands (arms : List (Term × Term)) : List Operand :=
  arms.flatMap fun arm => [.waiting arm.1.code, .waiting arm.2.code]

namespace Evaluation
section
variable (options : Options) (functions : Registry) (run : Program → Evaluation Value)

/-- The value of the subject of a `case` block, if it has one. -/
def resolveSubject : Option Pushed → Evaluation (Option Value)
  | none => pure none
  | some x => some <$> resolve run x.operand

mutual

/-- What the code of a term leaves. -/
@[simp] def pushed : Term → Evaluation Pushed
  | .literal v => pure (.value v)
  | .undefined => pure (.value .undefined)
  | .var name => return .value (← lookup options functions name)
  | .unary op operand => do
    let x ← pushed operand
    let x ← resolve run x.operand
    return .value (← lift (op.apply x))
  | .binary op left right => do
    let x ← pushed left
    let y ← pushed right
    let x ← resolve run x.operand
    let y ← resolve run y.operand
    return .value (← lift (op.apply x y))
  | .and left right => do
    let x ← pushed left
    let x ← resolve run x.operand
    if x.isTruthy then return .value (.bool (← run right.code).isTruthy)
    else return .value (.bool false)
  | .or left right => do
    let x ← pushed left
    let x ← resolve run x.operand
    if x.isTruthy then return .value (.bool true)
    else return .value (.bool (← run right.code).isTruthy)
  | .choose condition yes no => do
    let x ← pushed condition
    let x ← resolve run x.operand
    return .value (← run (if x.isTruthy then yes else no).code)
  | .caseOf subject arms otherwise => do
    let x ← pushedSubject subject
    let x ← resolveSubject run x
    return .value (← chooseArm run x (otherwise.map fun t => .waiting t.code) (armOperands arms))
  | .member target name => do
    let x ← pushed target
    if options.allowMemberAccess then
      let x ← resolve run x.operand
      return .value (← lift (x.member name))
    else fail (.access .memberAccessOff)
  | .index target key => do
    let x ← pushed target
    let y ← pushed key
    if options.allowMemberAccess then
      let x ← resolve run x.operand
      let y ← resolve run y.operand
      return .value (← lift (x.index y))
    else fail (.access .memberAccessOff)
  | .call callee arguments => do
    let x ← pushed callee
    let ys ← pushedAll arguments
    let x ← resolve run x.operand
    let ys ← (ys.map Pushed.operand).mapM (resolve run)
    return .value (← call functions run x ys)
  | .array items => do
    let xs ← pushedAll items
    return .value (.array (← (xs.map Pushed.operand).mapM (resolve run)))
  | .object entries => do
    let xs ← pushedEntries entries
    return .value (.object (← fields run [] (entryOperands xs)))
  | .assign root path value => do
    let v ← run value.code
    assign options (targetName root path) v
    return .value v
  | .define name params body => return .value (← makeFunction name params body.code)
  | .sequence first rest => pure (.waiting (first.code ++ statementsCode rest))

/-- What the code of the subject of a `case` block leaves. -/
def pushedSubject : Option Term → Evaluation (Option Pushed)
  | none => pure none
  | some subject => some <$> pushed subject

/-- What operands in a row leave. -/
def pushedAll : List Term → Evaluation (List Pushed)
  | [] => pure []
  | t :: rest => do
    let x ← pushed t
    let xs ← pushedAll rest
    return x :: xs

/-- What the fields of an object leave. -/
def pushedEntries : List (String × Term) → Evaluation (List (String × Pushed))
  | [] => pure []
  | (key, t) :: rest => do
    let x ← pushed t
    let xs ← pushedEntries rest
    return (key, x) :: xs

end

/-- The value of a term: what its code leaves, run if it waits. -/
def settled (t : Term) : Evaluation Value := do
  let x ← pushed options functions run t
  resolve run x.operand

/-- The values of statements in a row; the last one counts. -/
def settledLast : Term → List Term → Evaluation Value
  | first, [] => settled options functions run first
  | first, next :: rest => do
    let _ ← settled options functions run first
    settledLast next rest

end

/-! ## Taking operands off the stack -/

theorem popMany_append {n : Nat} {operands : List Operand} (h : operands.length = n)
    (stack : List Operand) : popMany n (operands.reverse ++ stack) = pure (operands, stack) := by
  subst h
  simp [popMany]

theorem popNames_map (topmost names : List String) (stack : List Operand) :
    popNames topmost.length names (topmost.map .name ++ stack)
      = pure (topmost.reverse ++ names, stack) := by
  induction topmost generalizing names with
  | nil => rfl
  | cons path rest ih =>
    show popNames rest.length (path :: names) (rest.map .name ++ stack) = _
    rw [ih, List.reverse_cons, List.append_assoc]
    rfl

theorem popNames_append (names : List String) (stack : List Operand) :
    popNames names.length [] ((names.map .name).reverse ++ stack) = pure (names, stack) := by
  have h := popNames_map names.reverse [] stack
  rwa [List.length_reverse, List.reverse_reverse, List.append_nil, List.map_reverse] at h

theorem popToMark_append {operands : List Operand} (h : Operand.mark ∉ operands)
    (above stack : List Operand) :
    popToMark above (operands ++ .mark :: stack) = pure (operands.reverse ++ above, stack) := by
  induction operands generalizing above with
  | nil => rfl
  | cons operand rest ih =>
    have hrest : Operand.mark ∉ rest := List.not_mem_of_not_mem_cons h
    cases operand with
    | mark => exact absurd List.mem_cons_self h
    | _ =>
      rw [List.cons_append, popToMark, ih hrest, List.reverse_cons, List.append_assoc]
      · rfl
      · exact fun h => nomatch h

theorem mark_notMem_entryOperands (entries : List (String × Pushed)) :
    Operand.mark ∉ entryOperands entries := by
  intro h
  obtain ⟨⟨key, x⟩, -, hx⟩ := List.mem_flatMap.mp h
  cases x <;> simp [Pushed.operand] at hx

theorem length_armOperands (arms : List (Term × Term)) :
    (armOperands arms).length = 2 * arms.length := by
  induction arms with
  | nil => rfl
  | cons arm arms ih =>
    show (armOperands arms).length + 2 = 2 * (arms.length + 1)
    omega

section
variable {options : Options} {functions : Registry} {run : Program → Evaluation Value}

/-- A `case` block takes its last result, its arms and its subject, and nothing below them. -/
theorem execute_caseOf (subject : Option Pushed) (arms : List (Term × Term))
    (otherwise : Option Term) (rest : Program) (stack : List Operand) :
    execute options functions run
        (otherwiseCode otherwise ++ .caseOf subject.isSome arms.length otherwise.isSome :: rest)
        ((armOperands arms).reverse ++ ((subject.map Pushed.operand).toList ++ stack))
      = resolveSubject run subject >>= fun x =>
        chooseArm run x (otherwise.map fun t => .waiting t.code) (armOperands arms) >>= fun v =>
        execute options functions run rest (.value v :: stack) := by
  have harms := length_armOperands arms
  cases otherwise <;> cases subject <;>
    simp [otherwiseCode, execute, step, caseOf, pop, popMany_append harms, resolveSubject]

/-! ## What code does -/

/-- The code of a term does to the stack what `pushed` says, whatever follows the code. -/
def Pushes (options : Options) (functions : Registry) (run : Program → Evaluation Value)
    (t : Term) : Prop :=
  ∀ rest stack, execute options functions run (t.code ++ rest) stack
    = pushed options functions run t >>= fun x =>
        execute options functions run rest (x.operand :: stack)

theorem execute_operandsCode {terms : List Term}
    (h : ∀ t ∈ terms, Pushes options functions run t) (rest : Program) (stack : List Operand) :
    execute options functions run (operandsCode terms ++ rest) stack
      = pushedAll options functions run terms >>= fun xs =>
          execute options functions run rest ((xs.map Pushed.operand).reverse ++ stack) := by
  induction terms generalizing stack with
  | nil => simp [operandsCode, pushedAll]
  | cons t terms ih =>
    obtain ⟨ht, hterms⟩ := List.forall_mem_cons.mp h
    simp [operandsCode, pushedAll, ht _ _, ih hterms]

theorem execute_fieldsCode {entries : List (String × Term)}
    (h : ∀ entry ∈ entries, Pushes options functions run entry.2) (rest : Program)
    (stack : List Operand) :
    execute options functions run (fieldsCode entries ++ rest) stack
      = pushedEntries options functions run entries >>= fun xs =>
          execute options functions run rest ((entryOperands xs).reverse ++ stack) := by
  induction entries generalizing stack with
  | nil => simp [fieldsCode, pushedEntries, entryOperands]
  | cons entry entries ih =>
    obtain ⟨ht, hterms⟩ := List.forall_mem_cons.mp h
    obtain ⟨key, t⟩ := entry
    simp [fieldsCode, pushedEntries, execute, step, ht _ _, ih hterms, entryOperands]

theorem execute_armsCode (arms : List (Term × Term)) (rest : Program) (stack : List Operand) :
    execute options functions run (armsCode arms ++ rest) stack
      = execute options functions run rest ((armOperands arms).reverse ++ stack) := by
  induction arms generalizing stack with
  | nil => simp [armsCode, armOperands]
  | cons arm arms ih =>
    obtain ⟨condition, result⟩ := arm
    simp [armsCode, execute, step, ih, armOperands]

theorem execute_names (names : List String) (rest : Program) (stack : List Operand) :
    execute options functions run (names.map .name ++ rest) stack
      = execute options functions run rest ((names.map .name).reverse ++ stack) := by
  induction names generalizing stack with
  | nil => rfl
  | cons name names ih => simp [execute, step, ih]

theorem mapM_resolve_value (xs : List Value) :
    xs.mapM ((resolve run ∘ Pushed.operand) ∘ Pushed.value) = pure xs := by
  have h : (resolve run ∘ Pushed.operand) ∘ Pushed.value = pure := rfl
  rw [h, List.mapM_pure, List.map_id']

/-- As many operands are left as there are terms. -/
theorem pushedAll_bind_congr {α : Type} (terms : List Term) {f g : List Pushed → Evaluation α}
    (h : ∀ xs, xs.length = terms.length → f xs = g xs) :
    pushedAll options functions run terms >>= f = pushedAll options functions run terms >>= g := by
  induction terms generalizing f g with
  | nil => simpa [pushedAll] using h [] rfl
  | cons t terms ih =>
    simp only [pushedAll, bind_assoc, pure_bind]
    refine bind_congr fun x => ih fun xs hxs => h (x :: xs) ?_
    rw [List.length_cons, hxs, List.length_cons]

/-- **The code of a term leaves one operand on the stack**, the one that `pushed` names, and does
nothing else. -/
theorem execute_code (t : Term) : Pushes options functions run t := by
  induction t with
  | literal v => intro rest stack; simp [Term.code, pushed, execute, step, Pushed.operand]
  | undefined => intro rest stack; simp [Term.code, pushed, execute, step, Pushed.operand]
  | var name => intro rest stack; simp [Term.code, pushed, execute, step, Pushed.operand]
  | unary op operand ih =>
    intro rest stack
    simp [Term.code, pushed, ih _ _, execute, step, pop, Pushed.operand]
  | binary op left right ihl ihr =>
    intro rest stack
    simp [Term.code, pushed, ihl _ _, ihr _ _, execute, step, pop, Pushed.operand]
  | and left right ihl ihr =>
    intro rest stack
    simp only [Term.code, pushed, List.append_assoc, ihl _ _, bind_assoc]
    refine bind_congr fun x => ?_
    simp only [List.cons_append, List.nil_append, execute, step, pop, pure_bind, bind_assoc]
    refine bind_congr fun x => ?_
    split <;> simp [resolve, Pushed.operand]
  | or left right ihl ihr =>
    intro rest stack
    simp only [Term.code, pushed, List.append_assoc, ihl _ _, bind_assoc]
    refine bind_congr fun x => ?_
    simp only [List.cons_append, List.nil_append, execute, step, pop, pure_bind, bind_assoc]
    refine bind_congr fun x => ?_
    split <;> simp [resolve, Pushed.operand]
  | choose condition yes no ihc ihy ihn =>
    intro rest stack
    simp only [Term.code, pushed, List.append_assoc, ihc _ _, bind_assoc]
    refine bind_congr fun x => ?_
    simp only [List.cons_append, List.nil_append, execute, step, pop, pure_bind, bind_assoc]
    refine bind_congr fun x => ?_
    split <;> simp [resolve, Pushed.operand]
  | member target name ih =>
    intro rest stack
    simp only [Term.code, pushed, List.append_assoc, ih _ _, bind_assoc]
    refine bind_congr fun x => ?_
    simp only [List.cons_append, List.nil_append, execute, step, pop, pure_bind]
    split <;> simp [Pushed.operand]
  | index target key iht ihk =>
    intro rest stack
    simp only [Term.code, pushed, List.append_assoc, iht _ _, ihk _ _, bind_assoc]
    refine bind_congr fun x => bind_congr fun y => ?_
    simp only [List.cons_append, List.nil_append, execute, step, pop, pure_bind]
    split <;> simp [Pushed.operand]
  | call callee arguments ihc iha =>
    intro rest stack
    simp only [Term.code, pushed, List.append_assoc, ihc _ _, bind_assoc,
      execute_operandsCode iha]
    refine bind_congr fun x => pushedAll_bind_congr _ fun xs hxs => ?_
    simp only [List.cons_append, List.nil_append, execute, step]
    rw [popMany_append (by rw [List.length_map, hxs])]
    simp [pop, Pushed.operand]
  | array items ih =>
    intro rest stack
    simp only [Term.code, pushed, List.append_assoc, bind_assoc, execute_operandsCode ih]
    refine pushedAll_bind_congr _ fun xs hxs => ?_
    simp only [List.cons_append, List.nil_append, execute, step]
    rw [popMany_append (by rw [List.length_map, hxs])]
    simp [Pushed.operand]
  | object entries ih =>
    intro rest stack
    simp only [Term.code, pushed, List.append_assoc, List.cons_append, execute, step, pure_bind,
      execute_fieldsCode ih, bind_assoc]
    refine bind_congr fun xs => ?_
    rw [popToMark_append (by simpa using mark_notMem_entryOperands xs)]
    simp [Pushed.operand]
  | assign root path value ih =>
    intro rest stack
    simp [Term.code, pushed, execute, step, pop, resolve, Pushed.operand]
  | define name params body ih =>
    intro rest stack
    simp only [Term.code, pushed, List.append_assoc, List.cons_append, List.nil_append, execute,
      step, pure_bind, execute_names, define, pop, popNames_append, bind_assoc]
    rfl
  | caseOf subject arms otherwise ihs iha iho =>
    intro rest stack
    cases subject with
    | none =>
      simp only [Term.code, pushed, subjectCode, pushedSubject, execute_armsCode, List.nil_append,
        List.append_assoc, pure_bind, bind_assoc]
      exact execute_caseOf none arms otherwise rest stack
    | some t =>
      simp only [Term.code, pushed, subjectCode, pushedSubject, ihs t rfl _ _, execute_armsCode,
        List.append_assoc, map_eq_pure_bind, bind_assoc, pure_bind]
      exact bind_congr fun x => execute_caseOf (some x) arms otherwise rest stack
  | sequence first rest ihf ihr =>
    intro rest stack
    simp [Term.code, pushed, execute, step, Pushed.operand]

/-- **The code of statements in a row runs each of them once, in order**, and has the value of the
last. -/
theorem execute_statements (first : Term) (rest : List Term) :
    execute options functions run (first.code ++ statementsCode rest) []
      = settledLast options functions run first rest := by
  induction rest generalizing first with
  | nil =>
    rw [statementsCode, execute_code first]
    rfl
  | cons next rest ih =>
    simp [statementsCode, settledLast, settled, execute_code first _ _, execute, step, pop, ← ih]

end

theorem run_code (options : Options) (functions : Registry) (depth : Nat) (t : Term) :
    run options functions (depth + 1) t.code
      = settled options functions (run options functions depth) t := by
  rw [run, ← List.append_nil t.code, ← statementsCode, execute_statements, settledLast]

end Evaluation
end Formula
