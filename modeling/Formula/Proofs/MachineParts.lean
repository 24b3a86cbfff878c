import Formula.Expression

/-! # The machine in its parts

The machine is put together of small computations, and what is proved of all its runs is mostly a
property that a sequence of computations has because its parts have it (`Compositional`).  Such a
property goes from the running of programs to one instruction (`Compositional.step`).  If the few
operations have it that store, call the host or enter the body of a function, every run has it
(`Carried.run`).
-/
namespace Formula
namespace Evaluation

/-- A property of computations that one after another has if both have it; so have those that do
nothing, that look at the variables and that fail. -/
structure Compositional (J : {α : Type} → Evaluation α → Prop) : Prop where
  pure {α : Type} (a : α) : J (Pure.pure a : Evaluation α)
  fail {α : Type} (fault : Fault) : J (Evaluation.fail fault : Evaluation α)
  get : J (MonadState.get : Evaluation Scope)
  bind {α β : Type} {m : Evaluation α} {f : α → Evaluation β} (hm : J m) (hf : ∀ a, J (f a)) :
    J (m >>= f)

namespace Compositional
variable {J : {α : Type} → Evaluation α → Prop} (hJ : Compositional @J)
include hJ

theorem lift {α : Type} (result : Except Fault α) : J (Evaluation.lift result) := by
  cases result with
  | ok a => exact hJ.pure a
  | error fault => exact hJ.fail fault

theorem mapM {α β : Type} {f : α → Evaluation β} (hf : ∀ a, J (f a)) (xs : List α) :
    J (xs.mapM f) := by
  induction xs with
  | nil => exact hJ.pure []
  | cons x xs ih =>
    rw [List.mapM_cons]
    exact hJ.bind (hf x) fun _ => hJ.bind ih fun _ => hJ.pure _

theorem lookup (options : Options) (functions : Registry) (name : String) :
    J (Evaluation.lookup options functions name) := by
  refine hJ.bind (hJ.lift _) fun _ => ?_
  split
  · exact hJ.pure _
  · split
    · exact hJ.pure _
    · refine hJ.bind hJ.get fun s => ?_
      split
      · exact hJ.pure _
      · exact hJ.fail _

/-! ## The stack -/

theorem pop (stack : List Operand) : J (Evaluation.pop stack) := by
  cases stack with
  | nil => exact hJ.fail _
  | cons top rest => exact hJ.pure _

theorem popMany (n : Nat) (stack : List Operand) : J (Evaluation.popMany n stack) := by
  unfold Evaluation.popMany
  split
  · exact hJ.pure _
  · exact hJ.fail _

theorem popToMark (above stack : List Operand) : J (Evaluation.popToMark above stack) := by
  induction stack generalizing above with
  | nil => exact hJ.fail _
  | cons operand rest ih =>
    cases operand with
    | mark => exact hJ.pure _
    | _ => exact ih _

theorem popNames (n : Nat) (names : List String) (stack : List Operand) :
    J (Evaluation.popNames n names stack) := by
  induction n generalizing names stack with
  | zero => exact hJ.pure _
  | succ n ih =>
    refine hJ.bind (hJ.pop stack) fun top => ?_
    split
    · exact ih _ _
    · exact hJ.fail _

theorem define (hmake : ∀ name params body, J (makeFunction name params body)) (params : Nat)
    (stack : List Operand) : J (Evaluation.define params stack) := by
  refine hJ.bind (hJ.pop stack) fun top => ?_
  split
  · refine hJ.bind (hJ.popNames _ _ _) fun names => hJ.bind (hJ.pop _) fun below => ?_
    split
    · exact hJ.bind (hmake _ _ _) fun _ => hJ.pure _
    · exact hJ.fail _
  · exact hJ.fail _

/-! ## One instruction -/

section
variable {run : Program → Evaluation Value} (hrun : ∀ p, J (run p))
include hrun

theorem resolve (operand : Operand) : J (Evaluation.resolve run operand) := by
  cases operand with
  | value v => exact hJ.pure v
  | waiting program => exact hrun program
  | name path => exact hJ.pure _
  | mark => exact hJ.fail _
  | key name => exact hJ.fail _

theorem fields (entries : Dict Value) (operands : List Operand) :
    J (Evaluation.fields run entries operands) := by
  fun_induction Evaluation.fields run entries operands with
  | case1 entries => exact hJ.pure _
  | case2 entries name operand rest ih => exact hJ.bind (hJ.resolve hrun operand) fun v => ih v
  | case3 => exact hJ.fail _

theorem chooseArm (subject : Option Value) (otherwise : Option Operand) (operands : List Operand) :
    J (Evaluation.chooseArm run subject otherwise operands) := by
  fun_induction Evaluation.chooseArm run subject otherwise operands with
  | case1 condition result rest ih =>
    refine hJ.bind (hJ.resolve hrun condition) fun v => ?_
    extract_lets holds
    split
    · exact hJ.resolve hrun result
    · exact ih
  | case2 => exact hJ.resolve hrun _
  | case3 => exact hJ.pure _

theorem caseOf (subject : Bool) (arms : Nat) (otherwise : Bool) (stack : List Operand) :
    J (Evaluation.caseOf run subject arms otherwise stack) := by
  unfold Evaluation.caseOf
  extract_lets withLast
  have hlast : ∀ last, J (withLast last) := by
    intro last
    refine hJ.bind (hJ.popMany _ _) fun pairs => ?_
    have hchoose : ∀ (compared : Option Value) (rest : List Operand),
        J (do return (← Evaluation.chooseArm run compared last.1 pairs.1, rest)) := by
      intro compared rest
      exact hJ.bind (hJ.chooseArm hrun _ _ _) fun _ => hJ.pure _
    dsimp only
    split
    · exact hJ.bind (hJ.pop _) fun top => hJ.bind (hJ.resolve hrun _) fun v =>
        hchoose (some v) top.2
    · exact hchoose none pairs.2
  split
  · exact hJ.bind (hJ.pop _) fun top => hlast (some top.1, top.2)
  · exact hlast (none, stack)

variable {options : Options} {functions : Registry}

/-- **One instruction has the property if the running of programs has it**, and if stores,
definitions and calls have it where the instruction is one of those. -/
theorem step (instr : Instr) (stack : List Operand)
    (hassign : instr = .assign → ∀ path v, J (assign options path v))
    (hmake : ∀ n, instr = .define n → ∀ name params body, J (makeFunction name params body))
    (hcall : ∀ n, instr = .call n → ∀ callee arguments,
      J (call functions run callee arguments)) :
    J (Evaluation.step options functions run instr stack) := by
  have hresolve : ∀ operand, J (Evaluation.resolve run operand) := hJ.resolve hrun
  have hpush : ∀ {m : Evaluation Value} (rest : List Operand), J m →
      J (do return .value (← m) :: rest) := fun _ hm => hJ.bind hm fun _ => hJ.pure _
  cases instr with
  | literal v => exact hJ.pure _
  | undefined => exact hJ.pure _
  | var name => exact hpush _ (hJ.lookup options functions name)
  | name path => exact hJ.pure _
  | sub body => exact hJ.pure _
  | objectStart => exact hJ.pure _
  | property key => exact hJ.pure _
  | unary op =>
    exact hJ.bind (hJ.pop _) fun _ => hJ.bind (hresolve _) fun _ => hpush _ (hJ.lift _)
  | binary op =>
    exact hJ.bind (hJ.pop _) fun _ => hJ.bind (hJ.pop _) fun _ => hJ.bind (hresolve _) fun _ =>
      hJ.bind (hresolve _) fun _ => hpush _ (hJ.lift _)
  | and =>
    refine hJ.bind (hJ.pop _) fun _ => hJ.bind (hJ.pop _) fun _ => hJ.bind (hresolve _) fun x => ?_
    split
    · exact hJ.bind (hresolve _) fun _ => hJ.pure _
    · exact hJ.pure _
  | or =>
    refine hJ.bind (hJ.pop _) fun _ => hJ.bind (hJ.pop _) fun _ => hJ.bind (hresolve _) fun x => ?_
    split
    · exact hJ.pure _
    · exact hJ.bind (hresolve _) fun _ => hJ.pure _
  | index =>
    refine hJ.bind (hJ.pop _) fun _ => hJ.bind (hJ.pop _) fun _ => ?_
    dsimp only
    split
    · exact hJ.bind (hresolve _) fun _ => hJ.bind (hresolve _) fun _ => hpush _ (hJ.lift _)
    · exact hJ.fail _
  | assign =>
    refine hJ.bind (hJ.pop _) fun _ => hJ.bind (hJ.pop _) fun _ => ?_
    split
    · exact hJ.bind (hresolve _) fun v => hJ.bind (hassign rfl _ v) fun _ => hJ.pure _
    · exact hJ.fail _
  | choose =>
    exact hJ.bind (hJ.pop _) fun _ => hJ.bind (hJ.pop _) fun _ => hJ.bind (hJ.pop _) fun _ =>
      hJ.bind (hresolve _) fun _ => hpush _ (hresolve _)
  | unknownTernary spelling => exact hJ.bind (hJ.popMany _ _) fun _ => hJ.fail _
  | call arguments =>
    exact hJ.bind (hJ.popMany _ _) fun _ => hJ.bind (hJ.pop _) fun _ => hJ.bind (hresolve _)
      fun f => hJ.bind (hJ.mapM hresolve _) fun vs => hpush _ (hcall arguments rfl f vs)
  | define params => exact hJ.bind (hJ.define (hmake params rfl) _ _) fun _ => hJ.pure _
  | member name =>
    unfold Evaluation.step
    dsimp only
    split
    · exact hJ.bind (hJ.pop _) fun _ => hJ.bind (hresolve _) fun _ => hpush _ (hJ.lift _)
    · exact hJ.fail _
  | array items =>
    exact hJ.bind (hJ.popMany _ _) fun _ => hJ.bind (hJ.mapM hresolve _) fun _ => hJ.pure _
  | objectEnd =>
    exact hJ.bind (hJ.popToMark _ _) fun _ => hJ.bind (hJ.fields hrun _ _) fun _ => hJ.pure _
  | caseOf subject arms otherwise =>
    exact hJ.bind (hJ.caseOf hrun subject arms otherwise stack) fun _ => hJ.pure _
  | endStatement => exact hJ.bind (hJ.pop _) fun _ => hJ.bind (hresolve _) fun _ => hJ.pure _

end
end Compositional

/-! ## Whole runs -/

/-- A compositional property that the operations have which store, call the host, or run a
computation among other variables. -/
structure Carried (options : Options) (functions : Registry)
    (J : {α : Type} → Evaluation α → Prop) : Prop extends Compositional @J where
  assign (path : String) (v : Value) : J (Evaluation.assign options path v)
  makeFunction (name : String) (params : List String) (body : Program) :
    J (Evaluation.makeFunction name params body)
  withLocals {α : Type} (locals : Dict Value) {m : Evaluation α} (hm : J m) :
    J (Evaluation.withLocals locals m)
  callHost (id : Nat) (f : HostFunction) (hf : functions.ofId? id = some f)
    (arguments : List Value) : J (Evaluation.callHost f arguments)

namespace Carried
variable {options : Options} {functions : Registry} {J : {α : Type} → Evaluation α → Prop}
  (hJ : Carried options functions @J)
include hJ

section
variable {run : Program → Evaluation Value} (hrun : ∀ p, J (run p))
include hrun

theorem call (callee : Value) (arguments : List Value) :
    J (Evaluation.call functions run callee arguments) := by
  unfold Evaluation.call
  split
  · exact hJ.pure _
  · split
    · rename_i f hf
      exact hJ.callHost _ f hf arguments
    · exact hJ.fail _
  · exact hJ.withLocals _ (hrun _)
  · exact hJ.fail _

theorem execute (program : Program) (stack : List Operand) :
    J (Evaluation.execute options functions run program stack) := by
  induction program generalizing stack with
  | nil =>
    match stack with
    | [] => exact hJ.pure _
    | [operand] => exact hJ.resolve hrun operand
    | _ :: _ :: _ => exact hJ.fail _
  | cons instr rest ih =>
    refine hJ.bind (hJ.step hrun instr stack (fun _ => hJ.assign) (fun _ _ => hJ.makeFunction)
      fun _ _ => hJ.call hrun) fun _ => ih _

end

/-- **Every run has a property that its parts carry**, whatever program it runs. -/
theorem run (depth : Nat) (program : Program) :
    J (Evaluation.run options functions depth program) := by
  induction depth generalizing program with
  | zero => exact hJ.fail _
  | succ depth ih => exact hJ.execute ih program []

end Carried
end Evaluation
end Formula
