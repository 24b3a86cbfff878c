import Formula.Proofs.Frame

/-! # What a run comes to

To say what a reference finds in the middle of a run, the run is watched.  A watched run does what
a run does, but before the code reads a name, stores to a path or makes a function it asks a watch,
which may let it pass or stop it.  The functions that the code calls are not watched.  A watch that
lets everything pass makes no difference (`runWatched_pass`).

A run comes to an operation if a watch that stops just there does stop it (`ComesTo`).  The same
watch stops the run in front of every store to a given variable.  So on the way to the operation
the variable has kept its value (`ComesTo.untouched`), in branches that run late as well as in the
code itself.
-/
namespace Formula
namespace Evaluation

/-- What running code does with variables itself. -/
inductive Operation
  | read (name : String)
  | store (path : String) (v : Value)
  | define (name : String) (params : List String) (body : Program)

/-- The variable that an operation stores to. -/
def Operation.storesTo? : Operation → Option String
  | .read _ => none
  | .store path _ => (pathNames path).head?
  | .define name _ _ => some name

/-! ## Watched runs -/

section
variable (options : Options) (functions : Registry) (watch : Operation → Evaluation Unit)
  (called within : Program → Evaluation Value)

/-- Carries out one instruction under a watch.  Programs that wait among the operands are watched as
well, the bodies of called functions are not. -/
def stepWatched (instr : Instr) (stack : List Operand) : Evaluation (List Operand) := do
  match instr with
  | .var name =>
    watch (.read name)
    pure (.value (← lookup options functions name) :: stack)
  | .assign =>
    let (right, stack) ← pop stack
    match ← pop stack with
    | (.name path, stack) =>
      let v ← resolve within right
      watch (.store path v)
      assign options path v
      pure (.value v :: stack)
    | _ => fail (.evaluation .noTarget)
  | .define params =>
    match ← pop stack with
    | (.waiting body, stack) =>
      let (params, stack) ← popNames params [] stack
      match ← pop stack with
      | (.name name, stack) =>
        watch (.define name params body)
        pure (.value (← makeFunction name params body) :: stack)
      | _ => fail (.evaluation .parity)
    | _ => fail (.evaluation .parity)
  | .call arguments =>
    let (operands, stack) ← popMany arguments stack
    let (operand, stack) ← pop stack
    let callee ← resolve within operand
    let values ← operands.mapM (resolve within)
    pure (.value (← call functions called callee values) :: stack)
  | instr => step options functions within instr stack

/-- Carries out the instructions of a program under a watch. -/
def executeWatched : Program → List Operand → Evaluation Value
  | [], [] => pure .undefined
  | [], [operand] => resolve within operand
  | [], _ => fail (.evaluation .parity)
  | instr :: rest, stack => do
    let stack ← stepWatched options functions watch called within instr stack
    executeWatched rest stack

end

/-- The value of a program that may nest `depth` levels deep and is watched. -/
def runWatched (options : Options) (functions : Registry) (watch : Operation → Evaluation Unit) :
    Nat → Program → Evaluation Value
  | 0, _ => fail (.evaluation (.tooDeep options.maxDepth))
  | depth + 1, program =>
    executeWatched options functions watch (run options functions depth)
      (runWatched options functions watch depth) program []

section
variable {options : Options} {functions : Registry}

/-- Four instructions are watched. -/
theorem stepWatched_eq_step {watch : Operation → Evaluation Unit}
    {called within : Program → Evaluation Value} {instr : Instr} {stack : List Operand}
    (hvar : ∀ name, instr ≠ .var name) (hassign : instr ≠ .assign)
    (hdefine : ∀ params, instr ≠ .define params) (hcall : ∀ n, instr ≠ .call n) :
    stepWatched options functions watch called within instr stack
      = step options functions within instr stack := by
  cases instr with
  | var name => exact absurd rfl (hvar name)
  | assign => exact absurd rfl hassign
  | define params => exact absurd rfl (hdefine params)
  | call n => exact absurd rfl (hcall n)
  | _ => rfl

theorem stepWatched_pass (run : Program → Evaluation Value) (instr : Instr)
    (stack : List Operand) :
    stepWatched options functions (fun _ => pure ()) run run instr stack
      = step options functions run instr stack := by
  cases instr with
  | define params =>
    change _ = (define params stack >>= fun made => pure (.value made.1 :: made.2))
    simp only [stepWatched, define, pure_bind, bind_assoc]
    refine congrArg _ (funext fun found => ?_)
    obtain ⟨top, below⟩ := found
    cases top with
    | waiting body =>
      simp only [bind_assoc]
      refine congrArg _ (funext fun names => congrArg _ (funext fun found => ?_))
      obtain ⟨top, below⟩ := found
      cases top with
      | name name => simp only [bind_assoc, pure_bind]
      | _ => rfl
    | _ => rfl
  | _ => rfl

theorem executeWatched_pass (run : Program → Evaluation Value) (program : Program)
    (stack : List Operand) :
    executeWatched options functions (fun _ => pure ()) run run program stack
      = execute options functions run program stack := by
  induction program generalizing stack with
  | nil =>
    match stack with
    | [] => rfl
    | [_] => rfl
    | _ :: _ :: _ => rfl
  | cons instr rest ih =>
    rw [executeWatched, execute, stepWatched_pass]
    exact congrArg _ (funext ih)

/-- **A watch that lets everything pass makes no difference.** -/
theorem runWatched_pass (depth : Nat) (program : Program) :
    runWatched options functions (fun _ => pure ()) depth program
      = run options functions depth program := by
  induction depth generalizing program with
  | zero => rfl
  | succ depth ih =>
    rw [runWatched, run, show runWatched options functions (fun _ => pure ()) depth =
      run options functions depth from funext ih]
    exact executeWatched_pass _ program []

end

/-! ## Invariants of watched runs -/

section
variable {options : Options} {functions : Registry} {watch : Operation → Evaluation Unit}
  {called within : Program → Evaluation Value} {I : Scope → Prop}

/-- What the operations on variables keep, each together with the watch before it. -/
structure KeptUnderWatch (options : Options) (functions : Registry)
    (watch : Operation → Evaluation Unit) (I : Scope → Prop) : Prop where
  read : ∀ name, Maintains I (watch (.read name))
  store : ∀ path v, Maintains I (do watch (.store path v); assign options path v)
  define : ∀ name params body,
    Maintains I (do watch (.define name params body); makeFunction name params body)
  call : ∀ depth callee arguments,
    Maintains I (call functions (run options functions depth) callee arguments)

variable (h : KeptUnderWatch options functions watch I)
include h

theorem KeptUnderWatch.stepWatched {depth : Nat} (hwithin : ∀ p, Maintains I (within p))
    (instr : Instr) (stack : List Operand) :
    Maintains I (stepWatched options functions watch (run options functions depth) within instr
      stack) := by
  have hparts : Compositional (@Maintains I) := compositional_maintains
  cases instr with
  | var name =>
    exact (h.read name).bind fun _ => (hparts.lookup _ _ _).bind fun _ => Maintains.pure _
  | assign =>
    refine (hparts.pop _).bind fun _ => (hparts.pop _).bind fun _ => ?_
    split
    · refine (hparts.resolve hwithin _).bind fun v => ?_
      rw [← bind_assoc]
      exact (h.store _ v).bind fun _ => Maintains.pure _
    · exact Keeps.fail _
  | define params =>
    refine (hparts.pop _).bind fun _ => ?_
    split
    · refine (hparts.popNames _ _ _).bind fun names => (hparts.pop _).bind fun _ => ?_
      split
      · rw [← bind_assoc]
        exact (h.define _ _ _).bind fun _ => Maintains.pure _
      · exact Keeps.fail _
    · exact Keeps.fail _
  | call arguments =>
    exact (hparts.popMany _ _).bind fun _ => (hparts.pop _).bind fun _ =>
      (hparts.resolve hwithin _).bind fun f =>
        (hparts.mapM (hparts.resolve hwithin) _).bind fun vs =>
          (h.call depth f vs).bind fun _ => Maintains.pure _
  | _ =>
    rw [stepWatched_eq_step]
    · exact hparts.step hwithin _ stack nofun nofun nofun
    all_goals nofun

theorem KeptUnderWatch.executeWatched {depth : Nat} (hwithin : ∀ p, Maintains I (within p))
    (program : Program) (stack : List Operand) :
    Maintains I (executeWatched options functions watch (run options functions depth) within program
      stack) := by
  induction program generalizing stack with
  | nil =>
    match stack with
    | [] => exact Maintains.pure _
    | [operand] => exact compositional_maintains.resolve hwithin operand
    | _ :: _ :: _ => exact Keeps.fail _
  | cons instr rest ih => exact (h.stepWatched hwithin instr stack).bind fun _ => ih _

/-- **A watched run keeps what its operations keep under the watch.** -/
theorem KeptUnderWatch.runWatched (depth : Nat) (program : Program) :
    Maintains I (runWatched options functions watch depth program) := by
  induction depth generalizing program with
  | zero => exact Keeps.fail _
  | succ depth ih => exact h.executeWatched ih program []

end

/-! ## Coming to an operation -/

/-- The watch that stops with `hit` in front of an operation among certain variables, with `spoilt`
in front of any other store to a name, and lets everything else pass. -/
noncomputable def alarm (op : Operation) (u : Scope) (name : String) (hit spoilt : Error) :
    Operation → Evaluation Unit := fun other s => by
  classical
  exact if other = op ∧ s = u then .error hit s
    else if other.storesTo? = some name then .error spoilt s
    else .ok () s

/-- The run of a program among the variables `s` comes to an operation among the variables `u`, and
stores to the name nowhere on the way: the watch stops it there, whatever errors it stops with. -/
def ComesTo (options : Options) (functions : Registry) (depth : Nat) (program : Program)
    (s : Scope) (op : Operation) (u : Scope) (name : String) : Prop :=
  ∀ hit spoilt, runWatched options functions (alarm op u name hit spoilt) depth program s
    = .error hit u

/-- What the variables of a function body have in common until there is a store to the name: those
of the caller, and what the name is among the local ones. -/
def Untouched (globals : Dict Value) (name : String) (old : Option Value) (s : Scope) : Prop :=
  s.globals = globals ∧ ∃ locals, s.locals = some locals ∧ locals.get? name = old

section
variable {options : Options} {functions : Registry} {op : Operation} {s u : Scope}
  {name : String} {hit spoilt : Error} {globals : Dict Value} {old : Option Value}

theorem alarm_self : alarm op u name hit spoilt op u = .error hit u := by
  unfold alarm
  exact if_pos ⟨rfl, rfl⟩

theorem alarm_of_ne {other : Operation} (hop : other ≠ op) (hstore : other.storesTo? ≠ some name) :
    alarm op u name hit spoilt other s = .ok () s := by
  unfold alarm
  rw [if_neg (fun h => hop h.1), if_neg hstore]

/-- The alarm lets no store to the name pass. -/
theorem alarm_passes {I : Scope → Prop} (other : Operation) :
    Keeps I (alarm op u name hit spoilt other) fun _ => other.storesTo? ≠ some name := by
  intro s hs
  unfold alarm
  split_ifs with hop hstore
  · exact hs
  · exact hs
  · exact ⟨hstore, hs⟩

theorem Untouched.set (h : Untouched globals name old s) {other : String} (hne : other ≠ name)
    (v : Value) : Untouched globals name old (s.set other v) := by
  obtain ⟨hglobals, locals, hlocals, hold⟩ := h
  rw [Scope.set, hlocals]
  refine ⟨hglobals, _, rfl, ?_⟩
  rw [Dict.get?_insert_ne _ _ hne]
  exact hold

theorem keptUnderWatch_untouched :
    KeptUnderWatch options functions (alarm op u name hit spoilt)
      (Untouched globals name old) where
  read _ := (alarm_passes _).maintains
  store path v := (alarm_passes _).bind fun _ hne => maintains_assign
    (fun _ root w hroot hs => hs.set (fun heq => hne (heq ▸ hroot)) w) _ _
  define other params body := (alarm_passes _).bind fun _ hne => maintains_makeFunction
    (fun _ hs => hs) (fun _ w hs => hs.set (fun heq => hne (heq ▸ rfl)) w) _ _
  call depth callee arguments := maintains_call (fun s s' hglobals hlocals hs => by
    rw [Untouched, hglobals, hlocals]
    exact hs) _ _ _

/-- **Until there is a store to a name, the variables of the caller and the local variable of that
name are as they were in the beginning.** -/
theorem ComesTo.untouched {depth : Nat} {program : Program}
    (h : ComesTo options functions depth program s op u name) (hs : Untouched globals name old s) :
    Untouched globals name old u := by
  let any : Error := .ofFault (.evaluation .parity)
  have hkeeps : KeptUnderWatch options functions (alarm op u name any any)
      (Untouched globals name old) := keptUnderWatch_untouched
  have hkept := hkeeps.runWatched depth program s hs
  rw [h any any] at hkept
  exact hkept

end
end Evaluation
end Formula
