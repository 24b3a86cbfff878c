import Formula.Expression
import Formula.Proofs.Comparison
import Formula.Proofs.Invariants

/-! # The ceiling of nesting

A run that nests too deep stops with an error of its own (`Error.AtCeiling`), and nothing in a
program catches it.  So where the ceiling is, and the number of levels that are left, decide only
whether a run stops there: a run that does not is the same under a higher ceiling
(`Evaluation.run_raised`) and with any number of levels more (`Evaluation.run_add`).
-/
namespace Formula

/-- The error of a run that nests too deep. -/
def Error.AtCeiling (e : Error) : Prop := ∃ limit, e.fault = .evaluation (.tooDeep limit)

/-- The outcome is the error of nesting too deep. -/
def StopsAtCeiling (outcome : Except Error Value) : Prop := ∃ e, outcome = .error e ∧ e.AtCeiling

/-- A run that stops at the ceiling is an evaluation that does. -/
theorem Expression.stopsAtCeiling_of_run {e : Expression} {context : Context} {error : Error}
    {s : Scope}
    (hrun : Evaluation.run e.options e.functions e.options.maxDepth e.program { context with }
      = .error error s) (hceiling : error.AtCeiling) :
    StopsAtCeiling (e.evaluate context).1 := by
  obtain ⟨named, hevaluate, hfault⟩ := Expression.evaluate_of_error hrun
  obtain ⟨limit, hlimit⟩ := hceiling
  exact ⟨named, by rw [hevaluate], limit, hfault.trans hlimit⟩

/-! ## Values that are alike in all bodies -/

theorem Dict.eq_of_rel {α : Type} {fs gs : Dict α} (h : Dict.Rel Eq fs gs) : fs = gs := by
  induction h with
  | nil => rfl
  | cons key head _ ih => rw [head, ih]

/-- Values that are alike with the same bodies are equal. -/
theorem Like.eq {v w : Value} (h : Like (fun c body => body = c.body) v w) : v = w := by
  refine Like.induct ?_ ?_ ?_ ?_ h
  · exact fun v => rfl
  · intro xs ys _ ih
    rw [List.forall₂_eq_eq_eq] at ih
    rw [ih]
  · intro fs gs _ ih
    rw [Dict.eq_of_rel ih]
  · rintro ⟨id, name, params, body, captured⟩ ⟨id', name', params', body', captured'⟩
      hid hname hparams hbody hcaptured
    obtain ⟨rfl, rfl, rfl, rfl⟩ : id = id' ∧ name = name' ∧ params = params' ∧ body' = body :=
      ⟨hid, hname, hparams, hbody⟩
    cases hcaptured with
    | none => rfl
    | some h => rw [Dict.eq_of_rel h]

theorem likeAll_eq {xs ys : List Value}
    (h : List.Forall₂ (Like fun c body => body = c.body) xs ys) : xs = ys := by
  have heq := h.imp fun _ _ => Like.eq
  rwa [List.forall₂_eq_eq_eq] at heq

namespace Evaluation

/-! ## Runs from one scope -/

/-- The comparison of runs of the same programs from one scope in which `I` holds, of which the
right one may stop with the excused errors. -/
def alike (I : Scope → Prop) (excused : Error → Prop) : Comparison where
  bodies := fun c body => body = c.body
  scopes := fun s s' => s = s' ∧ I s
  excusesLeft := fun _ => False
  excusesRight := excused

/-- The comparison of runs from one scope in which `I` holds. -/
abbrev exactly (I : Scope → Prop) : Comparison := alike I fun _ => False

/-- What every change keeps that is made to a scope without entering or leaving a function. -/
structure Stable (I : Scope → Prop) : Prop where
  store : ∀ s name v, I s → I (s.set name v)
  identity : ∀ s, I s → I { s with nextId := s.nextId + 1 }
  host : ∀ s call, I s → I { s with calls := s.calls ++ [call] }

section
variable {I : Scope → Prop} {excused : Error → Prop}

theorem alike_same {α : Type} {m : Evaluation α} (h : Maintains I m) :
    (alike I excused).Relates Eq m m := by
  rintro s _ ⟨rfl, hs⟩
  have hmaintained := h s hs
  cases hm : m s with
  | ok a u =>
    rw [hm] at hmaintained
    exact .ok rfl ⟨rfl, hmaintained.2⟩
  | error e u =>
    rw [hm] at hmaintained
    exact .error e ⟨rfl, hmaintained⟩

theorem alike_value {m : Evaluation Value} (h : Maintains I m) :
    (alike I excused).Relates (Like (alike I excused).bodies) m m :=
  (alike_same h).mono fun v _ h => h ▸ .same v

/-- The body of a function, where `J` holds of the scopes in it. -/
theorem alike_withLocals {J : Scope → Prop}
    (henter : ∀ s locals, I s → J { s with locals := some locals })
    (hleave : ∀ s u, I s → J u → I { u with locals := s.locals }) {m m' : Evaluation Value}
    (h : (alike J excused).Relates (Like (alike J excused).bodies) m m') (locals : Dict Value) :
    (alike I excused).Relates (Like (alike I excused).bodies) (withLocals locals m)
      (withLocals locals m') := by
  refine .withLocals h (fun _ h => h) (fun _ h => h) ?_ ?_
  · rintro s _ ⟨rfl, hs⟩
    exact ⟨rfl, henter s locals hs⟩
  · rintro s _ u _ ⟨rfl, hs⟩ ⟨rfl, hu⟩
    exact ⟨rfl, hleave s u hs hu⟩

/-- Instructions are handled alike, as soon as the calls of functions are. -/
theorem alike_handles (hI : Stable I) {options : Options} {functions : Registry}
    {run run' : Program → Evaluation Value}
    (hclosure : ∀ c arguments, (alike I excused).Relates (Like (alike I excused).bodies)
      (withLocals (localsOf c arguments) (run c.body))
      (withLocals (localsOf c arguments) (run' c.body))) (instr : Instr) :
    (alike I excused).Handles options functions run run' Eq instr where
  var name _ := alike_value (compositional_maintains.lookup options functions name)
  sub _ _ := rfl
  assign := by
    rintro - path v w hvw
    obtain rfl := Like.eq hvw
    exact (alike_same (maintains_assign (fun s root v _ => hI.store s root v) options v)).mono
      fun _ _ _ => trivial
  define := by
    rintro _ - name params p _ rfl
    exact alike_value (maintains_makeFunction hI.identity (fun s => hI.store s name) params p)
  call := by
    intro _ _ f g xs ys hfg hargs
    obtain rfl := likeAll_eq hargs
    refine Comparison.relates_call ?_ ?_ hfg hargs
    · exact fun _ _ => alike_value (maintains_callHost fun s => hI.host s _)
    · intro c d hcd
      obtain ⟨⟩ := Like.eq hcd
      exact hclosure c xs

end

/-- Runs that are alike are the same where the right one does not stop with an excused error. -/
theorem eq_of_alike {I : Scope → Prop} {excused : Error → Prop} {m m' : Evaluation Value}
    (h : (alike I excused).Relates (Like (alike I excused).bodies) m m') {s : Scope} (hs : I s)
    (hstays : ∀ e u, m' s = .error e u → ¬ excused e) : m s = m' s := by
  have houtcome := h s s ⟨rfl, hs⟩
  generalize m s = x at houtcome
  generalize m' s = y at hstays houtcome
  cases houtcome with
  | ok hab hu => rw [Like.eq hab, hu.1]
  | error e hu => rw [hu.1]
  | left hnever => exact hnever.elim
  | right hexcused _ u => exact absurd hexcused (hstays _ u rfl)

/-! ## Runs under two ceilings -/

/-- The comparison of a run with one under the ceiling `limit`, which may stop there. -/
def ceiling (limit : Nat) : Comparison :=
  alike (fun _ => True) fun e => e = .ofFault (.evaluation (.tooDeep limit))

section
variable (options : Options) (functions : Registry)

/-- What the machine does at one level does not depend on where the ceiling is. -/
theorem execute_withMaxDepth (raised : Nat) (run : Program → Evaluation Value) (program : Program)
    (stack : List Operand) :
    execute (options.withMaxDepth raised) functions run program stack
      = execute options functions run program stack := by
  induction program generalizing stack with
  | nil => cases stack with
    | nil => rfl
    | cons operand rest => cases rest <;> rfl
  | cons instr rest ih =>
    rw [execute, execute]
    exact bind_congr fun stack => ih stack

/-- **A higher ceiling changes nothing** but where the run stops at the lower one. -/
theorem ceiling_run (raised : Nat) {depth depth' : Nat} (hdepth : depth ≤ depth')
    (program : Program) :
    (ceiling options.maxDepth).Relates (Like (ceiling options.maxDepth).bodies)
      (run (options.withMaxDepth raised) functions depth' program)
      (run options functions depth program) := by
  induction depth generalizing depth' program with
  | zero => exact fun s s' _ => .right rfl _ s'
  | succ depth ih =>
    obtain ⟨more, rfl⟩ := Nat.exists_eq_add_of_le hdepth
    rw [Nat.add_right_comm]
    have hbelow : ∀ p q, p = q → (ceiling options.maxDepth).Relates
        (Like (ceiling options.maxDepth).bodies)
        (run (options.withMaxDepth raised) functions (depth + more) p)
        (run options functions depth q) := by
      rintro p _ rfl
      exact ih (Nat.le_add_right _ _) p
    rw [run, run, execute_withMaxDepth]
    have hI : Stable fun _ => True := by constructor <;> intros <;> trivial
    refine Comparison.relates_execute hbelow (fun instr _ => alike_handles hI ?_ instr) .nil
    exact fun c _ => alike_withLocals (fun _ _ _ => trivial) (fun _ _ _ _ => trivial)
      (hbelow c.body c.body rfl) _

variable {options functions}

/-- **A run that does not stop at its ceiling is the same under a higher one.** -/
theorem run_raised (raised : Nat) {depth depth' : Nat} (hdepth : depth ≤ depth')
    {program : Program} {s : Scope}
    (h : ∀ u, run options functions depth program s
      ≠ .error (.ofFault (.evaluation (.tooDeep options.maxDepth))) u) :
    run (options.withMaxDepth raised) functions depth' program s
      = run options functions depth program s := by
  refine eq_of_alike (ceiling_run options functions raised hdepth program) trivial ?_
  rintro _ u hrun rfl
  exact h u hrun

/-- **A run that does not stop at the ceiling is the same with more levels.** -/
theorem run_add {depth : Nat} {program : Program} {s : Scope} (more : Nat)
    (h : ∀ e u, run options functions depth program s = .error e u → ¬ e.AtCeiling) :
    run options functions (depth + more) program s = run options functions depth program s :=
  run_raised options.maxDepth (Nat.le_add_right _ _) fun u hrun => h _ u hrun ⟨_, rfl⟩

end
end Evaluation
end Formula
