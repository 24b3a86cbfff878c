import Formula.Proofs.Ceiling
import Formula.Proofs.Stack

/-! # Regimes of terms

An invariant of arbitrary programs says little about what a particular program stores and computes.
A regime (`Regime`) says it of terms: which terms run, what holds of the values they compute, and
what holds of the scopes they run in.  If every single operation keeps to the regime, then so do
whole runs of the terms, at every depth (`Regime.keeps_run`).

The same is said of two runs of one term, in scopes that correspond (`JointRegime`): they answer the
same value or fail in the same way, and leave scopes that correspond (`JointRegime.together_run`).
One run is the case of scopes that are the same.

The body of a function is no part of the run of its definition, so a regime need not speak of it
there; it has to where a function is called.
-/
namespace Formula

/-- The parts of a term that run when it runs. -/
def Term.running : Term → List Term
  | .define _ _ _ => []
  | t => t.children

theorem Term.mem_children_of_running {t part : Term} (h : part ∈ t.running) :
    part ∈ t.children := by
  cases t <;> first | exact h | cases h

namespace Evaluation

/-! ## Two runs of one computation -/

/-- In scopes that correspond both runs of the computation answer the same, of which `Q` holds, or
fail in the same way, and they leave scopes that correspond. -/
def Together (K : Comparison) {α : Type} (m : Evaluation α) (Q : α → Prop) : Prop :=
  K.Relates (fun a b => a = b ∧ Q a) m m

section
variable {K : Comparison} {α β : Type} {P Q : α → Prop} {R : β → Prop}

theorem Together.pure {a : α} (h : Q a) : Together K (pure a) Q :=
  Comparison.Relates.pure ⟨rfl, h⟩

theorem Together.fail (fault : Fault) : Together K (fail fault : Evaluation α) Q :=
  Comparison.Relates.fail fault

theorem Together.lift {result : Except Fault α} (h : ∀ a, result = .ok a → Q a) :
    Together K (lift result) Q := by
  cases result with
  | ok a => exact Together.pure (h a rfl)
  | error fault => exact Together.fail fault

theorem Together.bind {m : Evaluation α} {f : α → Evaluation β} (hm : Together K m P)
    (hf : ∀ a, P a → Together K (f a) R) : Together K (m >>= f) R := by
  refine Comparison.Relates.bind hm ?_
  rintro a _ ⟨rfl, ha⟩
  exact hf a ha

theorem Together.mono {m : Evaluation α} (h : Together K m P) (hPQ : ∀ a, P a → Q a) :
    Together K m Q := Comparison.Relates.mono h fun a _ hab => ⟨hab.1, hPQ a hab.2⟩

theorem Together.mapM {f : α → Evaluation β} {xs : List α} (h : ∀ x ∈ xs, Together K (f x) R) :
    Together K (xs.mapM f) fun ys => ∀ y ∈ ys, R y := by
  induction xs with
  | nil => exact Together.pure (by simp)
  | cons x xs ih =>
    obtain ⟨hx, hxs⟩ := List.forall_mem_cons.mp h
    rw [List.mapM_cons]
    exact hx.bind fun y hy => (ih hxs).bind fun ys hys =>
      Together.pure (List.forall_mem_cons.mpr ⟨hy, hys⟩)

/-- Two runs from one scope are one run. -/
theorem together_exactly {I : Scope → Prop} {m : Evaluation α} :
    Together (exactly I) m Q ↔ Keeps I m Q := by
  constructor
  · intro h s hs
    have houtcome := h s s ⟨rfl, hs⟩
    generalize m s = x at houtcome
    cases houtcome with
    | ok hab hu => exact ⟨hab.2, hu.2⟩
    | error e hu => exact hu.2
    | left hnever => exact hnever.elim
    | right hnever => exact hnever.elim
  · rintro h s _ ⟨rfl, hs⟩
    have hkeeps := h s hs
    cases hm : m s with
    | ok a u =>
      rw [hm] at hkeeps
      exact .ok ⟨rfl, hkeeps.1⟩ ⟨rfl, hkeeps.2⟩
    | error e u =>
      rw [hm] at hkeeps
      exact .error e ⟨rfl, hkeeps⟩

end

/-! ## Regimes of two runs -/

/-- Runs of statements that are in order go together, and answer values that are. -/
def RunsTogether (K : Comparison) (run : Program → Evaluation Value) (V : Value → Prop)
    (C : Term → Prop) : Prop :=
  ∀ first rest, C first → (∀ t ∈ rest, C t) →
    Together K (run (first.code ++ statementsCode rest)) V

/-- What the two runs of every operation keep to, in scopes that correspond, on values of which `V`
holds, and in terms of which `C` holds. -/
structure JointRegime (K : Comparison) (options : Options) (functions : Registry)
    (V : Value → Prop) (C : Term → Prop) : Prop where
  part : ∀ {t part}, C t → part ∈ t.running → C part
  undefined : V .undefined
  bool : ∀ b, V (.bool b)
  array : ∀ {items}, (∀ v ∈ items, V v) → V (.array items)
  /-- The fields have the keys that the term gives them. -/
  object : ∀ {entries} {fields : Dict Value}, C (.object entries) →
    (∀ field ∈ fields, field.1 ∈ entries.map Prod.fst ∧ V field.2) → V (.object fields)
  literal : ∀ {v}, C (.literal v) → V v
  unary : ∀ {op operand x v}, C (.unary op operand) → V x → op.apply x = .ok v → V v
  binary : ∀ {op left right x y v}, C (.binary op left right) → V x → V y →
    op.apply x y = .ok v → V v
  member : ∀ {target name x v}, C (.member target name) → V x → x.member name = .ok v → V v
  index : ∀ {target key x y v}, C (.index target key) → V x → V y → x.index y = .ok v → V v
  lookup : ∀ {name}, C (.var name) → Together K (lookup options functions name) V
  assign : ∀ {root path value v}, C (.assign root path value) → V v →
    Together K (assign options (targetName root path) v) fun _ => True
  define : ∀ {name params body}, C (.define name params body) →
    Together K (makeFunction name params body.code) V
  /-- At every depth, if what lies deeper keeps to the regime. -/
  call : ∀ {depth callee arguments}, RunsTogether K (run options functions depth) V C → V callee →
    (∀ v ∈ arguments, V v) →
    Together K (call functions (run options functions depth) callee arguments) V

section
variable {K : Comparison} {V : Value → Prop} {C : Term → Prop} {run : Program → Evaluation Value}

theorem RunsTogether.code (h : RunsTogether K run V C) {t : Term} (ht : C t) :
    Together K (run t.code) V := by
  have hrun := h t [] ht (by simp)
  rwa [statementsCode, List.append_nil] at hrun

/-- What is left is a value in order, or the program of statements in order. -/
def Pushed.InOrder (V : Value → Prop) (C : Term → Prop) : Pushed → Prop
  | .value v => V v
  | .waiting program => ∃ first rest, C first ∧ (∀ t ∈ rest, C t) ∧
    program = first.code ++ statementsCode rest

theorem RunsTogether.resolve (h : RunsTogether K run V C) {x : Pushed} (hx : Pushed.InOrder V C x) :
    Together K (resolve run x.operand) V := by
  cases x with
  | value v => exact Together.pure hx
  | waiting program =>
    obtain ⟨first, rest, hfirst, hrest, rfl⟩ := hx
    exact h first rest hfirst hrest

theorem RunsTogether.mapM_resolve (h : RunsTogether K run V C) {xs : List Pushed}
    (hxs : ∀ x ∈ xs, Pushed.InOrder V C x) :
    Together K ((xs.map Pushed.operand).mapM (Evaluation.resolve run)) fun vs => ∀ v ∈ vs, V v := by
  refine Together.mapM fun operand hmem => ?_
  obtain ⟨x, hx, rfl⟩ := List.mem_map.mp hmem
  exact h.resolve (hxs x hx)

/-- The fields of an object have the keys that were pushed, besides those it had before. -/
theorem RunsTogether.fields (h : RunsTogether K run V C) {keys : List String}
    {xs : List (String × Pushed)} (hxs : ∀ x ∈ xs, x.1 ∈ keys ∧ Pushed.InOrder V C x.2)
    {entries : Dict Value} (he : ∀ entry ∈ entries, entry.1 ∈ keys ∧ V entry.2) :
    Together K (fields run entries (entryOperands xs))
      fun entries => ∀ entry ∈ entries, entry.1 ∈ keys ∧ V entry.2 := by
  induction xs generalizing entries with
  | nil => exact Together.pure he
  | cons x xs ih =>
    obtain ⟨hx, hxs⟩ := List.forall_mem_cons.mp hxs
    refine (h.resolve hx.2).bind fun v hv => ih hxs fun entry hmem => ?_
    rcases Dict.mem_insert hmem with rfl | hmem
    · exact ⟨hx.1, hv⟩
    · exact he entry hmem

theorem RunsTogether.chooseArm (h : RunsTogether K run V C) (hundefined : V .undefined)
    (subject : Option Value) {otherwise : Option Term} {arms : List (Term × Term)}
    (harms : ∀ arm ∈ arms, C arm.1 ∧ C arm.2) (hlast : ∀ t ∈ otherwise, C t) :
    Together K (chooseArm run subject (otherwise.map fun t => .waiting t.code) (armOperands arms))
      V := by
  induction arms with
  | nil =>
    cases otherwise with
    | none => exact Together.pure hundefined
    | some t => exact h.code (hlast t rfl)
  | cons arm arms ih =>
    obtain ⟨⟨hc, hr⟩, harms⟩ := List.forall_mem_cons.mp harms
    have hrest : ∀ holds : Bool, Together K
        (if holds then Evaluation.resolve run (.waiting arm.2.code)
        else Evaluation.chooseArm run subject (otherwise.map fun t => .waiting t.code)
          (armOperands arms)) V := by
      intro holds
      split
      · exact h.code hr
      · exact ih harms
    exact (h.code hc).bind fun v _ => hrest _

theorem together_pushedAll {options : Options} {functions : Registry} {terms : List Term}
    (h : ∀ t ∈ terms, Together K (pushed options functions run t) (Pushed.InOrder V C)) :
    Together K (pushedAll options functions run terms)
      fun xs => ∀ x ∈ xs, Pushed.InOrder V C x := by
  induction terms with
  | nil => exact Together.pure (by simp)
  | cons t terms ih =>
    obtain ⟨ht, hterms⟩ := List.forall_mem_cons.mp h
    exact ht.bind fun x hx => (ih hterms).bind fun xs hxs =>
      Together.pure (List.forall_mem_cons.mpr ⟨hx, hxs⟩)

theorem together_pushedEntries {options : Options} {functions : Registry}
    {entries : List (String × Term)} {keys : List String}
    (h : ∀ entry ∈ entries, entry.1 ∈ keys ∧
      Together K (pushed options functions run entry.2) (Pushed.InOrder V C)) :
    Together K (pushedEntries options functions run entries)
      fun xs => ∀ x ∈ xs, x.1 ∈ keys ∧ Pushed.InOrder V C x.2 := by
  induction entries with
  | nil => exact Together.pure (by simp)
  | cons entry entries ih =>
    obtain ⟨ht, hterms⟩ := List.forall_mem_cons.mp h
    exact ht.2.bind fun x hx => (ih hterms).bind fun xs hxs =>
      Together.pure (List.forall_mem_cons.mpr ⟨⟨ht.1, hx⟩, hxs⟩)

/-- The value of a computation is left as a value. -/
theorem Together.value {m : Evaluation Value} (h : Together K m V) :
    Together K (do return Pushed.value (← m)) (Pushed.InOrder V C) :=
  h.bind fun _ hv => Together.pure hv

end

section
variable {K : Comparison} {options : Options} {functions : Registry} {V : Value → Prop}
  {C : Term → Prop} {depth : Nat} (h : JointRegime K options functions V C)
  (hrun : RunsTogether K (run options functions depth) V C)
include h hrun

/-- **The code of a term keeps to the regime**, if what it runs deeper down does. -/
theorem JointRegime.together_pushed {t : Term} (ht : C t) :
    Together K (pushed options functions (run options functions depth) t) (Pushed.InOrder V C) := by
  induction t with
  | literal v => exact Together.pure (h.literal ht)
  | undefined => exact Together.pure h.undefined
  | var name => exact (h.lookup ht).value
  | unary op operand ih =>
    rw [pushed]
    exact (ih (h.part ht (.head _))).bind fun x hx => (hrun.resolve hx).bind fun v hv =>
      Together.value (Together.lift fun w hw => h.unary ht hv hw)
  | binary op left right ihl ihr =>
    rw [pushed]
    exact (ihl (h.part ht (.head _))).bind fun x hx =>
      (ihr (h.part ht (.tail _ (.head _)))).bind fun y hy =>
      (hrun.resolve hx).bind fun v hv => (hrun.resolve hy).bind fun w hw =>
      Together.value (Together.lift fun u hu => h.binary ht hv hw hu)
  | and left right ihl ihr =>
    rw [pushed]
    refine (ihl (h.part ht (.head _))).bind fun x hx => (hrun.resolve hx).bind fun v hv => ?_
    split
    · exact (hrun.code (h.part ht (.tail _ (.head _)))).bind fun w _ => Together.pure (h.bool _)
    · exact Together.pure (h.bool _)
  | or left right ihl ihr =>
    rw [pushed]
    refine (ihl (h.part ht (.head _))).bind fun x hx => (hrun.resolve hx).bind fun v hv => ?_
    split
    · exact Together.pure (h.bool _)
    · exact (hrun.code (h.part ht (.tail _ (.head _)))).bind fun w _ => Together.pure (h.bool _)
  | choose condition yes no ihc ihy ihn =>
    rw [pushed]
    refine (ihc (h.part ht (.head _))).bind fun x hx => (hrun.resolve hx).bind fun v hv =>
      Together.value ?_
    split
    · exact hrun.code (h.part ht (.tail _ (.head _)))
    · exact hrun.code (h.part ht (.tail _ (.tail _ (.head _))))
  | caseOf subject arms otherwise ihs iha iho =>
    have harms : ∀ arm ∈ arms, C arm.1 ∧ C arm.2 := by
      intro arm harm
      obtain ⟨hcondition, hresult⟩ := mem_children_of_arm harm
      exact ⟨h.part ht hcondition, h.part ht hresult⟩
    have hlast : ∀ t ∈ otherwise, C t := fun t hlast => h.part ht (otherwise_mem_children hlast)
    rw [pushed]
    cases subject with
    | none => exact Together.value (hrun.chooseArm h.undefined none harms hlast)
    | some t =>
      have hs := ihs t rfl (h.part ht (subject_mem_children rfl))
      simp only [pushedSubject, resolveSubject, map_eq_pure_bind, bind_assoc, pure_bind]
      exact hs.bind fun x hx => (hrun.resolve hx).bind fun v hv =>
        Together.value (hrun.chooseArm h.undefined _ harms hlast)
  | member target name ih =>
    rw [pushed]
    refine (ih (h.part ht (.head _))).bind fun x hx => ?_
    split
    · exact (hrun.resolve hx).bind fun v hv =>
        Together.value (Together.lift fun w hw => h.member ht hv hw)
    · exact Together.fail _
  | index target key iht ihk =>
    rw [pushed]
    refine (iht (h.part ht (.head _))).bind fun x hx =>
      (ihk (h.part ht (.tail _ (.head _)))).bind fun y hy => ?_
    split
    · exact (hrun.resolve hx).bind fun v hv => (hrun.resolve hy).bind fun w hw =>
        Together.value (Together.lift fun u hu => h.index ht hv hw hu)
    · exact Together.fail _
  | call callee arguments ihc iha =>
    rw [pushed]
    exact (ihc (h.part ht (.head _))).bind fun x hx =>
      (together_pushedAll fun t hmem => iha t hmem (h.part ht (.tail _ hmem))).bind fun ys hys =>
      (hrun.resolve hx).bind fun f hf => (hrun.mapM_resolve hys).bind fun vs hvs =>
      (h.call hrun hf hvs).value
  | array items ih =>
    rw [pushed]
    exact (together_pushedAll fun t hmem => ih t hmem (h.part ht hmem)).bind fun xs hxs =>
      (hrun.mapM_resolve hxs).bind fun vs hvs => Together.pure (h.array hvs)
  | object entries ih =>
    have hentries : ∀ entry ∈ entries, entry.1 ∈ entries.map Prod.fst ∧
        Together K (pushed options functions (run options functions depth) entry.2)
          (Pushed.InOrder V C) := fun entry hmem =>
      ⟨List.mem_map_of_mem hmem, ih entry hmem (h.part ht (List.mem_map_of_mem hmem))⟩
    rw [pushed]
    exact (together_pushedEntries hentries).bind fun xs hxs =>
      (hrun.fields hxs (by simp)).bind fun fields hfields => Together.pure (h.object ht hfields)
  | assign root path value ih =>
    rw [pushed]
    exact (hrun.code (h.part ht (.head _))).bind fun v hv =>
      (h.assign ht hv).bind fun _ _ => Together.pure hv
  | define name params body ih => exact (h.define ht).value
  | sequence first rest ihf ihr =>
    exact Together.pure
      ⟨first, rest, h.part ht (.head _), fun t hmem => h.part ht (.tail _ hmem), rfl⟩

theorem JointRegime.together_settledLast {first : Term} {rest : List Term} (hfirst : C first)
    (hrest : ∀ t ∈ rest, C t) :
    Together K (settledLast options functions (run options functions depth) first rest) V := by
  have hsettled : ∀ {t}, C t →
      Together K (settled options functions (run options functions depth) t) V :=
    fun ht => (h.together_pushed hrun ht).bind fun x hx => hrun.resolve hx
  induction rest generalizing first with
  | nil => exact hsettled hfirst
  | cons next rest ih =>
    obtain ⟨hnext, hrest⟩ := List.forall_mem_cons.mp hrest
    exact (hsettled hfirst).bind fun _ _ => ih hnext hrest

end

/-- **Two runs keep to the regime**, at every depth. -/
theorem JointRegime.together_run {K : Comparison} {options : Options} {functions : Registry}
    {V : Value → Prop} {C : Term → Prop} (h : JointRegime K options functions V C) (depth : Nat) :
    RunsTogether K (run options functions depth) V C := by
  induction depth with
  | zero => exact fun _ _ _ _ => Together.fail _
  | succ depth ih =>
    intro first rest hfirst hrest
    rw [run, execute_statements]
    exact h.together_settledLast ih hfirst hrest

/-! ## Regimes of one run -/

/-- Runs of statements that are in order keep the invariant, and answer values that are. -/
def RunsKept (run : Program → Evaluation Value) (I : Scope → Prop) (V : Value → Prop)
    (C : Term → Prop) : Prop :=
  ∀ first rest, C first → (∀ t ∈ rest, C t) → Keeps I (run (first.code ++ statementsCode rest)) V

/-- What every operation keeps to, in scopes in which `I` holds, on values of which `V` holds, and
in terms of which `C` holds. -/
structure Regime (options : Options) (functions : Registry) (I : Scope → Prop) (V : Value → Prop)
    (C : Term → Prop) : Prop where
  part : ∀ {t part}, C t → part ∈ t.running → C part
  undefined : V .undefined
  bool : ∀ b, V (.bool b)
  array : ∀ {items}, (∀ v ∈ items, V v) → V (.array items)
  /-- The fields have the keys that the term gives them. -/
  object : ∀ {entries} {fields : Dict Value}, C (.object entries) →
    (∀ field ∈ fields, field.1 ∈ entries.map Prod.fst ∧ V field.2) → V (.object fields)
  literal : ∀ {v}, C (.literal v) → V v
  unary : ∀ {op operand x v}, C (.unary op operand) → V x → op.apply x = .ok v → V v
  binary : ∀ {op left right x y v}, C (.binary op left right) → V x → V y →
    op.apply x y = .ok v → V v
  member : ∀ {target name x v}, C (.member target name) → V x → x.member name = .ok v → V v
  index : ∀ {target key x y v}, C (.index target key) → V x → V y → x.index y = .ok v → V v
  lookup : ∀ {name}, C (.var name) → Keeps I (lookup options functions name) V
  assign : ∀ {root path value v}, C (.assign root path value) → V v →
    Maintains I (assign options (targetName root path) v)
  define : ∀ {name params body}, C (.define name params body) →
    Keeps I (makeFunction name params body.code) V
  /-- At every depth, if what lies deeper keeps to the regime. -/
  call : ∀ {depth callee arguments}, RunsKept (run options functions depth) I V C → V callee →
    (∀ v ∈ arguments, V v) →
    Keeps I (call functions (run options functions depth) callee arguments) V

theorem RunsKept.code {run : Program → Evaluation Value} {I : Scope → Prop} {V : Value → Prop}
    {C : Term → Prop} (h : RunsKept run I V C) {t : Term} (ht : C t) : Keeps I (run t.code) V := by
  have hrun := h t [] ht (by simp)
  rwa [statementsCode, List.append_nil] at hrun

section
variable {options : Options} {functions : Registry} {I : Scope → Prop} {V : Value → Prop}
  {C : Term → Prop} (h : Regime options functions I V C)
include h

/-- A regime is one of two runs from one scope. -/
theorem Regime.joint : JointRegime (exactly I) options functions V C where
  part := h.part
  undefined := h.undefined
  bool := h.bool
  array := h.array
  object := h.object
  literal := h.literal
  unary := h.unary
  binary := h.binary
  member := h.member
  index := h.index
  lookup ht := together_exactly.mpr (h.lookup ht)
  assign ht hv := together_exactly.mpr (h.assign ht hv)
  define ht := together_exactly.mpr (h.define ht)
  call hrun hc ha := together_exactly.mpr (h.call
    (fun first rest hfirst hrest => together_exactly.mp (hrun first rest hfirst hrest)) hc ha)

/-- **Runs keep to the regime**, at every depth. -/
theorem Regime.keeps_run (depth : Nat) : RunsKept (run options functions depth) I V C :=
  fun first rest hfirst hrest =>
    together_exactly.mp (h.joint.together_run depth first rest hfirst hrest)

end
end Evaluation
end Formula
