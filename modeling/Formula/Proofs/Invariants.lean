import Formula.Proofs.MachineParts

/-! # Invariants of runs

A run changes what it can see in few ways: it stores to a variable, takes an identity, enters and
leaves the body of a function, and calls a function of the host.  What these keep (`Invariant`)
every run keeps, of any program, whether the program is the code of a term or not, and whether the
run ends with a value or with an error (`Invariant.run`).
-/
namespace Formula
namespace Evaluation

/-- The scope in which a computation ends, with a value or an error. -/
def finalScope {α : Type} (m : Evaluation α) (s : Scope) : Scope :=
  match m s with
  | .ok _ s' => s'
  | .error _ s' => s'

/-- Where the invariant holds, it holds after the computation, and what is answered satisfies
`Q`. -/
def Keeps (I : Scope → Prop) {α : Type} (m : Evaluation α) (Q : α → Prop) : Prop :=
  ∀ s, I s → match m s with
    | .ok a s' => Q a ∧ I s'
    | .error _ s' => I s'

/-- The invariant holds after the computation, whatever is answered. -/
abbrev Maintains (I : Scope → Prop) {α : Type} (m : Evaluation α) : Prop :=
  Keeps I m fun _ => True

section
variable {I : Scope → Prop} {α β : Type} {P Q : α → Prop} {R : β → Prop}

theorem Keeps.finalScope {m : Evaluation α} (h : Keeps I m Q) {s : Scope} (hs : I s) :
    I (finalScope m s) := by
  have h := h s hs
  unfold Evaluation.finalScope
  cases hr : m s with
  | ok a s' =>
    rw [hr] at h
    exact h.2
  | error e s' =>
    rw [hr] at h
    exact h

theorem Keeps.mono {m : Evaluation α} (h : Keeps I m P) (hpq : ∀ a, P a → Q a) : Keeps I m Q := by
  intro s hs
  have h := h s hs
  cases hr : m s with
  | ok a s' =>
    rw [hr] at h
    exact ⟨hpq a h.1, h.2⟩
  | error e s' =>
    rw [hr] at h
    exact h

theorem Keeps.maintains {m : Evaluation α} (h : Keeps I m Q) : Maintains I m :=
  h.mono fun _ _ => trivial

theorem Keeps.pure {a : α} (h : Q a) : Keeps I (pure a) Q := fun _ hs => ⟨h, hs⟩

theorem Keeps.throw (e : Error) : Keeps I (throw e : Evaluation α) Q := fun _ hs => hs

theorem Keeps.fail (fault : Fault) : Keeps I (fail fault : Evaluation α) Q := fun _ hs => hs

theorem Keeps.lift {result : Except Fault α} (h : ∀ a, result = .ok a → Q a) :
    Keeps I (lift result) Q := by
  cases result with
  | ok a => exact Keeps.pure (h a rfl)
  | error fault => exact Keeps.fail fault

theorem Keeps.bind {m : Evaluation α} {f : α → Evaluation β} (hm : Keeps I m P)
    (hf : ∀ a, P a → Keeps I (f a) R) : Keeps I (m >>= f) R := by
  intro s hs
  have h := hm s hs
  change match EStateM.bind m f s with | .ok a s' => _ | .error e s' => _
  unfold EStateM.bind
  cases hr : m s with
  | ok a s' =>
    rw [hr] at h
    exact hf a h.1 s' h.2
  | error e s' =>
    rw [hr] at h
    exact h

theorem Keeps.get : Keeps I get I := fun _ hs => ⟨hs, hs⟩

/-- A scope may be put in place of the present one if the invariant holds of it. -/
theorem Keeps.set {s : Scope} (h : I s) : Maintains I (set s) := fun _ _ => ⟨trivial, h⟩

theorem Keeps.modify {f : Scope → Scope} (h : ∀ s, I s → I (f s)) : Maintains I (modify f) :=
  fun s hs => ⟨trivial, h s hs⟩

theorem Maintains.lift (result : Except Fault α) : Maintains I (lift result) :=
  Keeps.lift fun _ _ => trivial

theorem Maintains.pure (a : α) : Maintains I (Pure.pure a) := Keeps.pure trivial

theorem Maintains.bind {m : Evaluation α} {f : α → Evaluation β} (hm : Maintains I m)
    (hf : ∀ a, Keeps I (f a) R) : Keeps I (m >>= f) R := Keeps.bind hm fun a _ => hf a

end

/-- Keeping an invariant is a matter of the parts of a computation. -/
theorem compositional_maintains {I : Scope → Prop} : Compositional (@Maintains I) where
  pure := Maintains.pure
  fail := Keeps.fail
  get := Keeps.get.maintains
  bind := Maintains.bind

/-! ## Operations that store -/

section
variable {I : Scope → Prop}

/-- A change in place stores to its variable, also where it fails. -/
theorem maintains_inSlot {name : String} (h : ∀ s v, I s → I (s.set name v))
    (change : Value → EStateM.Result Fault Value Unit) : Maintains I (inSlot name change) := by
  refine (Keeps.modify fun s hs => h s _ hs).bind fun _ => Keeps.get.bind fun s hs => ?_
  split
  · exact Keeps.set (h s _ hs)
  · exact (Keeps.set (h s _ hs)).bind fun _ => Keeps.fail _

/-- Assignment stores to the variable that its path begins with. -/
theorem maintains_assign {path : String}
    (h : ∀ s root v, (pathNames path).head? = some root → I s → I (s.set root v))
    (options : Options) (v : Value) : Maintains I (assign options path v) := by
  refine (Maintains.lift _).bind fun _ => ?_
  split
  · exact Keeps.fail _
  · rename_i root hroot
    exact Keeps.modify fun s hs => h s root v (by rw [hroot]; rfl) hs
  · rename_i root rest _ hroot
    split
    · exact maintains_inSlot (fun s v => h s root v (by rw [hroot]; rfl)) _
    · exact Keeps.fail _

/-- A definition takes an identity and stores to its name. -/
theorem maintains_makeFunction {name : String}
    (hidentity : ∀ s, I s → I { s with nextId := s.nextId + 1 })
    (hstore : ∀ s v, I s → I (s.set name v)) (params : List String) (body : Program) :
    Maintains I (makeFunction name params body) := by
  have hfresh : Maintains I freshId := fun s hs => ⟨trivial, hidentity s hs⟩
  refine (Maintains.lift _).bind fun _ => hfresh.bind fun id => Keeps.get.maintains.bind fun s => ?_
  exact (Keeps.modify fun s hs => hstore s _ hs).bind fun _ => Maintains.pure _

/-- A call of the host is recorded, and changes nothing else. -/
theorem maintains_callHost {f : HostFunction} {arguments : List Value}
    (h : ∀ s, I s → I { s with calls := s.calls ++ [⟨f.id, f.name, arguments⟩] }) :
    Maintains I (callHost f arguments) := by
  refine Keeps.get.maintains.bind fun s => Keeps.bind (Keeps.modify h) fun _ _ => ?_
  split
  · exact Maintains.pure _
  · exact Keeps.throw _

end

/-! ## Invariants -/

/-- What every change of a scope keeps, if only the registered functions are called. -/
structure Invariant (functions : Registry) (I : Scope → Prop) : Prop where
  store : ∀ s name v, I s → I (s.set name v)
  identity : ∀ s, I s → I { s with nextId := s.nextId + 1 }
  /-- On entering the body of a function. -/
  enter : ∀ s locals, I s → I { s with locals := some locals }
  /-- On leaving it. -/
  leave : ∀ s inner, I s → I inner → I { inner with locals := s.locals }
  host : ∀ s id f arguments, functions.ofId? id = some f → I s →
    I { s with calls := s.calls ++ [⟨f.id, f.name, arguments⟩] }

section
variable {functions : Registry} {I : Scope → Prop} (hI : Invariant functions I)
include hI

theorem Invariant.withLocals {α : Type} {m : Evaluation α} (hm : Maintains I m)
    (locals : Dict Value) : Maintains I (withLocals locals m) := by
  intro s hs
  have hinner := hm { s with locals := some locals } (hI.enter s locals hs)
  unfold Evaluation.withLocals
  cases hr : m { s with locals := some locals } with
  | ok a inner =>
    rw [hr] at hinner
    exact ⟨trivial, hI.leave s inner hs hinner.2⟩
  | error e inner =>
    rw [hr] at hinner
    exact hI.leave s inner hs hinner

theorem Invariant.carried (options : Options) : Carried options functions (@Maintains I) where
  toCompositional := compositional_maintains
  assign _ v := maintains_assign (fun s root w _ => hI.store s root w) options v
  makeFunction name params body :=
    maintains_makeFunction hI.identity (fun s => hI.store s name) params body
  withLocals locals _ hm := hI.withLocals hm locals
  callHost id f hf arguments := maintains_callHost fun s hs => hI.host s id f arguments hf hs

/-- **Every run keeps what changes of the scope keep**, whatever program it runs. -/
theorem Invariant.run (options : Options) (depth : Nat) (program : Program) :
    Maintains I (Evaluation.run options functions depth program) :=
  (hI.carried options).run depth program

end
end Evaluation

/-- What the run of an expression keeps, its evaluation keeps; the answer satisfies what the value
of the run satisfies. -/
theorem Expression.evaluate_of_keeps {I : Scope → Prop} {Q : Value → Prop} {e : Expression}
    (h : Evaluation.Keeps I (Evaluation.run e.options e.functions e.options.maxDepth e.program) Q)
    {context : Context} (hs : I { context with }) :
    (∀ v, (e.evaluate context).1 = .ok v → Q v) ∧
      ∃ s : Scope, I s ∧ (e.evaluate context).2 = s.toContext := by
  have h := h _ hs
  cases hr : Evaluation.run e.options e.functions e.options.maxDepth e.program { context with } with
  | ok v s =>
    rw [hr] at h
    rw [Expression.evaluate_of_ok hr]
    refine ⟨?_, s, h.2, rfl⟩
    rintro _ ⟨⟩
    exact h.1
  | error error s =>
    rw [hr] at h
    obtain ⟨named, hevaluate, -⟩ := Expression.evaluate_of_error hr
    rw [hevaluate]
    exact ⟨fun v hv => (nomatch hv), s, h, rfl⟩

end Formula
