import Formula.Proofs.Comparison

/-! # Runs on variables that are alike

Two computations simulate each other if on variables that are alike they answer related things or
fail in the same way, and leave variables that are alike (`Simulates`).  One side may know some
variables of the caller: `known` are the variables that keep their values for the whole run, and
`active` those among them that no local variable hides.

The machine looks into no body of a function, so every program simulates itself on variables that
are alike (`simulates_execute`), as long as the host does not look into bodies either.
-/
namespace Formula

/-- Calls of one function with arguments that are alike. -/
structure CallRel (bodies : Closure → Program → Prop) (a b : HostCall) : Prop where
  id : a.id = b.id
  name : a.name = b.name
  arguments : List.Forall₂ (Like bodies) a.arguments b.arguments

/-- Variables of the caller that are alike, after calls of the host that are. -/
structure ContextLike (bodies : Closure → Program → Prop) (c d : Context) : Prop where
  globals : Dict.Rel (Like bodies) c.globals d.globals
  nextId : c.nextId = d.nextId
  calls : List.Forall₂ (CallRel bodies) c.calls d.calls

theorem ContextLike.mono {bodies other : Closure → Program → Prop}
    (hb : ∀ c body, bodies c body → other c body) {c d : Context} (h : ContextLike bodies c d) :
    ContextLike other c d := by
  refine ⟨h.globals.mono fun _ _ hvw => hvw.mono hb, h.nextId, h.calls.imp fun a b hab => ?_⟩
  exact ⟨hab.id, hab.name, hab.arguments.imp fun _ _ hvw => hvw.mono hb⟩

/-- The host looks into no body of a function: whatever bodies are exchanged in the arguments of a
call and of all calls before, it answers what is alike, or fails in the same way. -/
def Registry.Blind (functions : Registry) : Prop :=
  ∀ entry ∈ functions.functions, ∀ bodies : Closure → Program → Prop, (∀ c, bodies c c.body) →
    ∀ calls calls' arguments arguments', List.Forall₂ (CallRel bodies) calls calls' →
      List.Forall₂ (Like bodies) arguments arguments' →
      OutcomeRel (Like bodies) (entry.2.answer calls arguments) (entry.2.answer calls' arguments')

namespace Evaluation

section
variable (bodies : Closure → Program → Prop) (known active : Dict Value)

/-- The scopes are alike, the known variables have their values, and no local variable hides an
active one; outside of all functions all known variables are active. -/
structure Tracks (s s' : Scope) : Prop where
  context : ContextLike bodies s.toContext s'.toContext
  locals : Option.Rel (Dict.Rel (Like bodies)) s.locals s'.locals
  fixed : ∀ name v, known.get? name = some v → s.globals.get? name = some v
  hidden : ∀ locals ∈ s.locals, ∀ name, active.contains name = true → locals.get? name = none
  outermost : s.locals = none → ∀ name, known.contains name = true → active.contains name = true

/-- Results with related answers or the same error, in scopes that are alike. -/
inductive ResultRel {α β : Type} (R : α → β → Prop) :
    EStateM.Result Error Scope α → EStateM.Result Error Scope β → Prop
  | ok {a : α} {b : β} {s s' : Scope} (h : R a b) (hs : Tracks bodies known active s s') :
      ResultRel R (.ok a s) (.ok b s')
  | error (e : Error) {s s' : Scope} (hs : Tracks bodies known active s s') :
      ResultRel R (.error e s) (.error e s')

/-- In scopes that are alike the computations do related things. -/
def Simulates {α β : Type} (R : α → β → Prop) (m : Evaluation α) (n : Evaluation β) : Prop :=
  ∀ s s', Tracks bodies known active s s' → ResultRel bodies known active R (m s) (n s')

/-- The comparison of runs on variables that are alike; it excuses no error. -/
def tracking : Comparison where
  bodies := bodies
  scopes := Tracks bodies known active
  excusesLeft := fun _ => False
  excusesRight := fun _ => False

end

section
variable {bodies : Closure → Program → Prop} {known active : Dict Value} {α β γ δ : Type}
  {R : α → β → Prop} {S : γ → δ → Prop}

theorem Simulates.pure {a : α} {b : β} (h : R a b) :
    Simulates bodies known active R (pure a) (pure b) := fun _ _ hs => .ok h hs

theorem Simulates.fail (fault : Fault) :
    Simulates bodies known active R (fail fault) (fail fault) := fun _ _ hs => .error _ hs

theorem Simulates.lift {x : Except Fault α} {y : Except Fault β} (h : OutcomeRel R x y) :
    Simulates bodies known active R (lift x) (lift y) := by
  cases h with
  | ok h => exact Simulates.pure h
  | error fault => exact Simulates.fail fault

theorem outcome_tracking {x : EStateM.Result Error Scope α} {y : EStateM.Result Error Scope β} :
    (tracking bodies known active).Outcome R x y ↔ ResultRel bodies known active R x y := by
  constructor
  · intro h
    cases h with
    | ok h hs => exact .ok h hs
    | error e hs => exact .error e hs
    | left h => exact h.elim
    | right h => exact h.elim
  · intro h
    cases h with
    | ok h hs => exact .ok h hs
    | error e hs => exact .error e hs

theorem simulates_iff {m : Evaluation α} {n : Evaluation β} :
    Simulates bodies known active R m n ↔ (tracking bodies known active).Relates R m n :=
  forall₂_congr fun _ _ => imp_congr_right fun _ => outcome_tracking.symm

theorem Simulates.bind {m : Evaluation α} {n : Evaluation β} {f : α → Evaluation γ}
    {g : β → Evaluation δ} (h : Simulates bodies known active R m n)
    (hfg : ∀ a b, R a b → Simulates bodies known active S (f a) (g b)) :
    Simulates bodies known active S (m >>= f) (n >>= g) :=
  simulates_iff.mpr ((simulates_iff.mp h).bind fun a b hab => simulates_iff.mp (hfg a b hab))

theorem Simulates.map {m : Evaluation α} {n : Evaluation β} {f : α → γ} {g : β → δ}
    (h : Simulates bodies known active R m n) (hfg : ∀ a b, R a b → S (f a) (g b)) :
    Simulates bodies known active S (f <$> m) (g <$> n) := by
  rw [map_eq_pure_bind, map_eq_pure_bind]
  exact h.bind fun a b hab => Simulates.pure (hfg a b hab)

theorem Simulates.get :
    Simulates bodies known active (Tracks bodies known active) get get := fun _ _ hs => .ok hs hs

theorem Simulates.modify {f g : Scope → Scope}
    (h : ∀ s s', Tracks bodies known active s s' → Tracks bodies known active (f s) (g s')) :
    Simulates bodies known active (fun _ _ => True) (modify f) (modify g) :=
  fun s s' hs => .ok trivial (h s s' hs)

theorem Simulates.set {s s' : Scope} (h : Tracks bodies known active s s') :
    Simulates bodies known active (fun _ _ => True) (set s) (set s') :=
  fun _ _ _ => .ok trivial h

theorem Simulates.freshId : Simulates bodies known active Eq freshId freshId := by
  intro s s' hs
  refine .ok hs.context.nextId ⟨⟨hs.context.globals, ?_, hs.context.calls⟩, hs.locals, hs.fixed,
    hs.hidden, hs.outermost⟩
  exact congrArg (· + 1) hs.context.nextId

theorem Simulates.mapM {f : α → Evaluation γ} {g : β → Evaluation δ} {xs : List α} {ys : List β}
    (h : List.Forall₂ R xs ys)
    (hfg : ∀ a b, R a b → Simulates bodies known active S (f a) (g b)) :
    Simulates bodies known active (List.Forall₂ S) (xs.mapM f) (ys.mapM g) :=
  simulates_iff.mpr (.mapM h fun a b hab => simulates_iff.mp (hfg a b hab))

/-! ## Variables -/

theorem Tracks.get? {s s' : Scope} (h : Tracks bodies known active s s') (name : String) :
    Option.Rel (Like bodies) (s.get? name) (s'.get? name) :=
  optionRel_or (optionRel_bind h.locals fun _ _ hl => hl.get? name) (h.context.globals.get? name)

theorem Tracks.getD {s s' : Scope} (h : Tracks bodies known active s s') (name : String) :
    Like bodies ((s.get? name).getD .undefined) ((s'.get? name).getD .undefined) :=
  like_getD (h.get? name)

/-- A name that is not active may be stored to. -/
theorem Tracks.set {s s' : Scope} (h : Tracks bodies known active s s') {name : String}
    (hname : active.contains name = false) {v w : Value} (hvw : Like bodies v w) :
    Tracks bodies known active (s.set name v) (s'.set name w) := by
  have hother : ∀ other, active.contains other = true → name ≠ other := by
    rintro other hactive rfl
    rw [hname] at hactive
    cases hactive
  have hlocals := h.locals
  cases hl : s.locals with
  | none =>
    cases hl' : s'.locals with
    | some locals' => rw [hl, hl'] at hlocals; cases hlocals
    | none =>
      simp only [Scope.set, hl, hl']
      have hcontext := h.context
      refine ⟨⟨hcontext.globals.insert name hvw, hcontext.nextId, hcontext.calls⟩, ?_, ?_, ?_, ?_⟩
      · exact .none
      · intro other u hu
        have hcontains : known.contains other = true := by rw [Dict.contains, hu]; rfl
        rw [Dict.get?_insert_ne _ _ (hother other (h.outermost hl other hcontains))]
        exact h.fixed other u hu
      · rintro locals ⟨⟩
      · exact fun _ => h.outermost hl
  | some locals =>
    cases hl' : s'.locals with
    | none => rw [hl, hl'] at hlocals; cases hlocals
    | some locals' =>
      rw [hl, hl'] at hlocals
      cases hlocals with
      | some hrel =>
        simp only [Scope.set, hl, hl']
        refine ⟨h.context, .some (hrel.insert name hvw), h.fixed, ?_, ?_⟩
        · rintro _ ⟨⟩ other hactive
          rw [Dict.get?_insert_ne _ _ (hother other hactive)]
          exact h.hidden locals hl other hactive
        · rintro ⟨⟩

theorem simulates_lookup (options : Options) (functions : Registry) (name : String) :
    Simulates bodies known active (Like bodies) (lookup options functions name)
      (lookup options functions name) := by
  refine (Simulates.lift (OutcomeRel.refl (R := Eq) (fun _ => rfl) _)).bind fun _ _ _ => ?_
  split
  · exact Simulates.pure (.same _)
  · split
    · exact Simulates.pure (.same _)
    · refine Simulates.get.bind fun s s' hs => ?_
      have hget := hs.get? name
      revert hget
      cases s.get? name <;> cases s'.get? name <;> intro hget <;> cases hget
      · exact Simulates.fail _
      · exact Simulates.pure (by assumption)

theorem simulates_inSlot {root : String} (hroot : active.contains root = false)
    {change change' : Value → EStateM.Result Fault Value Unit}
    (h : ∀ v w, Like bodies v w → ChangeRel (Like bodies) (change v) (change' w)) :
    Simulates bodies known active (fun _ _ => True) (inSlot root change) (inSlot root change') := by
  refine (Simulates.modify fun s s' hs => hs.set hroot (hs.getD root)).bind fun _ _ _ => ?_
  refine Simulates.get.bind fun s s' hs => ?_
  have hchanged := h _ _ (hs.getD root)
  generalize change _ = outcome at hchanged
  generalize change' _ = outcome' at hchanged
  cases hchanged with
  | ok hvw => exact Simulates.set (hs.set hroot hvw)
  | error fault hvw => exact (Simulates.set (hs.set hroot hvw)).bind fun _ _ _ => Simulates.fail _

theorem simulates_assign (options : Options) {path : String} {v w : Value}
    (hroot : ∀ root ∈ (pathNames path).head?, active.contains root = false)
    (hvw : Like bodies v w) :
    Simulates bodies known active (fun _ _ => True) (assign options path v)
      (assign options path w) := by
  refine (Simulates.lift (OutcomeRel.refl (R := Eq) (fun _ => rfl) _)).bind fun _ _ _ => ?_
  split
  · exact Simulates.fail _
  · rename_i name hnames
    rw [hnames] at hroot
    exact Simulates.modify fun s s' hs => hs.set (hroot name rfl) hvw
  · rename_i root rest _ hnames
    rw [hnames] at hroot
    split
    · exact simulates_inSlot (hroot root rfl) fun _ _ h => like_put h hvw rest
    · exact Simulates.fail _

/-! ## Operands -/

variable {run : Program → Evaluation Value} {P : Program → Program → Prop}
  (hP : ∀ p q, P p q → Simulates bodies known active (Like bodies) (run p) (run q))
include hP

theorem stands_of_simulates {x y : Operand} (h : OperandRel bodies P x y) :
    (tracking bodies known active).Stands run run x y :=
  Comparison.stands_of_operandRel (C := tracking bodies known active)
    (fun p q hpq => simulates_iff.mp (hP p q hpq)) h

theorem simulates_resolve {x y : Operand} (h : OperandRel bodies P x y) :
    Simulates bodies known active (Like bodies) (resolve run x) (resolve run y) :=
  simulates_iff.mpr (stands_of_simulates hP h).resolve

theorem simulates_fields {xs ys : List Operand} (h : List.Forall₂ (OperandRel bodies P) xs ys)
    {fs gs : Dict Value} (hfields : Dict.Rel (Like bodies) fs gs) :
    Simulates bodies known active (Dict.Rel (Like bodies)) (fields run fs xs)
      (fields run gs ys) :=
  simulates_iff.mpr
    (Comparison.relates_fields (h.imp fun _ _ => stands_of_simulates hP) hfields)

theorem simulates_chooseArm {subject subject' : Option Value}
    (hs : Option.Rel (Like bodies) subject subject') {last last' : Option Operand}
    (hlast : Option.Rel (OperandRel bodies P) last last') {xs ys : List Operand}
    (h : List.Forall₂ (OperandRel bodies P) xs ys) :
    Simulates bodies known active (Like bodies) (chooseArm run subject last xs)
      (chooseArm run subject' last' ys) := by
  have hlast : Option.Rel ((tracking bodies known active).Stands run run) last last' := by
    cases hlast with
    | none => exact .none
    | some hlast => exact .some (stands_of_simulates hP hlast)
  exact simulates_iff.mpr
    (Comparison.relates_chooseArm hs hlast (h.imp fun _ _ => stands_of_simulates hP))

omit hP

/-! ## Calls -/

/-- A call starts among local variables of its own, none of which hides a name of `inner`. -/
theorem Tracks.enter {s s' : Scope} (h : Tracks bodies known active s s') {inner : Dict Value}
    {locals locals' : Dict Value} (hl : Dict.Rel (Like bodies) locals locals')
    (hidden : ∀ name, inner.contains name = true → locals.get? name = none) :
    Tracks bodies known inner { s with locals := some locals }
      { s' with locals := some locals' } := by
  refine ⟨h.context, .some hl, h.fixed, ?_, ?_⟩
  · rintro _ ⟨⟩
    exact hidden
  · rintro ⟨⟩

/-- After a call the local variables are those of before. -/
theorem Tracks.leave {s s' u u' : Scope} (h : Tracks bodies known active s s') {inner : Dict Value}
    (hu : Tracks bodies known inner u u') :
    Tracks bodies known active { u with locals := s.locals } { u' with locals := s'.locals } :=
  ⟨hu.context, h.locals, hu.fixed, h.hidden, h.outermost⟩

theorem Simulates.withLocals {inner : Dict Value} {m : Evaluation α} {n : Evaluation β}
    (h : Simulates bodies known inner R m n) {locals locals' : Dict Value}
    (hl : Dict.Rel (Like bodies) locals locals')
    (hidden : ∀ name, inner.contains name = true → locals.get? name = none) :
    Simulates bodies known active R (withLocals locals m) (withLocals locals' n) :=
  simulates_iff.mpr (.withLocals (simulates_iff.mp h) (fun _ h => h) (fun _ h => h)
    (fun _ _ hs => hs.enter hl hidden) fun _ _ _ _ hs hu => hs.leave hu)

theorem rel_localsOf {c d : Closure}
    (h : Like bodies (.function (.closure c)) (.function (.closure d))) {xs ys : List Value}
    (hargs : List.Forall₂ (Like bodies) xs ys) :
    Dict.Rel (Like bodies) (localsOf c xs) (localsOf d ys) := by
  obtain ⟨hname, hparams, -, hcaptured⟩ := h.of_closure
  have hfold : ∀ (params : List (String × Nat)) (fs gs : Dict Value),
      Dict.Rel (Like bodies) fs gs → Dict.Rel (Like bodies)
        (params.foldl (fun locals param => locals.insert param.1 (xs[param.2]?.getD .undefined)) fs)
        (params.foldl (fun locals param => locals.insert param.1 (ys[param.2]?.getD .undefined))
          gs) := by
    intro params
    induction params with
    | nil => exact fun _ _ hfields => hfields
    | cons param params ih =>
      intro fs gs hfields
      exact ih _ _ (hfields.insert param.1 (like_getD (optionRel_getElem? hargs param.2)))
  unfold localsOf
  rw [hparams]
  refine hfold _ _ _ ?_
  revert hcaptured
  cases c.captured <;> cases d.captured <;> intro hcaptured <;> cases hcaptured
  · exact .nil
  · rename_i hcaptured
    dsimp only
    rw [hname, hcaptured.contains_eq]
    split
    · exact hcaptured
    · exact hcaptured.insert d.name h

/-- Functions that are alike are called alike, whatever is active where they are called. -/
def CallsAlike (bodies : Closure → Program → Prop) (known : Dict Value)
    (run : Program → Evaluation Value) : Prop :=
  ∀ active c d xs ys, Like bodies (.function (.closure c)) (.function (.closure d)) →
    List.Forall₂ (Like bodies) xs ys → Simulates bodies known active (Like bodies)
      (withLocals (localsOf c xs) (run c.body)) (withLocals (localsOf d ys) (run d.body))

theorem simulates_callHost {functions : Registry} (hblind : functions.Blind)
    (hrefl : ∀ c, bodies c c.body) {f : HostFunction} {name : String}
    (hmem : (name, f) ∈ functions.functions) {xs ys : List Value}
    (hargs : List.Forall₂ (Like bodies) xs ys) :
    Simulates bodies known active (Like bodies) (callHost f xs) (callHost f ys) := by
  refine Simulates.get.bind fun s s' hs => ?_
  refine (Simulates.modify ?_).bind fun _ _ _ => ?_
  · intro u u' hu
    have hcalls := List.rel_append hu.context.calls
      (.cons (CallRel.mk rfl rfl hargs) .nil : List.Forall₂ (CallRel bodies)
        [⟨f.id, f.name, xs⟩] [⟨f.id, f.name, ys⟩])
    exact ⟨⟨hu.context.globals, hu.context.nextId, hcalls⟩, hu.locals, hu.fixed, hu.hidden,
      hu.outermost⟩
  · have hanswer := hblind _ hmem bodies hrefl _ _ _ _ hs.context.calls hargs
    dsimp only at hanswer ⊢
    generalize f.answer s.calls xs = x at hanswer
    generalize f.answer s'.calls ys = y at hanswer
    cases hanswer with
    | ok h => exact Simulates.pure h
    | error e => exact fun _ _ hu => .error e hu

theorem simulates_call {functions : Registry} (hblind : functions.Blind)
    (hrefl : ∀ c, bodies c c.body) (hcalls : CallsAlike bodies known run) {f g : Value}
    (hfg : Like bodies f g) {xs ys : List Value} (hargs : List.Forall₂ (Like bodies) xs ys) :
    Simulates bodies known active (Like bodies) (call functions run f xs)
      (call functions run g ys) :=
  simulates_iff.mpr (Comparison.relates_call
    (fun _ hmem => simulates_iff.mp (simulates_callHost hblind hrefl hmem hargs))
    (fun c d hcd => simulates_iff.mp (hcalls active c d xs ys hcd hargs)) hfg hargs)

/-- A definition makes functions that are alike if their bodies are. -/
theorem simulates_makeFunction {name : String} (hname : active.contains name = false)
    {params : List String} {p q : Program}
    (hbody : ∀ id captured, (∀ locals ∈ captured, ∀ other, active.contains other = true →
      Dict.get? locals other = none) → bodies ⟨id, name, params, p, captured⟩ q) :
    Simulates bodies known active (Like bodies) (makeFunction name params p)
      (makeFunction name params q) := by
  refine (Simulates.lift (OutcomeRel.refl (R := Eq) (fun _ => rfl) _)).bind fun _ _ _ => ?_
  refine Simulates.freshId.bind fun id _ hid => Simulates.get.bind fun s s' hs => ?_
  subst hid
  have hf : Like bodies (.function (.closure ⟨id, name, params, p, s.locals⟩))
      (.function (.closure ⟨id, name, params, q, s'.locals⟩)) :=
    .closure rfl rfl rfl (hbody id s.locals hs.hidden) hs.locals
  exact (Simulates.modify fun u u' hu => hu.set hname hf).bind fun _ _ _ => Simulates.pure hf

/-- **A program does the same on stacks and variables that are alike.** -/
theorem simulates_execute (hrun : ∀ p, Simulates bodies known [] (Like bodies) (run p) (run p))
    {options : Options} {functions : Registry} (hblind : functions.Blind)
    (hrefl : ∀ c, bodies c c.body) (hcalls : CallsAlike bodies known run) (program : Program)
    {stack stack' : List Operand} (h : List.Forall₂ (OperandRel bodies Eq) stack stack') :
    Simulates bodies known [] (Like bodies) (execute options functions run program stack)
      (execute options functions run program stack') := by
  have hsame : ∀ p q, p = q → (tracking bodies known []).Relates (Like bodies) (run p) (run q) := by
    rintro p _ rfl
    exact simulates_iff.mp (hrun p)
  refine simulates_iff.mpr (Comparison.relates_execute hsame (fun instr _ => ?_) h)
  constructor
  · exact fun name _ => simulates_iff.mp (simulates_lookup options functions name)
  · exact fun body _ => rfl
  · exact fun _ path v w hvw => simulates_iff.mp (simulates_assign options (fun _ _ => rfl) hvw)
  · rintro _ _ name params p _ rfl
    exact simulates_iff.mp (simulates_makeFunction rfl fun _ _ _ => hrefl _)
  · intro _ _ f g xs ys hfg hargs
    exact simulates_iff.mp (simulates_call hblind hrefl hcalls hfg hargs)

end
end Evaluation
end Formula
