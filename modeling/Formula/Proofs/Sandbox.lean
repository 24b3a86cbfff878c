import Formula.Session
import Formula.Proofs.Invariants

/-! # The sandbox of whole histories

Several compilers work on the variables of one caller, and functions are registered, replaced and
taken away between compiling, deriving and running expressions.  In every such history an
expression calls only functions that its compiler had registered when its text was compiled, and
once a registration has been replaced or taken away, no expression compiled there later calls it
(`calls_registered`).  Through which value a function reaches the call plays no part, so neither do
the variables: they may hold anything.

Three facts make this up: a run calls only what its registry holds, whatever program it runs
(`evaluate_callsOnly`); an expression keeps the registry of the compiler it comes from, and all
registrations have identities of their own (`World.Sound`); and an identity that a compiler has lost
never comes back to it (`World.Retired`).
-/
namespace Formula

/-! ## One evaluation -/

/-- The calls of the host between the two contexts are calls of registered functions. -/
def CallsOnly (functions : Registry) (before after : Context) : Prop :=
  ∃ calls, after.calls = before.calls ++ calls ∧ ∀ call ∈ calls, functions.containsId call.id

namespace Registry
variable {functions : Registry} {id : Nat}

theorem ofId?_mem {f : HostFunction} (h : functions.ofId? id = some f) :
    f.id = id ∧ ∃ name, (name, f) ∈ functions.functions := by
  obtain ⟨⟨name, g⟩, hfind, rfl⟩ := Option.map_eq_some_iff.mp h
  exact ⟨by simpa using List.find?_some hfind, name, List.mem_of_find?_eq_some hfind⟩

theorem containsId_iff :
    functions.containsId id ↔ ∃ entry ∈ functions.functions, entry.2.id = id := by
  simp [containsId, ofId?]

end Registry

/-- A run only adds calls of registered functions, and takes identities from the supply. -/
theorem invariant_calls (functions : Registry) (before : Context) :
    Evaluation.Invariant functions fun s =>
      CallsOnly functions before s.toContext ∧ before.nextId ≤ s.nextId where
  store s name v h := by
    unfold Scope.set
    split
    · exact h
    · exact h
  identity s h := ⟨h.1, Nat.le_succ_of_le h.2⟩
  enter s locals h := h
  leave s inner _ h := h
  host s id f arguments hf h := by
    obtain ⟨⟨calls, hcalls, hregistered⟩, hid⟩ := h
    refine ⟨⟨calls ++ [⟨f.id, f.name, arguments⟩], by simp [hcalls], fun call hcall => ?_⟩, hid⟩
    rcases List.mem_append.mp hcall with hcall | hcall
    · exact hregistered call hcall
    · obtain rfl := List.mem_singleton.mp hcall
      rw [Registry.containsId, (Registry.ofId?_mem hf).1, hf, Option.isSome_some]

/-- **An evaluation calls only functions that the expression holds as registered**, on all
variables. -/
theorem evaluate_callsOnly (e : Expression) (context : Context) :
    CallsOnly e.functions context (e.evaluate context).2 ∧
      context.nextId ≤ (e.evaluate context).2.nextId := by
  have hrun := (invariant_calls e.functions context).run e.options e.options.maxDepth e.program
  have hstart : CallsOnly e.functions context context ∧ context.nextId ≤ context.nextId :=
    ⟨⟨[], by simp, by simp⟩, Nat.le_refl _⟩
  obtain ⟨-, s, hs, hafter⟩ := @Expression.evaluate_of_keeps _ _ e hrun context hstart
  rw [hafter]
  exact hs

/-! ## Worlds and histories -/

/-- Where an expression comes from. -/
structure Origin where
  /-- The place of the compiler that compiled its text. -/
  compiler : Nat
  /-- The functions that were registered there. -/
  functions : Registry
  /-- How many expressions there were before. -/
  time : Nat

/-- An expression that was compiled, or derived from one that was. -/
structure Kept where
  expression : Expression
  origin : Origin

/-- Compilers, the variables they share, and all expressions so far, the earliest first. -/
structure World where
  compilers : List Compiler := []
  context : Context := {}
  kept : List Kept := []

/-- What a caller can do.  Compilers and expressions are named by their places; nothing happens if
there is none at the place. -/
inductive Action
  | create (options : Options)
  | copy (compiler : Nat)
  /-- Registers a function, in place of one that has the name. -/
  | register (compiler : Nat) (name : String) (answer : HostAnswer)
  | unregister (compiler : Nat) (name : String)
  | defineConstant (compiler : Nat) (name : String) (v : Value)
  | removeConstant (compiler : Nat) (name : String)
  | compile (compiler : Nat) (source : String)
  | simplify (expression : Nat) (known : Dict Value)
  | substitute (expression : Nat) (name : String) (replacement : Nat)
  | evaluate (expression : Nat)
  | setVariable (name : String) (v : Value)
  | removeVariable (name : String)

namespace World
variable (w : World)

/-- Keeps a new expression. -/
def keep (x : Kept) : World := { w with kept := w.kept ++ [x] }

/-- The session of a compiler with the shared variables. -/
def session (c : Compiler) : Session := { compiler := c, context := w.context }

/-- Does something in the session of the compiler at a place. -/
def within (place : Nat) (change : Session → Session) : World :=
  match w.compilers[place]? with
  | none => w
  | some c =>
    let s := change (w.session c)
    { w with compilers := w.compilers.set place s.compiler, context := s.context }

/-- The world after an action. -/
def act : Action → World
  | .create options => { w with compilers := w.compilers ++ [{ options }] }
  | .copy place => { w with compilers := w.compilers ++ w.compilers[place]?.toList }
  | .register place name answer => w.within place fun s => (s.register name answer).2
  | .unregister place name => w.within place fun s => (s.unregister name).2
  | .defineConstant place name v => w.within place fun s => s.defineConstant name v
  | .removeConstant place name => w.within place fun s => (s.removeConstant name).2
  | .compile place source =>
    match w.compilers[place]? with
    | none => w
    | some c =>
      match c.compile source with
      | .ok e => w.keep ⟨e, place, c.functions, w.kept.length⟩
      | .error _ => w
  | .simplify place known =>
    match w.kept[place]? with
    | none => w
    | some x => w.keep { x with expression := x.expression.simplify known }
  | .substitute place name other =>
    match w.kept[place]?, w.kept[other]? with
    | some x, some y => w.keep { x with expression := x.expression.substitute name y.expression }
    | _, _ => w
  | .evaluate place =>
    match w.kept[place]? with
    | none => w
    | some x => { w with context := (x.expression.evaluate w.context).2 }
  | .setVariable name v => { w with context := ((w.session {}).setVariable name v).context }
  | .removeVariable name => { w with context := ((w.session {}).removeVariable name).2.context }

/-- The world after a history. -/
def after (history : List Action) : World := history.foldl act w

end World

/-! ## Registrations have identities of their own -/

/-- No two registrations have one identity, and all identities are from the supply below the
bound. -/
structure Registry.Numbered (functions : Registry) (bound : Nat) : Prop where
  ascends : functions.functions.Ascending
  below : ∀ entry ∈ functions.functions, entry.2.id < bound
  unique : ∀ a ∈ functions.functions, ∀ b ∈ functions.functions, a.2.id = b.2.id → a = b

namespace Registry.Numbered
variable {functions : Registry} {bound : Nat} (h : functions.Numbered bound)
include h

theorem mono {larger : Nat} (hle : bound ≤ larger) : functions.Numbered larger :=
  ⟨h.ascends, fun entry hentry => Nat.lt_of_lt_of_le (h.below entry hentry) hle, h.unique⟩

theorem remove (name : String) : (functions.remove name).Numbered bound where
  ascends := h.ascends.erase name
  below entry hentry := h.below entry (Dict.mem_erase.mp hentry).1
  unique a ha b hb := h.unique a (Dict.mem_erase.mp ha).1 b (Dict.mem_erase.mp hb).1

/-- A registration takes the first identity that has not been taken. -/
theorem register (name : String) (answer : HostAnswer) :
    (functions.register ⟨bound, name, answer⟩).Numbered (bound + 1) where
  ascends := h.ascends.insert name _
  below entry hentry := by
    rcases Dict.mem_insert hentry with rfl | hentry
    · exact Nat.lt_succ_self bound
    · exact Nat.lt_succ_of_lt (h.below entry hentry)
  unique a ha b hb hid := by
    rcases Dict.mem_insert ha with rfl | ha <;> rcases Dict.mem_insert hb with rfl | hb
    · rfl
    · exact absurd hid.symm (Nat.ne_of_lt (h.below b hb))
    · exact absurd hid (Nat.ne_of_lt (h.below a ha))
    · exact h.unique a ha b hb hid

/-- Only under its own name is a registration held. -/
theorem id_ne {name : String} {f : HostFunction} (hf : functions.get? name = some f)
    {entry : String × HostFunction} (hentry : entry ∈ functions.functions) (hne : entry.1 ≠ name) :
    entry.2.id ≠ f.id := fun hid =>
  hne (congrArg Prod.fst (h.unique entry hentry (name, f) (Dict.mem_of_get? hf) hid))

theorem not_containsId_remove {name : String} {f : HostFunction}
    (hf : functions.get? name = some f) : ¬ (functions.remove name).containsId f.id := by
  rw [containsId_iff]
  rintro ⟨entry, hentry, hid⟩
  obtain ⟨hentry, hne⟩ := Dict.mem_erase.mp hentry
  exact h.id_ne hf hentry hne hid

theorem not_containsId_register {name : String} {f : HostFunction}
    (hf : functions.get? name = some f) (answer : HostAnswer) :
    ¬ (functions.register ⟨bound, name, answer⟩).containsId f.id := by
  rw [containsId_iff]
  rintro ⟨entry, hentry, hid⟩
  rcases h.ascends.mem_insert hentry with rfl | ⟨hentry, hne⟩
  · exact Nat.ne_of_gt (h.below _ (Dict.mem_of_get? hf)) hid
  · exact h.id_ne hf hentry hne hid

end Registry.Numbered

/-! ## What an action can do -/

/-- What an action changes of compilers, of their functions, of identities and of expressions. -/
inductive World.Changes (w : World) : World → Prop
  | nothing : Changes w w
  | created (c : Compiler) (h : c.functions.functions = [] ∨ c ∈ w.compilers) :
      Changes w { w with compilers := w.compilers ++ [c] }
  | changed {place : Nat} {c : Compiler} (hc : w.compilers[place]? = some c) (c' : Compiler)
      (h : c'.functions = c.functions ∨ ∃ name, c'.functions = c.functions.remove name) :
      Changes w { w with compilers := w.compilers.set place c' }
  | registered {place : Nat} {c : Compiler} (hc : w.compilers[place]? = some c) (name : String)
      (answer : HostAnswer) : Changes w { w with
        compilers := w.compilers.set place (c.register ⟨w.context.nextId, name, answer⟩)
        context := { w.context with nextId := w.context.nextId + 1 } }
  | compiled {place : Nat} {c : Compiler} (hc : w.compilers[place]? = some c) {e : Expression}
      (h : e.functions = c.functions) : Changes w (w.keep ⟨e, place, c.functions, w.kept.length⟩)
  | derived {x : Kept} (hx : x ∈ w.kept) {e : Expression}
      (h : e.functions = x.expression.functions) : Changes w (w.keep { x with expression := e })
  | stored (context : Context) (h : w.context.nextId ≤ context.nextId) :
      Changes w { w with context := context }

theorem World.changes_within {w : World} (place : Nat) (change : Session → Session)
    (h : ∀ c, w.compilers[place]? = some c → w.Changes { w with
      compilers := w.compilers.set place (change (w.session c)).compiler
      context := (change (w.session c)).context }) : w.Changes (w.within place change) := by
  unfold within
  cases hc : w.compilers[place]? with
  | none => exact .nothing
  | some c => exact h c hc

theorem Compiler.functions_of_compile {c : Compiler} {source : String} {e : Expression}
    (h : c.compile source = .ok e) : e.functions = c.functions := by
  unfold compile at h
  cases ht : Term.parse c.options c.constants source with
  | ok t =>
    rw [ht] at h
    obtain rfl := Except.ok.inj h
    rfl
  | error error =>
    rw [ht] at h
    cases h

/-- **Every action is one of the changes.** -/
theorem World.changes_act (w : World) (action : Action) : w.Changes (w.act action) := by
  cases action with
  | create options => exact .created _ (.inl rfl)
  | copy place =>
    cases hc : w.compilers[place]? with
    | none =>
      rw [act, hc, Option.toList_none, List.append_nil]
      exact .nothing
    | some c =>
      rw [act, hc, Option.toList_some]
      exact .created c (.inr (List.mem_of_getElem? hc))
  | register place name answer =>
    rw [act]
    exact changes_within _ _ fun c hc => .registered hc name answer
  | unregister place name =>
    rw [act]
    exact changes_within _ _ fun c hc => .changed hc _ (.inr ⟨name, rfl⟩)
  | defineConstant place name v =>
    rw [act]
    exact changes_within _ _ fun c hc => .changed hc _ (.inl rfl)
  | removeConstant place name =>
    rw [act]
    exact changes_within _ _ fun c hc => .changed hc _ (.inl rfl)
  | compile place source =>
    rw [act]
    split
    · exact .nothing
    · rename_i c hc
      split
      · rename_i e he
        exact .compiled hc (Compiler.functions_of_compile he)
      · exact .nothing
  | simplify place known =>
    rw [act]
    split
    · exact .nothing
    · rename_i x hx
      exact .derived (List.mem_of_getElem? hx) rfl
  | substitute place name other =>
    rw [act]
    split
    · rename_i x y hx _
      exact .derived (List.mem_of_getElem? hx) rfl
    · exact .nothing
  | evaluate place =>
    rw [act]
    split
    · exact .nothing
    · rename_i x _
      exact .stored _ (evaluate_callsOnly x.expression w.context).2
  | setVariable name v => exact .stored _ (Nat.le_refl _)
  | removeVariable name => exact .stored _ (Nat.le_refl _)

/-! ## What holds in every world -/

/-- Registrations have identities of their own, and expressions hold the functions of the compiler
they come from. -/
structure World.Sound (w : World) : Prop where
  numbered : ∀ c ∈ w.compilers, c.functions.Numbered w.context.nextId
  functions : ∀ x ∈ w.kept, x.expression.functions = x.origin.functions
  time : ∀ x ∈ w.kept, x.origin.time < w.kept.length

theorem World.Sound.keep {w : World} (h : w.Sound) {x : Kept}
    (hfunctions : x.expression.functions = x.origin.functions)
    (htime : x.origin.time ≤ w.kept.length) : (w.keep x).Sound where
  numbered := h.numbered
  functions y hy := by
    rcases List.mem_append.mp hy with hy | hy
    · exact h.functions y hy
    · obtain rfl := List.mem_singleton.mp hy
      exact hfunctions
  time y hy := by
    have hlength : (w.keep x).kept.length = w.kept.length + 1 := by simp [World.keep]
    rw [hlength]
    rcases List.mem_append.mp hy with hy | hy
    · exact Nat.lt_succ_of_lt (h.time y hy)
    · obtain rfl := List.mem_singleton.mp hy
      exact Nat.lt_succ_of_le htime

theorem World.Sound.changes {w w' : World} (h : w.Sound) (hw : w.Changes w') : w'.Sound := by
  cases hw with
  | nothing => exact h
  | created c hc =>
    refine ⟨fun d hd => ?_, h.functions, h.time⟩
    rcases List.mem_append.mp hd with hd | hd
    · exact h.numbered d hd
    · obtain rfl := List.mem_singleton.mp hd
      rcases hc with hc | hc
      · exact ⟨by simp [hc, Dict.Ascending], by simp [hc], by simp [hc]⟩
      · exact h.numbered d hc
  | @changed place c hc c' hfunctions =>
    refine ⟨fun d hd => ?_, h.functions, h.time⟩
    have hnumbered := h.numbered c (List.mem_of_getElem? hc)
    rcases List.mem_or_eq_of_mem_set hd with hd | rfl
    · exact h.numbered d hd
    · rcases hfunctions with hfunctions | ⟨name, hfunctions⟩
      · rw [hfunctions]
        exact hnumbered
      · rw [hfunctions]
        exact hnumbered.remove name
  | @registered place c hc name answer =>
    refine ⟨fun d hd => ?_, h.functions, h.time⟩
    rcases List.mem_or_eq_of_mem_set hd with hd | rfl
    · exact (h.numbered d hd).mono (Nat.le_succ _)
    · exact (h.numbered c (List.mem_of_getElem? hc)).register name answer
  | compiled hc hfunctions => exact h.keep hfunctions (Nat.le_refl _)
  | @derived x hx e hfunctions =>
    exact h.keep (hfunctions.trans (h.functions x hx)) (Nat.le_of_lt (h.time x hx))
  | stored context hcontext =>
    exact ⟨fun c hc => (h.numbered c hc).mono hcontext, h.functions, h.time⟩

/-- Expressions and registrations are in order after every history. -/
theorem World.Sound.after {w : World} (h : w.Sound) (history : List Action) :
    (w.after history).Sound := by
  induction history generalizing w with
  | nil => exact h
  | cons action history ih => exact ih (h.changes (w.changes_act action))

/-- The identity was taken, the compiler at the place does not hold it, and neither does an
expression that was compiled there since the time. -/
structure World.Retired (place id time : Nat) (w : World) : Prop where
  placed : place < w.compilers.length
  taken : id < w.context.nextId
  absent : ∀ c, w.compilers[place]? = some c → ¬ c.functions.containsId id
  since : ∀ x ∈ w.kept, x.origin.compiler = place → time ≤ x.origin.time →
    ¬ x.origin.functions.containsId id

section
variable {place id time : Nat} {w : World}

/-- The compiler at the place stays, or becomes one that does not hold the identity. -/
theorem World.Retired.absent_set (h : w.Retired place id time) {other : Nat} {c' : Compiler}
    (hc' : other = place → ¬ c'.functions.containsId id) (c : Compiler)
    (hc : (w.compilers.set other c')[place]? = some c) : ¬ c.functions.containsId id := by
  by_cases hplace : other = place
  · subst hplace
    rw [List.getElem?_set_self h.placed] at hc
    obtain rfl := Option.some.inj hc
    exact hc' rfl
  · rw [List.getElem?_set_ne hplace] at hc
    exact h.absent c hc

theorem World.Retired.keep (h : w.Retired place id time) {x : Kept}
    (hx : x.origin.compiler = place → time ≤ x.origin.time → ¬ x.origin.functions.containsId id) :
    (w.keep x).Retired place id time where
  placed := h.placed
  taken := h.taken
  absent := h.absent
  since y hy := by
    rcases List.mem_append.mp hy with hy | hy
    · exact h.since y hy
    · obtain rfl := List.mem_singleton.mp hy
      exact hx

theorem World.Retired.changes {w' : World} (h : w.Retired place id time) (hw : w.Changes w') :
    w'.Retired place id time := by
  cases hw with
  | nothing => exact h
  | created c _ =>
    refine ⟨?_, h.taken, fun d hd => ?_, h.since⟩
    · rw [List.length_append]
      exact Nat.lt_add_right _ h.placed
    · rw [List.getElem?_append_left h.placed] at hd
      exact h.absent d hd
  | @changed other c hc c' hfunctions =>
    refine ⟨?_, h.taken, h.absent_set ?_, h.since⟩
    · rw [List.length_set]
      exact h.placed
    · rintro rfl hid
      refine h.absent c hc ?_
      rcases hfunctions with hfunctions | ⟨name, hfunctions⟩
      · rwa [hfunctions] at hid
      · rw [hfunctions, Registry.containsId_iff] at hid
        obtain ⟨entry, hentry, hid⟩ := hid
        exact Registry.containsId_iff.mpr ⟨entry, (Dict.mem_erase.mp hentry).1, hid⟩
  | @registered other c hc name answer =>
    refine ⟨?_, Nat.lt_succ_of_lt h.taken, h.absent_set ?_, h.since⟩
    · rw [List.length_set]
      exact h.placed
    · rintro rfl hid
      obtain ⟨entry, hentry, hid⟩ := Registry.containsId_iff.mp hid
      rcases Dict.mem_insert hentry with rfl | hentry
      · exact Nat.ne_of_gt h.taken hid
      · exact h.absent c hc (Registry.containsId_iff.mpr ⟨entry, hentry, hid⟩)
  | compiled hc _ =>
    refine h.keep ?_
    rintro rfl _
    exact h.absent _ hc
  | @derived x hx e _ => exact h.keep (h.since x hx)
  | stored context hcontext =>
    exact ⟨h.placed, Nat.lt_of_lt_of_le h.taken hcontext, h.absent, h.since⟩

/-- What is retired stays retired in every history. -/
theorem World.Retired.after (h : w.Retired place id time) (history : List Action) :
    (w.after history).Retired place id time := by
  induction history generalizing w with
  | nil => exact h
  | cons action history ih => exact ih (h.changes (w.changes_act action))

/-- What takes the function of a name away from a compiler. -/
inductive Action.Retires (place : Nat) (name : String) : Action → Prop
  | register (answer : HostAnswer) : Retires place name (.register place name answer)
  | unregister : Retires place name (.unregister place name)

/-- A registration that is replaced or taken away is retired from then on. -/
theorem World.Sound.retired (h : w.Sound) {c : Compiler} (hc : w.compilers[place]? = some c)
    {name : String} {f : HostFunction} (hf : c.functions.get? name = some f) {action : Action}
    (ha : action.Retires place name) : (w.act action).Retired place f.id w.kept.length := by
  have hnumbered := h.numbered c (List.mem_of_getElem? hc)
  have hplaced : place < w.compilers.length := (List.getElem?_eq_some_iff.mp hc).1
  have htaken : f.id < w.context.nextId := hnumbered.below _ (Dict.mem_of_get? hf)
  have hsince : ∀ x ∈ w.kept, x.origin.compiler = place → w.kept.length ≤ x.origin.time →
      ¬ x.origin.functions.containsId f.id :=
    fun x hx _ htime => absurd (h.time x hx) (Nat.not_lt.mpr htime)
  cases ha with
  | register answer =>
    have hact : w.act (.register place name answer) = { w with
        compilers := w.compilers.set place (c.register ⟨w.context.nextId, name, answer⟩)
        context := { w.context with nextId := w.context.nextId + 1 } } := by
      rw [act, within, hc]
      rfl
    rw [hact]
    refine ⟨by rwa [List.length_set], Nat.lt_succ_of_lt htaken, fun d hd => ?_, hsince⟩
    rw [List.getElem?_set_self hplaced] at hd
    obtain rfl := Option.some.inj hd
    exact hnumbered.not_containsId_register hf answer
  | unregister =>
    have hact : w.act (.unregister place name) =
        { w with compilers := w.compilers.set place (c.unregister name) } := by
      rw [act, within, hc]
      rfl
    rw [hact]
    refine ⟨by rwa [List.length_set], htaken, fun d hd => ?_, hsince⟩
    rw [List.getElem?_set_self hplaced] at hd
    obtain rfl := Option.some.inj hd
    exact hnumbered.not_containsId_remove hf

end

/-! ## Whole histories -/

/-- **The sandbox holds in every history.**  Start with any variables and let anything happen.  An
expression that is evaluated, on whatever variables, then calls only functions that were registered
at its compiler when the text it derives from was compiled.  And if a name of a compiler is
registered again, or taken away, then whatever happens later, no expression of a text that this
compiler compiles afterwards calls the function that the name had before. -/
theorem calls_registered (start : Context) (history : List Action) :
    let w := World.after { context := start } history
    (∀ x ∈ w.kept, ∀ context,
      CallsOnly x.origin.functions context (x.expression.evaluate context).2) ∧
    ∀ place c name f action, w.compilers[place]? = some c → c.functions.get? name = some f →
      action.Retires place name → ∀ later, ∀ x ∈ ((w.act action).after later).kept,
      x.origin.compiler = place → w.kept.length ≤ x.origin.time → ∀ context, ∃ calls,
        (x.expression.evaluate context).2.calls = context.calls ++ calls ∧
          ∀ call ∈ calls, call.id ≠ f.id := by
  intro w
  have hstart : World.Sound { context := start } := ⟨by simp, by simp, by simp⟩
  have hsound : w.Sound := hstart.after history
  have hcalls : ∀ w : World, w.Sound → ∀ x ∈ w.kept, ∀ context,
      CallsOnly x.origin.functions context (x.expression.evaluate context).2 := by
    intro w hsound x hx context
    rw [← hsound.functions x hx]
    exact (evaluate_callsOnly x.expression context).1
  refine ⟨hcalls w hsound, ?_⟩
  intro place c name f action hc hf ha later x hx hplace htime context
  have hretired := (hsound.retired hc hf ha).after later
  have hlater := (hsound.changes (w.changes_act action)).after later
  obtain ⟨calls, hcalls, hregistered⟩ := hcalls _ hlater x hx context
  refine ⟨calls, hcalls, fun call hcall hid => ?_⟩
  exact hretired.since x hx hplace htime (hid ▸ hregistered call hcall)

/-- A variable still holds the function `f` of the compiler after `f` has been registered again: the
expression `f()` of before calls it, and `g()`, compiled afterwards, does not. -/
theorem calls_registered_replaced :
    ∃ (start : Context) (answer : HostAnswer) (x y : Kept) (f : HostFunction),
      let w := World.after { context := start } [.create {}, .register 0 "f" answer, .compile 0 "f()"]
      let w' := (w.act (.register 0 "f" answer)).after [.compile 0 "g()"]
      start.globals = [("g", f.value)] ∧ w.kept = [x] ∧ w'.kept = [x, y] ∧
      (x.expression.evaluate start).2.calls = [⟨f.id, "f", []⟩] ∧
      CallsOnly x.origin.functions start (x.expression.evaluate start).2 ∧
      (y.expression.evaluate start).1
        = .error ⟨.call (.notAllowed "f"), none, some "g()"⟩ ∧
      ∃ calls, (y.expression.evaluate start).2.calls = start.calls ++ calls ∧
        ∀ call ∈ calls, call.id ≠ f.id := by
  let answer : HostAnswer := fun _ _ => .ok .null
  let f : HostFunction := ⟨1, "f", answer⟩
  let start : Context := { globals := [("g", f.value)] }
  let c : Compiler := ({} : Compiler).register f
  let call (name : String) : Program := [.var name, .call 0]
  let x : Kept := ⟨⟨call "f", c.options, c.functions, some "f()"⟩, 0, c.functions, 0⟩
  let c' : Compiler := c.register ⟨2, "f", answer⟩
  let y : Kept := ⟨⟨call "g", c'.options, c'.functions, some "g()"⟩, 0, c'.functions, 1⟩
  let history : List Action := [.create {}, .register 0 "f" answer, .compile 0 "f()"]
  obtain ⟨hcalls, hretired⟩ := calls_registered start history
  have hkept : (World.after { context := start } history).kept = [x] := rfl
  have hkept' : (((World.after { context := start } history).act
      (.register 0 "f" answer)).after [.compile 0 "g()"]).kept = [x, y] := rfl
  refine ⟨start, answer, x, y, f, rfl, hkept, hkept', rfl, ?_, rfl, ?_⟩
  · exact hcalls x (hkept ▸ List.mem_singleton_self x) start
  · exact hretired 0 c "f" f (.register 0 "f" answer) rfl rfl (.register answer)
      [.compile 0 "g()"] y (hkept' ▸ by simp) rfl (Nat.le_refl 1) start

end Formula
