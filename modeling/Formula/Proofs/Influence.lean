import Formula.Proofs.Families
import Formula.Proofs.Mentions
import Formula.Proofs.Names
import Formula.Proofs.Regimes
import Formula.Proofs.Simplification

/-! # Which variables matter

The names that an expression lists are all that can matter to it.  Where two callers have the same
values under these names, the expression answers the same to both, or fails in the same way, and
calls the host in the same way; afterwards both have the same values under these names again, and
under all other names what they had (`evaluate_symbols`).

Functions are what could reach further: a function carries a program of its own, with names of its
own.  So the values under the listed names have to be free of functions that a program defined, as
have the literals of the program and what the host makes up.  Then every such function that a run
meets has been defined by the program that runs, and has no names but those of the program
(`Value.Confined`).
-/
namespace Formula

/-! ## Functions in a value -/

/-- The function stands in the value: in an item or a field, or in a local variable that a function
there captured. -/
inductive Closure.OccursIn (c : Closure) : Value → Prop
  | here : OccursIn c (.function (.closure c))
  | item {items : List Value} {v : Value} (hv : v ∈ items) (h : OccursIn c v) :
      OccursIn c (.array items)
  | field {fields : List (String × Value)} {entry : String × Value} (hentry : entry ∈ fields)
      (h : OccursIn c entry.2) : OccursIn c (.object fields)
  | captured {d : Closure} {locals : List (String × Value)} {entry : String × Value}
      (hlocals : d.captured = some locals) (hentry : entry ∈ locals) (h : OccursIn c entry.2) :
      OccursIn c (.function (.closure d))

/-- No function that a program defined stands in the value. -/
def Value.ClosureFree (v : Value) : Prop := ∀ c : Closure, ¬ c.OccursIn v

/-- The host answers no functions that a program defined but those it is handed. -/
def Registry.HandsBack (functions : Registry) : Prop :=
  ∀ entry ∈ functions.functions, ∀ calls arguments v, entry.2.answer calls arguments = .ok v →
    ∀ c : Closure, c.OccursIn v → ∃ argument ∈ arguments, c.OccursIn argument

/-! ## Terms and functions that are confined to names -/

section
variable (names : List String)

/-- The construct reads and stores to variables of these names only, and no function stands in
it. -/
def Term.KeepsTo : Term → Prop
  | .literal v => v.ClosureFree
  | .var name => name ∈ names
  | t => ∀ name ∈ t.storesTo?, name ∈ names

/-- All constructs of the term keep to the names. -/
abbrev Term.Confined (t : Term) : Prop := t.Everywhere (Term.KeepsTo names)

/-- The body of the function is confined to the names. -/
def Closure.Confined (c : Closure) : Prop := ∃ t : Term, c.body = t.code ∧ t.Confined names

/-- All functions in the value are confined to the names. -/
def Value.Confined (v : Value) : Prop := ∀ c : Closure, c.OccursIn v → c.Confined names

variable {names}

theorem Value.ClosureFree.confined {v : Value} (h : v.ClosureFree) : v.Confined names :=
  fun c hc => absurd hc (h c)

theorem confined_object {fields : Dict Value} :
    Value.Confined names (.object fields) ↔ Dict.All (Value.Confined names) fields := by
  constructor
  · exact fun h entry hentry c hc => h c (.field hentry hc)
  · rintro h c (_ | _ | ⟨hentry, hc⟩ | _)
    exact h _ hentry c hc

theorem confined_closure {c : Closure} :
    Value.Confined names (.function (.closure c)) ↔
      c.Confined names ∧ ∀ locals ∈ c.captured, Dict.All (Value.Confined names) locals := by
  constructor
  · exact fun h => ⟨h c .here, fun locals hlocals entry hentry d hd =>
      h d (.captured hlocals hentry hd)⟩
  · rintro ⟨hbody, hcaptured⟩ d (_ | _ | _ | ⟨hlocals, hentry, hd⟩)
    · exact hbody
    · exact hcaptured _ hlocals _ hentry d hd

theorem confined_family : Family (Value.Confined names) where
  undefined := nofun
  bool _ := nofun
  number _ := nofun
  string _ := nofun
  array h := by
    rintro c (_ | ⟨hv, hc⟩ | _ | _)
    exact h _ hv c hc
  items h v hv c hc := h c (.item hv hc)
  fields := confined_object.mp

theorem confined_put {target v w : Value} {path : List String} (ht : target.Confined names)
    (hv : v.Confined names) (h : target.put path v = .ok () w) : w.Confined names := by
  refine confined_family.put (K := fun _ => True) nofun (fun hfields _ hinner => ?_) ht hv
    (fun _ _ => trivial) h
  exact confined_object.mpr ((confined_object.mp hfields).insert _ hinner)

end

/-- The root of a path is the first of its names. -/
theorem head?_pathNames (path : String) : (pathNames path).head? = some (pathRoot path) := by
  have hparts : ∀ text : List Char,
      (dottedParts text).head? = some (text.takeWhile fun c => c ≠ '.') := by
    intro text
    induction text with
    | nil => rfl
    | cons c text ih =>
      rw [dottedParts]
      cases hrest : dottedParts text with
      | nil => exact absurd hrest (dottedParts_ne_nil text)
      | cons part parts =>
        rw [hrest] at ih
        obtain rfl := Option.some.inj ih
        by_cases hc : c = '.' <;> simp [hc]
  rw [pathNames, List.head?_map, hparts, Option.map_some, pathRoot]

/-- **A parsed term is confined to the names that its program lists.** -/
theorem Term.confined_of_parse {options : Options} {constants : Dict Value} {source : String}
    {t : Term} (hparse : Term.parse options constants source = .ok t)
    (hconstants : ∀ name v, constants.get? name = some v → v.ClosureFree) :
    t.Confined (t.code.names false) := by
  have hwords := Term.worded_of_parse hparse
  have hfits : t.Fits Value.ClosureFree :=
    fits_of_parse (fun _ => nofun) (fun _ => nofun) (fun _ => nofun) hconstants hparse
  intro s hs
  have hlisted : ∀ m, .var m ∈ s.own ∨ .name m ∈ s.own → pathRoot m ∈ t.code.names false :=
    fun m hm => mem_names_of_has (hm.imp (fun h => ⟨s, hs, h⟩) fun h => ⟨s, hs, h⟩)
  -- a name in the program is a path; in the term a single word stands for its own root
  cases s with
  | literal v => exact (hfits.within hs).1
  | var name => exact pathRoot_of_isName (hwords _ hs) ▸ hlisted name (.inl (.head _))
  | assign root path value =>
    rintro name hname
    obtain rfl := Option.some.inj ((head?_pathNames _).symm.trans hname)
    exact hlisted _ (.inr (.head _))
  | define name params body =>
    rintro _ ⟨⟩
    exact pathRoot_of_isName (hwords _ hs name (.head _)) ▸ hlisted name (.inr (.head _))
  | _ => exact nofun

/-! ## Callers that agree on the names -/

namespace Evaluation

/-- The variables of the callers agree on the names, and are under all other names those of before;
all else is the same.  All functions that can be reached are confined to the names. -/
structure AgreeOn (names : List String) (before before' : Dict Value) (s s' : Scope) : Prop where
  nextId : s.nextId = s'.nextId
  calls : s.calls = s'.calls
  locals : s.locals = s'.locals
  inside : ∀ name ∈ names, s.globals.get? name = s'.globals.get? name
  outside : ∀ name, name ∉ names → s.globals.get? name = before.get? name ∧
    s'.globals.get? name = before'.get? name
  values : ∀ name ∈ names, ∀ v ∈ s.globals.get? name, v.Confined names
  localValues : ∀ locals ∈ s.locals, Dict.All (Value.Confined names) locals

/-- The comparison of runs for two such callers. -/
def agreeing (names : List String) (before before' : Dict Value) : Comparison where
  bodies := fun c body => body = c.body
  scopes := AgreeOn names before before'
  excusesLeft := fun _ => False
  excusesRight := fun _ => False

section
variable {names : List String} {before before' : Dict Value}

namespace AgreeOn
variable {s s' : Scope} (h : AgreeOn names before before' s s')
include h

theorem get?_eq {name : String} (hname : name ∈ names) : s.get? name = s'.get? name := by
  rw [Scope.get?, Scope.get?, h.locals, h.inside name hname]

theorem confined_get? {name : String} (hname : name ∈ names) {v : Value}
    (hv : s.get? name = some v) : v.Confined names := by
  rcases Option.or_eq_some_iff.mp hv with hv | ⟨-, hv⟩
  · obtain ⟨locals, hlocals, hv⟩ := Option.bind_eq_some_iff.mp hv
    exact (h.localValues locals hlocals).get? hv
  · exact h.values name hname v hv

theorem confined_getD {name : String} (hname : name ∈ names) :
    ((s.get? name).getD .undefined).Confined names := by
  cases hv : s.get? name with
  | none => exact confined_family.undefined
  | some v => exact h.confined_get? hname hv

theorem set {name : String} (hname : name ∈ names) {v : Value} (hv : v.Confined names) :
    AgreeOn names before before' (s.set name v) (s'.set name v) := by
  cases hlocals : s.locals with
  | none =>
    -- outside of functions both callers' variables change, under a name on which they agree
    have hlocals' : s'.locals = none := h.locals ▸ hlocals
    simp only [Scope.set, hlocals, hlocals']
    refine ⟨h.nextId, h.calls, rfl, ?_, ?_, ?_, by simp⟩
    · intro other hother
      rw [Dict.get?_insert, Dict.get?_insert, h.inside other hother]
    · intro other hother
      have hne : name ≠ other := fun heq => hother (heq ▸ hname)
      rw [Dict.get?_insert_ne _ _ hne, Dict.get?_insert_ne _ _ hne]
      exact h.outside other hother
    · intro other hother w hw
      rw [Option.mem_def, Dict.get?_insert] at hw
      split at hw
      · exact Option.some.inj hw ▸ hv
      · exact h.values other hother w hw
  | some locals =>
    have hlocals' : s'.locals = some locals := h.locals ▸ hlocals
    simp only [Scope.set, hlocals, hlocals']
    refine ⟨h.nextId, h.calls, rfl, h.inside, h.outside, h.values, ?_⟩
    rintro _ ⟨⟩
    exact (h.localValues locals hlocals).insert name hv

/-- Both callers enter a function with the same local variables. -/
theorem enter {locals : Dict Value} (hlocals : Dict.All (Value.Confined names) locals) :
    AgreeOn names before before' { s with locals := some locals }
      { s' with locals := some locals } := by
  refine ⟨h.nextId, h.calls, rfl, h.inside, h.outside, h.values, ?_⟩
  rintro _ ⟨⟩
  exact hlocals

theorem leave {u u' : Scope} (hu : AgreeOn names before before' u u') :
    AgreeOn names before before' { u with locals := s.locals } { u' with locals := s'.locals } :=
  ⟨hu.nextId, hu.calls, h.locals, hu.inside, hu.outside, hu.values, h.localValues⟩

end AgreeOn

theorem relates_get : (agreeing names before before').Relates (AgreeOn names before before') get
    get := fun _ _ hs => .ok hs hs

theorem together_modify {f : Scope → Scope}
    (h : ∀ s s', AgreeOn names before before' s s' → AgreeOn names before before' (f s) (f s')) :
    Together (agreeing names before before') (modify f) fun _ => True :=
  fun s s' hs => .ok ⟨rfl, trivial⟩ (h s s' hs)

theorem together_lookup (options : Options) (functions : Registry) {name : String}
    (hname : name ∈ names) :
    Together (agreeing names before before') (lookup options functions name)
      (Value.Confined names) := by
  refine (Together.lift (Q := fun _ => True) fun _ _ => trivial).bind fun _ _ => ?_
  split
  · exact Together.pure nofun
  · split
    · exact Together.pure nofun
    · refine Comparison.Relates.bind relates_get fun s s' hs => ?_
      rw [hs.get?_eq hname]
      split
      · rename_i v hv
        exact Together.pure (hs.confined_get? hname ((hs.get?_eq hname).trans hv))
      · exact Together.fail _

theorem together_assign (options : Options) {path : String} (hroot : pathRoot path ∈ names)
    {v : Value} (hv : v.Confined names) :
    Together (agreeing names before before') (assign options path v) fun _ => True := by
  have hhead := head?_pathNames path
  refine (Together.lift (Q := fun _ => True) fun _ _ => trivial).bind fun _ _ => ?_
  split
  · exact Together.fail _
  · rename_i root hnames
    rw [hnames] at hhead
    obtain rfl := Option.some.inj hhead
    exact together_modify fun s s' hs => hs.set hroot hv
  · rename_i root rest _ hnames
    rw [hnames] at hhead
    obtain rfl := Option.some.inj hhead
    split
    · rw [inSlot_put]
      refine Comparison.Relates.bind relates_get fun s s' hs => ?_
      rw [← hs.get?_eq hroot]
      split
      · rename_i w hput
        exact fun _ _ _ => .ok ⟨rfl, trivial⟩
          (hs.set hroot (confined_put (hs.confined_getD hroot) hv hput))
      · have hslot : AgreeOn names before before' (s.slot (pathRoot path))
            (s'.slot (pathRoot path)) := by
          rw [Scope.slot, Scope.slot, ← hs.get?_eq hroot]
          exact hs.set hroot (hs.confined_getD hroot)
        exact fun _ _ _ => .error _ hslot
    · exact Together.fail _

theorem together_makeFunction {name : String} {params : List String} {body : Term}
    (hname : name ∈ names) (hbody : body.Confined names) :
    Together (agreeing names before before') (makeFunction name params body.code)
      (Value.Confined names) := by
  have hfresh : Together (agreeing names before before') freshId fun _ => True := by
    intro s s' hs
    refine .ok ⟨hs.nextId, trivial⟩ ⟨?_, hs.calls, hs.locals, hs.inside, hs.outside, hs.values,
      hs.localValues⟩
    exact congrArg (· + 1) hs.nextId
  refine (Together.lift (Q := fun _ => True) fun _ _ => trivial).bind fun _ _ => ?_
  refine hfresh.bind fun id _ => Comparison.Relates.bind relates_get fun s s' hs => ?_
  rw [← hs.locals]
  have hclosure : Value.Confined names
      (.function (.closure ⟨id, name, params, body.code, s.locals⟩)) :=
    confined_closure.mpr ⟨⟨body, rfl, hbody⟩, hs.localValues⟩
  exact (together_modify fun u u' hu => hu.set hname hclosure).bind fun _ _ =>
    Together.pure hclosure

theorem together_callHost {functions : Registry} (hanswers : functions.HandsBack)
    {f : HostFunction} {name : String} (hmem : (name, f) ∈ functions.functions)
    {arguments : List Value} (ha : ∀ v ∈ arguments, v.Confined names) :
    Together (agreeing names before before') (callHost f arguments) (Value.Confined names) := by
  refine Comparison.Relates.bind relates_get fun s s' hs => ?_
  rw [← hs.calls]
  refine (together_modify fun u u' hu => ?_).bind fun _ _ => ?_
  · refine ⟨hu.nextId, ?_, hu.locals, hu.inside, hu.outside, hu.values, hu.localValues⟩
    exact congrArg (· ++ _) hu.calls
  · split
    · rename_i v hv
      refine Together.pure fun c hc => ?_
      obtain ⟨argument, hargument, hc⟩ := hanswers _ hmem _ _ v hv c hc
      exact ha argument hargument c hc
    · exact fun u u' hu => .error _ hu

/-- The functions that can be called are confined to the names, so the names are all that a call
needs. -/
theorem together_call {functions : Registry} (hanswers : functions.HandsBack)
    {run : Program → Evaluation Value}
    (hrun : RunsTogether (agreeing names before before') run (Value.Confined names)
      (Term.Confined names)) {callee : Value} {arguments : List Value}
    (hcallee : callee.Confined names) (ha : ∀ v ∈ arguments, v.Confined names) :
    Together (agreeing names before before') (call functions run callee arguments)
      (Value.Confined names) := by
  unfold call
  split
  · exact Together.pure (confined_family.named _ _)
  · split
    · rename_i f hid
      obtain ⟨⟨name, g⟩, hfind, rfl⟩ := Option.map_eq_some_iff.mp hid
      exact together_callHost hanswers (List.mem_of_find?_eq_some hfind) ha
    · exact Together.fail _
  · rename_i c
    -- the body runs on the captured variables and the arguments, the same for both callers
    obtain ⟨⟨t, hbody, ht⟩, hcaptured⟩ := confined_closure.mp hcallee
    have hlocals := confined_family.localsOf hcallee hcaptured ha
    rw [hbody]
    exact Comparison.Relates.withLocals (hrun.code ht) (fun _ h => h) (fun _ h => h)
      (fun _ _ hs => hs.enter hlocals) fun _ _ _ _ hs hu => hs.leave hu
  · exact Together.fail _

/-- Confined terms do the same for callers that agree on the names. -/
theorem jointRegime_agreeing (options : Options) {functions : Registry}
    (hanswers : functions.HandsBack) :
    JointRegime (agreeing names before before') options functions (Value.Confined names)
      (Term.Confined names) where
  part h hp := h.child (Term.mem_children_of_running hp)
  undefined := confined_family.undefined
  bool := confined_family.bool
  array := confined_family.array
  object _ hfields := confined_object.mpr fun field hfield => (hfields field hfield).2
  literal h := Value.ClosureFree.confined h.here
  unary _ _ h := confined_family.unary h
  binary _ hx hy h := confined_family.binary hx hy h
  member _ hx h := confined_family.member hx h
  index _ hx _ h := confined_family.index hx h
  lookup h := together_lookup options functions h.here
  assign h hv := together_assign options (h.here _ (head?_pathNames _)) hv
  define h := together_makeFunction (h.here _ rfl) (h.child (.head _))
  call hrun hc ha := together_call hanswers hrun hc ha

end
end Evaluation

/-- **Only the names that an expression lists matter to it.**  Let two callers have the same values
under these names, and no function that a program defined in them, nor in the constants that the
text was read with, and let the host answer no such functions but those it is handed.  Then the
expression answers the same to both, or fails in the same way, and calls the host in the same way.
Afterwards both callers have the same values under these names again; under all other names each has
what it had. -/
theorem evaluate_symbols {e : Expression} {options : Options} {constants : Dict Value}
    {source : String} {t : Term} (hparse : Term.parse options constants source = .ok t)
    (hcode : e.program = t.code)
    (hconstants : ∀ name v, constants.get? name = some v → v.ClosureFree)
    (hanswers : e.functions.HandsBack) {context : Context} {globals : Dict Value}
    (hsame : ∀ name ∈ e.symbols false, context.globals.get? name = globals.get? name)
    (hfree : ∀ name ∈ e.symbols false, ∀ v ∈ context.globals.get? name, v.ClosureFree) :
    let after := (e.evaluate context).2
    let after' := (e.evaluate { context with globals }).2
    (e.evaluate context).1 = (e.evaluate { context with globals }).1 ∧
      after.calls = after'.calls ∧
      (∀ name ∈ e.symbols false, after.globals.get? name = after'.globals.get? name) ∧
      ∀ name, name ∉ e.symbols false → after.globals.get? name = context.globals.get? name ∧
        after'.globals.get? name = globals.get? name := by
  intro after after'
  have hconfined : t.Confined (e.symbols false) := by
    rw [Expression.symbols, hcode]
    exact Term.confined_of_parse hparse hconstants
  have hregime : Evaluation.JointRegime
      (Evaluation.agreeing (e.symbols false) context.globals globals) e.options e.functions
      (Value.Confined (e.symbols false)) (Term.Confined (e.symbols false)) :=
    Evaluation.jointRegime_agreeing e.options hanswers
  have hrun := (hregime.together_run e.options.maxDepth).code hconfined
  rw [← hcode] at hrun
  have houtcome := hrun { context with } { context with globals } ⟨rfl, rfl, rfl, hsame,
    fun _ _ => ⟨rfl, rfl⟩, fun name hname v hv => (hfree name hname v hv).confined, nofun⟩
  simp only [after, after', Expression.evaluate, Program.evaluate]
  generalize Evaluation.run e.options e.functions e.options.maxDepth e.program { context with } = x
    at houtcome
  generalize Evaluation.run e.options e.functions e.options.maxDepth e.program
    { context with globals } = y at houtcome
  cases houtcome with
  | ok hab hs =>
    obtain ⟨rfl, -⟩ := hab
    exact ⟨rfl, hs.calls, hs.inside, hs.outside⟩
  | error error hs => cases e.source <;> exact ⟨rfl, hs.calls, hs.inside, hs.outside⟩
  | left hnever => exact hnever.elim
  | right hnever => exact hnever.elim

/-- A function that is defined in the run reads `y`, and lists it; `z` keeps what it was, or stays
missing. -/
theorem evaluate_symbols_of_defined :
    ∃ (e : Expression) (context : Context) (globals : Dict Value),
      ({ functions := e.functions, constants := [] } : Compiler).compile
        "f(x) = id(x) and y; f(y)" = .ok e ∧
      e.symbols false = ["f", "x", "id", "y"] ∧
      (e.evaluate context).1 = .ok (.bool true) ∧
      (e.evaluate { context with globals }).1 = .ok (.bool true) ∧
      (e.evaluate context).2.calls = (e.evaluate { context with globals }).2.calls ∧
      (e.evaluate context).2.globals.get? "z" = some (.bool false) ∧
      (e.evaluate { context with globals }).2.globals.get? "z" = none := by
  let id : HostFunction := ⟨1, "id", fun _ arguments => .ok (arguments.headD .undefined)⟩
  let t : Term := .sequence
    (.define "f" ["x"] (.and (.call (.var "id") [.var "x"]) (.var "y")))
    [.call (.var "f") [.var "y"]]
  let e : Expression := ⟨t.code, {}, ⟨[("id", id)]⟩, some "f(x) = id(x) and y; f(y)"⟩
  let context : Context := { globals := [("y", .bool true), ("z", .bool false)], nextId := 2 }
  let globals : Dict Value := [("y", .bool true)]
  have hsymbols : e.symbols false = ["f", "x", "id", "y"] := by decide +kernel
  have hparse : Term.parse {} [] "f(x) = id(x) and y; f(y)" = .ok t := rfl
  have hanswers : e.functions.HandsBack := by
    intro entry hentry calls arguments v hv c hc
    obtain rfl := List.mem_singleton.mp hentry
    obtain rfl := Except.ok.inj hv
    cases arguments with
    | nil => cases hc
    | cons argument rest => exact ⟨argument, .head _, hc⟩
  have hsame : ∀ name ∈ e.symbols false, context.globals.get? name = globals.get? name := by
    rw [hsymbols]
    simp [context, globals, Dict.get?]
  have hbool : ∀ b, (Value.bool b).ClosureFree := fun b c h => by cases h
  have hfree : Dict.All Value.ClosureFree context.globals :=
    List.forall_mem_cons.mpr ⟨hbool _, List.forall_mem_singleton.mpr (hbool _)⟩
  obtain ⟨hresult, hcalls, -, hothers⟩ :=
    evaluate_symbols (e := e) hparse rfl (by simp) hanswers hsame fun _ _ _ hv => hfree.get? hv
  have hvalue : (e.evaluate context).1 = .ok (.bool true) := rfl
  have hz := hothers "z" (by rw [hsymbols]; decide)
  exact ⟨e, context, globals, rfl, hsymbols, hvalue, hresult ▸ hvalue, hcalls, hz⟩

end Formula
