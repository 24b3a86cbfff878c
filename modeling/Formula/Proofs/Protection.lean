import Formula.Proofs.Provenance
import Formula.Proofs.Regimes

/-! # Protected names

Three names are protected: no object gets a field of such a name, no variable of the caller is
stored under one, and nothing is ever read under one (`evaluate_guarded`).  Each way into an object
has a check of its own: keys that are written are checked while reading, paths of assignments and
names of functions when they are stored to, and all else makes objects out of objects.

The invariant speaks of values (`Clean`) and of the expressions that made them (`Guarded`) together,
because a function carries a program along and a program literals: what a function will return is
clean because its body comes from an expression that has no other literals.
-/
namespace Formula

mutual

/-- The expression was compiled with clean constants, or it was simplified with clean values or made
by substitution, out of guarded expressions. -/
inductive Guarded : Expression → Prop
  | compile {c : Compiler} {source : String} {e : Expression}
      (constants : ∀ entry ∈ c.constants, Clean entry.2) (h : c.compile source = .ok e) : Guarded e
  | simplify {e : Expression} {known : Dict Value} (h : Guarded e)
      (values : ∀ entry ∈ known, Clean entry.2) : Guarded (e.simplify known)
  | substitute {e replacement : Expression} (name : String) (h : Guarded e)
      (hr : Guarded replacement) : Guarded (e.substitute name replacement)

/-- No object in the value has a protected key, and the functions in it are operators, functions of
the host, and functions that guarded expressions define. -/
inductive Clean : Value → Prop
  | undefined : Clean .undefined
  | null : Clean .null
  | bool (b : Bool) : Clean (.bool b)
  | number (x : Float) : Clean (.number x)
  | string (s : String) : Clean (.string s)
  | array {items : List Value} (h : ∀ v ∈ items, Clean v) : Clean (.array items)
  | object {fields : List (String × Value)} (keys : ∀ field ∈ fields, isProtected field.1 = false)
      (h : ∀ field ∈ fields, Clean field.2) : Clean (.object fields)
  | named (op : NamedOp) : Clean (.function (.named op))
  | host (id : Nat) (name : String) : Clean (.function (.host id name))
  | closure {e : Expression} {t body : Term} {c : Closure} (h : Guarded e)
      (program : e.program = t.code) (defined : Term.Within (.define c.name c.params body) t)
      (hbody : c.body = body.code)
      (captured : ∀ locals ∈ c.captured, ∀ entry ∈ locals, Clean entry.2) :
      Clean (.function (.closure c))

end

theorem clean_family : Family Clean where
  undefined := .undefined
  bool := .bool
  number := .number
  string := .string
  array := .array
  items h := by
    cases h with
    | array h => exact h
  fields h := by
    cases h with
    | object _ h => exact h

theorem Clean.keys {fields : Dict Value} (h : Clean (.object fields)) :
    ∀ field ∈ fields, isProtected field.1 = false := by
  cases h with
  | object keys _ => exact keys

theorem Clean.captured {c : Closure} (h : Clean (.function (.closure c))) :
    ∀ locals ∈ c.captured, Dict.All Clean locals := by
  cases h with
  | closure _ _ _ _ h => exact h

/-- An object stays clean when a field with an unprotected key gets a clean value. -/
theorem Clean.insert {fields : Dict Value} (hkeys : ∀ field ∈ fields, isProtected field.1 = false)
    (hfields : Dict.All Clean fields) {name : String} (hname : isProtected name = false) {v : Value}
    (hv : Clean v) : Clean (.object (fields.insert name v)) := by
  refine .object (fun field hmem => ?_) (hfields.insert name hv)
  rcases Dict.mem_insert hmem with rfl | hmem
  · exact hname
  · exact hkeys field hmem

/-- The code of a guarded expression is that of a term without protected keys and with clean
literals. -/
theorem Guarded.exists_term {e : Expression} (h : Guarded e) :
    ∃ t : Term, e.program = t.code ∧ t.Fits Clean := by
  refine @Guarded.rec (fun e _ => ∃ t : Term, e.program = t.code ∧ t.Fits Clean)
    (fun _ _ => True) ?compile ?simplify ?substitute ?_ ?_ ?_ ?_ ?_ ?_ ?_ ?_ ?_ ?_ e h
  case compile =>
    intro c source e constants h _
    obtain ⟨t, ht, hcode⟩ := exists_of_compile h
    exact ⟨t, hcode, fits_of_parse .number .string .bool
      (fun n v hv => Dict.All.get? constants hv) ht⟩
  case simplify =>
    intro e known h values ih _
    obtain ⟨t, hcode, hfits⟩ := ih
    refine ⟨t.fold e.options known, ?_, clean_family.fits_fold e.options values hfits⟩
    rw [Expression.program_simplify, hcode, fold_code]
  case substitute =>
    intro e replacement name h hr ih ihr
    obtain ⟨t, hcode, hfits⟩ := ih
    obtain ⟨r, hrcode, hrfits⟩ := ihr
    refine ⟨Term.substitute name r t, ?_, ?_⟩
    · rw [Expression.program_substitute, hcode, hrcode, substitute_code]
    · rw [Term.Fits, ← substitute_code]
      exact Program.fits_substitute hrfits t.code hfits
  all_goals intros; trivial

/-- The term stands in the program of a guarded expression. -/
def Term.Guarded (t : Term) : Prop :=
  ∃ e top, Formula.Guarded e ∧ e.program = top.code ∧ Term.Within t top

namespace Term.Guarded
variable {t : Term}

theorem child {part : Term} (h : t.Guarded) (hc : part ∈ t.children) : part.Guarded := by
  obtain ⟨e, top, he, hp, ht⟩ := h
  exact ⟨e, top, he, hp, Term.Within.trans (.deeper hc (.self part)) ht⟩

theorem fits (h : t.Guarded) : t.Fits Clean := by
  obtain ⟨e, top, he, hp, ht⟩ := h
  obtain ⟨other, hcode, hfits⟩ := he.exists_term
  refine Term.Fits.within ht ?_
  rw [Term.Fits, ← hp, hcode]
  exact hfits

/-- The keys that an object is written with are not protected. -/
theorem keys {entries : List (String × Term)} (h : (Term.object entries).Guarded) :
    ∀ entry ∈ entries, isProtected entry.1 = false := by
  have hfits := h.fits
  simp only [Term.Fits, Term.code, List.cons_append, fits_cons, fits_append, fits_fieldsCode]
    at hfits
  exact fun entry hmem => (hfits.2.1 entry hmem).1

end Term.Guarded

/-! ## What is checked -/

theorem isProtected_of_checkName {name : String} {u : Unit} (h : checkName name = .ok u) :
    isProtected name = false := by
  unfold checkName at h
  split at h
  · cases h
  · rename_i hname
    simpa using hname

theorem isProtected_of_forM {names : List String} {u : Unit}
    (h : names.forM checkName = .ok u) : ∀ name ∈ names, isProtected name = false := by
  induction names with
  | nil => simp
  | cons name names ih =>
    change (checkName name >>= fun _ => names.forM checkName) = _ at h
    cases hn : checkName name with
    | error f =>
      rw [hn] at h
      cases h
    | ok u =>
      rw [hn] at h
      exact List.forall_mem_cons.mpr ⟨isProtected_of_checkName hn, ih h⟩

/-- No field is read under a protected name. -/
theorem member_ne_ok {name : String} (h : isProtected name = true) (x v : Value) :
    x.member name ≠ .ok v := by
  simp [Value.member, checkName, h, bind, Except.bind]

/-- No entry is read under a protected name, nor an entry of an object under a key with the text of
one. -/
theorem index_ne_ok {x key : Value}
    (h : (∃ name, key = .string name ∧ isProtected name = true) ∨
      (∃ fields, x = .object fields) ∧ isProtected key.text = true) (v : Value) :
    x.index key ≠ .ok v := by
  rcases h with ⟨name, rfl, hname⟩ | ⟨⟨fields, rfl⟩, htext⟩
  · simp [Value.index, checkName, hname, bind, Except.bind]
  · have hentry : (Value.object fields).entry key ≠ .ok v := by
      simp [Value.entry, checkName, htext, bind, Except.bind]
    cases key with
    | string name => exact fun h => hentry (eq_ok_of_checkName_bind h)
    | _ => exact hentry

/-- Storing clean values under unprotected names leaves values clean. -/
theorem clean_put {target v w : Value} {path : List String} (ht : Clean target) (hv : Clean v)
    (hpath : ∀ name ∈ path, isProtected name = false) (h : target.put path v = .ok () w) :
    Clean w := by
  refine clean_family.put (.object (by simp) (by simp)) (fun hfields hname hinner => ?_) ht hv hpath
    h
  exact .insert hfields.keys (clean_family.fields hfields) hname hinner

/-! ## What scopes keep -/

/-- No variable of the caller has a protected name, and all their values are clean. -/
structure Context.Guarded (c : Context) : Prop where
  names : ∀ entry ∈ c.globals, isProtected entry.1 = false
  globals : Dict.All Clean c.globals

/-- All values that running code can reach are clean, and so are the arguments of the calls of the
host after those before. -/
structure Scope.Guarded (before : List HostCall) (s : Scope) : Prop where
  context : s.toContext.Guarded
  calls : ∃ calls, s.calls = before ++ calls ∧ ∀ call ∈ calls, ∀ v ∈ call.arguments, Clean v
  locals : ∀ locals ∈ s.locals, Dict.All Clean locals

namespace Scope.Guarded
variable {before : List HostCall} {s : Scope} (h : s.Guarded before)
include h

theorem get? {name : String} {v : Value} (hv : s.get? name = some v) : Clean v := by
  rcases Option.or_eq_some_iff.mp hv with hv | ⟨-, hv⟩
  · obtain ⟨locals, hl, hv⟩ := Option.bind_eq_some_iff.mp hv
    exact (h.locals locals hl).get? hv
  · exact h.context.globals.get? hv

theorem getD (name : String) : Clean ((s.get? name).getD .undefined) := by
  cases hv : s.get? name with
  | none => exact .undefined
  | some v => exact h.get? hv

theorem set {name : String} (hname : isProtected name = false) {v : Value} (hv : Clean v) :
    (s.set name v).Guarded before := by
  unfold Scope.set
  split
  · rename_i locals hl
    refine ⟨h.context, h.calls, ?_⟩
    rintro _ ⟨⟩
    exact (h.locals locals hl).insert name hv
  · refine ⟨⟨fun entry hmem => ?_, h.context.globals.insert name hv⟩, h.calls, h.locals⟩
    rcases Dict.mem_insert hmem with rfl | hmem
    · exact hname
    · exact h.context.names entry hmem

end Scope.Guarded

/-- After the calls before, the host answers clean values as long as it is handed clean values. -/
def Registry.Guarded (functions : Registry) (before : List HostCall) : Prop :=
  ∀ entry ∈ functions.functions, ∀ calls arguments,
    (∀ call ∈ calls, ∀ v ∈ call.arguments, Clean v) → (∀ v ∈ arguments, Clean v) →
    ∀ v, entry.2.answer (before ++ calls) arguments = .ok v → Clean v

namespace Evaluation

section
variable {before : List HostCall}

theorem keeps_lookup_clean (options : Options) (functions : Registry) (name : String) :
    Keeps (Scope.Guarded before) (lookup options functions name) Clean := by
  refine (Maintains.lift _).bind fun _ => ?_
  split
  · exact Keeps.pure (.host _ _)
  · split
    · exact Keeps.pure (.named _)
    · refine Keeps.get.bind fun s hs => ?_
      split
      · rename_i v hv
        exact Keeps.pure (hs.get? hv)
      · exact Keeps.fail _

theorem keeps_assign_clean (options : Options) (path : String) {v : Value} (hv : Clean v) :
    Maintains (Scope.Guarded before) (assign options path v) := by
  refine Keeps.bind (Keeps.lift fun u => isProtected_of_forM) fun _ hnames => ?_
  split
  · exact Keeps.fail _
  · rename_i name hname
    exact Keeps.modify fun s hs => hs.set (hnames name (by simp [hname])) hv
  · rename_i root rest _ hpath
    rw [hpath] at hnames
    obtain ⟨hroot, hrest⟩ := List.forall_mem_cons.mp hnames
    split
    · rw [inSlot_put]
      refine Keeps.get.bind fun s hs => ?_
      split
      · rename_i w hput
        exact Keeps.set (hs.set hroot (clean_put (hs.getD root) hv hrest hput))
      · exact (Keeps.set (hs.set hroot (hs.getD root))).bind fun _ => Keeps.fail _
    · exact Keeps.fail _

theorem keeps_makeFunction_clean {name : String} {params : List String} {body : Term}
    (h : (Term.define name params body).Guarded) :
    Keeps (Scope.Guarded before) (makeFunction name params body.code) Clean := by
  obtain ⟨e, top, he, hp, ht⟩ := h
  have hfresh : Maintains (Scope.Guarded before) freshId := fun s hs =>
    ⟨trivial, ⟨hs.context.names, hs.context.globals⟩, hs.calls, hs.locals⟩
  refine Keeps.bind (Keeps.lift fun u => isProtected_of_checkName) fun _ hname => ?_
  refine hfresh.bind fun id => Keeps.get.bind fun s hs => ?_
  have hclosure : Clean (.function (.closure ⟨id, name, params, body.code, s.locals⟩)) :=
    .closure he hp ht rfl hs.locals
  exact (Keeps.modify fun s hs => hs.set hname hclosure).bind fun _ => Keeps.pure hclosure

variable {options : Options} {functions : Registry} {run : Program → Evaluation Value}

theorem keeps_callHost_clean (hf : functions.Guarded before) {f : HostFunction} {name : String}
    (hmem : (name, f) ∈ functions.functions) {arguments : List Value}
    (ha : ∀ v ∈ arguments, Clean v) :
    Keeps (Scope.Guarded before) (callHost f arguments) Clean := by
  refine Keeps.get.bind fun s hs => Keeps.bind (Keeps.modify fun s hs => ?_) fun _ _ => ?_
  · obtain ⟨calls, hcalls, hclean⟩ := hs.calls
    refine ⟨⟨hs.context.names, hs.context.globals⟩, ⟨calls ++ [⟨f.id, f.name, arguments⟩],
      by simp [hcalls], fun call hcall => ?_⟩, hs.locals⟩
    rcases List.mem_append.mp hcall with hcall | hcall
    · exact hclean call hcall
    · obtain rfl := List.mem_singleton.mp hcall
      exact ha
  · obtain ⟨calls, hcalls, hclean⟩ := hs.calls
    split
    · rename_i v hv
      rw [hcalls] at hv
      exact Keeps.pure (hf _ hmem calls arguments hclean ha v hv)
    · exact Keeps.throw _

theorem keeps_call_clean (hf : functions.Guarded before)
    (hrun : RunsKept run (Scope.Guarded before) Clean Term.Guarded) {callee : Value}
    {arguments : List Value} (hc : Clean callee) (ha : ∀ v ∈ arguments, Clean v) :
    Keeps (Scope.Guarded before) (call functions run callee arguments) Clean := by
  unfold call
  split
  · exact Keeps.pure (clean_family.named _ _)
  · split
    · rename_i f hid
      obtain ⟨⟨name, g⟩, hfind, rfl⟩ := Option.map_eq_some_iff.mp hid
      exact keeps_callHost_clean hf (List.mem_of_find?_eq_some hfind) ha
    · exact Keeps.fail _
  · rename_i c
    have hlocals := clean_family.localsOf hc hc.captured ha
    cases hc with
    | @closure e t body _ he hp hdef hbody _ =>
      have hguarded : body.Guarded :=
        Term.Guarded.child ⟨e, t, he, hp, hdef⟩ (by simp [Term.children])
      intro s hs
      have h := hrun.code hguarded { s with locals := some (localsOf c arguments) }
        ⟨hs.context, hs.calls, by rintro _ ⟨⟩; exact hlocals⟩
      rw [← hbody] at h
      unfold withLocals
      cases hr : run c.body { s with locals := some (localsOf c arguments) } with
      | ok v s' =>
        rw [hr] at h
        exact ⟨h.1, h.2.context, h.2.calls, hs.locals⟩
      | error e s' =>
        rw [hr] at h
        exact ⟨h.context, h.calls, hs.locals⟩
  · exact Keeps.fail _

/-- Terms of guarded expressions compute clean values, and leave variables clean. -/
theorem regime_clean (options : Options) (hf : functions.Guarded before) :
    Regime options functions (Scope.Guarded before) Clean Term.Guarded where
  part h hp := h.child (Term.mem_children_of_running hp)
  undefined := .undefined
  bool := .bool
  array := .array
  object h hfields := by
    refine .object (fun field hmem => ?_) fun field hmem => (hfields field hmem).2
    obtain ⟨entry, hentry, hkey⟩ := List.mem_map.mp (hfields field hmem).1
    exact hkey ▸ h.keys entry hentry
  literal h := h.fits.1
  unary _ _ h := clean_family.unary h
  binary _ hx hy h := clean_family.binary hx hy h
  member _ hx h := clean_family.member hx h
  index _ hx _ h := clean_family.index hx h
  lookup _ := keeps_lookup_clean options functions _
  assign _ hv := keeps_assign_clean options _ hv
  define h := keeps_makeFunction_clean h
  call hrun hc ha := keeps_call_clean hf hrun hc ha

end

/-! ## What is refused -/

/-- The computation does not succeed. -/
def Fails {α : Type} (m : Evaluation α) (s : Scope) : Prop := ∀ a s', m s ≠ .ok a s'

theorem Fails.bind {α β : Type} {m : Evaluation α} {f : α → Evaluation β} {s : Scope}
    (h : ∀ a s', m s = .ok a s' → Fails (f a) s') : Fails (m >>= f) s := by
  intro b s'' hb
  change EStateM.bind m f s = _ at hb
  unfold EStateM.bind at hb
  cases hr : m s with
  | ok a s' =>
    rw [hr] at hb
    exact h a s' hr b s'' hb
  | error e s' =>
    rw [hr] at hb
    cases hb

theorem Fails.lift {α : Type} {result : Except Fault α} (h : ∀ a, result ≠ .ok a) (s : Scope) :
    Fails (lift result) s := by
  cases result with
  | ok a => exact absurd rfl (h a)
  | error fault => exact fun _ _ h => nomatch h

theorem Fails.fail {α : Type} (fault : Fault) (s : Scope) :
    Fails (fail fault : Evaluation α) s := fun _ _ h => nomatch h

theorem fails_assign (options : Options) {path : String}
    (h : ∃ name ∈ pathNames path, isProtected name = true) (v : Value) (s : Scope) :
    Fails (assign options path v) s := by
  obtain ⟨name, hmem, hname⟩ := h
  have hcheck : ∀ u, (pathNames path).forM checkName ≠ .ok u := by
    intro u hu
    rw [isProtected_of_forM hu name hmem] at hname
    cases hname
  exact Fails.bind fun u s' hu => absurd hu (Fails.lift hcheck s u s')

/-- No instruction reads or stores under a protected name, whatever is on the stack and whatever the
variables are. -/
structure Refuses (options : Options) (functions : Registry) (run : Program → Evaluation Value) :
    Prop where
  member : ∀ name stack s, isProtected name = true →
    Fails (step options functions run (.member name) stack) s
  /-- The target is resolved first, and then the key. -/
  index : ∀ left right stack s s₁ s₂ target key, resolve run left s = .ok target s₁ →
    resolve run right s₁ = .ok key s₂ →
    ((∃ name, key = .string name ∧ isProtected name = true) ∨
      (∃ fields, target = .object fields) ∧ isProtected key.text = true) →
    Fails (step options functions run .index (right :: left :: stack)) s
  /-- The names of a path are its parts between dots. -/
  assign : ∀ path right stack s, (∃ name ∈ pathNames path, isProtected name = true) →
    Fails (step options functions run .assign (right :: .name path :: stack)) s

theorem refuses (options : Options) (functions : Registry) (run : Program → Evaluation Value) :
    Refuses options functions run where
  member name stack s hname := by
    unfold step
    dsimp only
    split
    · exact Fails.bind fun _ _ _ => Fails.bind fun x _ _ => Fails.bind fun v s' hv =>
        absurd hv (Fails.lift (member_ne_ok hname x) _ v s')
    · exact Fails.fail _ s
  index left right stack s s₁ s₂ target key hleft hright hprotected := by
    unfold step
    dsimp only [pop]
    simp only [pure_bind]
    split
    · refine Fails.bind fun x s' hx => Fails.bind fun y s'' hy => Fails.bind fun v s₃ hv => ?_
      rw [hleft] at hx
      cases hx
      rw [hright] at hy
      cases hy
      exact absurd hv (Fails.lift (index_ne_ok hprotected) _ v s₃)
    · exact Fails.fail _ s
  assign path right stack s hpath := by
    unfold step
    simp only [pop, pure_bind]
    exact Fails.bind fun v s' _ => Fails.bind fun u s'' hassign =>
      absurd hassign (fails_assign options hpath v s' u s'')

end Evaluation

/-- **Protected names never get in.**  Let no object in the variables, the constants, the known
values and the answers of the host have a protected key, no variable have a protected name, and all
functions in them come from such expressions.  Then the same holds of the variables after every
evaluation, successful or failed, and of its result.  No access to a member or an entry under a
protected name succeeds, nor one to an entry of an object under a key with the text of one, nor an
assignment to a path with one. -/
theorem evaluate_guarded {e : Expression} (he : Guarded e) {context : Context}
    (hf : e.functions.Guarded context.calls) (hcontext : context.Guarded) :
    (∀ v, (e.evaluate context).1 = .ok v → Clean v) ∧ (e.evaluate context).2.Guarded ∧
      ∀ run, Evaluation.Refuses e.options e.functions run := by
  obtain ⟨t, hcode, -⟩ := he.exists_term
  have hrun := ((Evaluation.regime_clean e.options hf).keeps_run e.options.maxDepth).code
    ⟨e, t, he, hcode, .self t⟩
  rw [← hcode] at hrun
  have hstart : Scope.Guarded context.calls { context with } :=
    ⟨hcontext, ⟨[], by simp, by simp⟩, by rintro _ ⟨⟩⟩
  obtain ⟨hresult, s, hs, hafter⟩ := Expression.evaluate_of_keeps hrun hstart
  exact ⟨hresult, hafter ▸ hs.context, fun run => Evaluation.refuses e.options e.functions run⟩

/-- `o.a = {b: id(x)}; o` with `x` known and the host lending `id`. -/
theorem evaluate_guarded_path :
    ∃ (e : Expression) (context : Context), Guarded e ∧ e.functions.Guarded context.calls ∧
      context.Guarded ∧
      e.program = [.sub [.name "o.a", .sub [.objectStart, .property "b", .var "id",
        .literal (.bool true), .call 1, .objectEnd], .assign, .endStatement, .var "o"]] ∧
      (e.evaluate context).1 = .ok (.object [("a", .object [("b", .bool true)])]) ∧
      Clean (.object [("a", .object [("b", .bool true)])]) ∧ (e.evaluate context).2.Guarded ∧
      ∀ run, Evaluation.Refuses e.options e.functions run := by
  let id : HostFunction := ⟨1, "id", fun _ arguments => .ok (arguments.headD .undefined)⟩
  let c : Compiler := { functions := ⟨[("id", id)]⟩, constants := [] }
  let e : Expression := ⟨[.sub [.name "o.a", .sub [.objectStart, .property "b", .var "id", .var "x",
    .call 1, .objectEnd], .assign, .endStatement, .var "o"]], c.options, c.functions,
    some "o.a = {b: id(x)}; o"⟩
  have he : c.compile "o.a = {b: id(x)}; o" = .ok e := rfl
  have hguarded : Guarded (e.simplify [("x", .bool true)]) := by
    refine .simplify (.compile (fun _ h => absurd h List.not_mem_nil) he) fun entry hentry => ?_
    obtain rfl := List.mem_singleton.mp hentry
    exact .bool true
  have hfunctions : (e.simplify [("x", .bool true)]).functions.Guarded [] := by
    intro entry hentry calls arguments _ ha v hv
    obtain rfl := List.mem_singleton.mp hentry
    obtain rfl := Except.ok.inj hv
    cases arguments with
    | nil => exact .undefined
    | cons v rest => exact ha v (.head _)
  have hcontext : ({} : Context).Guarded :=
    ⟨fun _ h => absurd h List.not_mem_nil, fun _ h => absurd h List.not_mem_nil⟩
  obtain ⟨hresult, hafter, hrefuses⟩ := evaluate_guarded hguarded hfunctions hcontext
  have hvalue : ((e.simplify [("x", .bool true)]).evaluate {}).1
      = .ok (.object [("a", .object [("b", .bool true)])]) := rfl
  refine ⟨e.simplify [("x", .bool true)], {}, hguarded, hfunctions, hcontext, ?_, hvalue,
    hresult _ hvalue, hafter, hrefuses⟩
  rw [Expression.program_simplify]
  cbv

end Formula
