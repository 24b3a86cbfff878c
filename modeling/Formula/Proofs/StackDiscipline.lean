import Formula.Proofs.Provenance
import Formula.Proofs.Stack

/-! # The discipline of the stack

Some errors tell that a program is malformed: an instruction found too few operands, or operands of
the wrong sort, or none to store to, or it names an operator that does not exist.  No expression
that the library builds ever meets one of them, whatever it calls and however deep it nests
(`evaluate_not_structural`).

Code of terms leaves one operand for each term (`execute_code`), so what is left to show is that no
operation fails in such a way on operands of the right sort, and that nothing but code of terms is
ever run: all programs that wait and all functions that are called stem from built expressions.
-/
namespace Formula

/-! ## Errors of malformed programs -/

/-- The program is malformed. -/
def EvaluationFault.IsStructural : EvaluationFault → Prop
  | .underflow | .parity | .noTarget => True
  | .unknownUnary _ | .unknownBinary _ | .unknownTernary _ => True
  | _ => False

/-- The error reads as one of a malformed program. -/
def Error.IsStructural (e : Error) : Prop :=
  e.kind = .evaluation ∧ ∃ f : EvaluationFault, f.IsStructural ∧ e.message = f.message

/-- The fault is one of those that well-formed programs meet. -/
def Fault.IsPlain : Fault → Prop
  | .evaluation f =>
    match f with
    | .undefinedVariable _ | .tooDeep _ | .noProperties _ _ | .noEntries _ _ | .fractionalIndex _
    | .cannotSetProperty _ _ => True
    | _ => False
  | _ => True

/-- The first letters of a wording, which tell the two sorts of faults apart. -/
def firstLetters (wording : String) : List Char := wording.toList.take 4

theorem firstLetters_of_structural {f : EvaluationFault} (h : f.IsStructural) :
    firstLetters f.message = ['i', 'n', 'v', 'a'] ∨ firstLetters f.message = ['e', 'x', 'p', 'e']
      ∨ firstLetters f.message = ['u', 'n', 'k', 'n'] := by
  cases f with
  | underflow =>
    left
    change firstLetters "invalid expression: stack underflow" = _
    simp [firstLetters]
  | parity =>
    left
    change firstLetters "invalid expression: stack parity" = _
    simp [firstLetters]
  | noTarget =>
    right; left
    change firstLetters "expected variable for assignment" = _
    simp [firstLetters]
  | unknownUnary spelling =>
    right; right
    change firstLetters ("unknown unary operator '" ++ spelling ++ "'") = _
    simp [firstLetters, String.toList_append]
  | unknownBinary spelling =>
    right; right
    change firstLetters ("unknown binary operator '" ++ spelling ++ "'") = _
    simp [firstLetters, String.toList_append]
  | unknownTernary spelling =>
    right; right
    change firstLetters ("unknown ternary operator '" ++ spelling ++ "'") = _
    simp [firstLetters, String.toList_append]
  | _ => exact h.elim

theorem firstLetters_of_plain {f : EvaluationFault} (h : (Fault.evaluation f).IsPlain) :
    firstLetters f.message = ['u', 'n', 'd', 'e'] ∨ firstLetters f.message = ['e', 'x', 'p', 'r']
      ∨ firstLetters f.message = ['c', 'a', 'n', 'n']
      ∨ firstLetters f.message = ['a', 'r', 'r', 'a'] := by
  cases f with
  | undefinedVariable name =>
    left
    change firstLetters ("undefined variable: " ++ name) = _
    simp [firstLetters, String.toList_append]
  | tooDeep limit =>
    right; left
    change firstLetters ("expression nesting exceeds maximum depth of " ++ toString limit) = _
    simp [firstLetters, String.toList_append]
  | noProperties name typeName =>
    right; right; left
    change firstLetters ("cannot read property '" ++ name ++ "' of " ++ typeName) = _
    simp [firstLetters, String.toList_append]
  | noEntries key typeName =>
    right; right; left
    change firstLetters ("cannot index " ++ typeName ++ " with '" ++ key ++ "'") = _
    simp [firstLetters, String.toList_append]
  | fractionalIndex index =>
    right; right; right
    change firstLetters ("array index must be an integer, got " ++ Number.messageText index) = _
    simp [firstLetters, String.toList_append]
  | cannotSetProperty name typeName =>
    right; right; left
    change firstLetters ("cannot set property '" ++ name ++ "' on " ++ typeName) = _
    simp [firstLetters, String.toList_append]
  | _ => exact h.elim

theorem not_structural_of_plain {f : Fault} (h : f.IsPlain) :
    ¬ (Error.ofFault f).IsStructural := by
  rintro ⟨hkind, g, hg, hmessage⟩
  cases f with
  | evaluation f =>
    have hstructural := firstLetters_of_structural hg
    have hplain := firstLetters_of_plain h
    change f.message = g.message at hmessage
    rw [hmessage] at hplain
    rcases hstructural with hs | hs | hs <;> simp [hs] at hplain
  | _ => cases hkind

/-! ## What scopes keep and computations ensure -/

/-- The variables of the caller stem from built expressions, and so do the arguments of all calls
of the host so far. -/
structure Context.AllStem (c : Context) : Prop where
  globals : Formula.AllStem c.globals
  calls : ∀ call ∈ c.calls, ∀ v ∈ call.arguments, Stems v

/-- All values that running code can reach stem from built expressions. -/
structure Scope.AllStem (s : Scope) : Prop where
  context : s.toContext.AllStem
  locals : ∀ locals ∈ s.locals, Formula.AllStem locals

theorem Scope.AllStem.get? {s : Scope} (h : s.AllStem) {name : String} {v : Value}
    (hv : s.get? name = some v) : Stems v := by
  rcases Option.or_eq_some_iff.mp hv with hv | ⟨-, hv⟩
  · obtain ⟨locals, hl, hv⟩ := Option.bind_eq_some_iff.mp hv
    exact Dict.All.get? (h.locals locals hl) hv
  · exact Dict.All.get? h.context.globals hv

theorem Scope.AllStem.getD {s : Scope} (h : s.AllStem) (name : String) :
    Stems ((s.get? name).getD .undefined) := by
  cases hv : s.get? name with
  | none => exact .undefined
  | some v => exact h.get? hv

theorem Scope.AllStem.set {s : Scope} (h : s.AllStem) (name : String) {v : Value} (hv : Stems v) :
    (s.set name v).AllStem := by
  unfold Scope.set
  split
  · rename_i locals hl
    refine ⟨h.context, ?_⟩
    rintro _ ⟨⟩
    exact Dict.All.insert (h.locals locals hl) name hv
  · rename_i hl
    refine ⟨⟨Dict.All.insert h.context.globals name hv, h.context.calls⟩, ?_⟩
    intro locals hlocals
    exact h.locals locals hlocals

/-- The host hands out values that stem from built expressions as long as it is handed such values,
and raises no error that reads as one of a malformed program. -/
def Registry.Sound (functions : Registry) : Prop :=
  ∀ entry ∈ functions.functions, ∀ calls arguments,
    (∀ call ∈ calls, ∀ v ∈ call.arguments, Stems v) → (∀ v ∈ arguments, Stems v) →
    match entry.2.answer calls arguments with
    | .ok v => Stems v
    | .error e => ¬ e.IsStructural

namespace Evaluation

/-- On variables that stem from built expressions the computation answers what satisfies `Q`, or
fails with no error of a malformed program; either way the variables still stem from them. -/
def Ensures {α : Type} (m : Evaluation α) (Q : α → Prop) : Prop :=
  ∀ s : Scope, s.AllStem → match m s with
    | .ok a s' => Q a ∧ s'.AllStem
    | .error e s' => ¬ e.IsStructural ∧ s'.AllStem

section
variable {α β : Type} {P Q : α → Prop} {R : β → Prop}

theorem Ensures.pure {a : α} (h : Q a) : Ensures (pure a) Q := fun _ hs => ⟨h, hs⟩

theorem Ensures.fail {fault : Fault} (h : fault.IsPlain) : Ensures (fail fault) Q :=
  fun _ hs => ⟨not_structural_of_plain h, hs⟩

theorem Ensures.lift {result : Except Fault α} (hok : ∀ a, result = .ok a → Q a)
    (herror : ∀ fault, result = .error fault → fault.IsPlain) : Ensures (lift result) Q := by
  cases result with
  | ok a => exact Ensures.pure (hok a rfl)
  | error fault => exact Ensures.fail (herror fault rfl)

theorem Ensures.bind {m : Evaluation α} {f : α → Evaluation β} (hm : Ensures m P)
    (hf : ∀ a, P a → Ensures (f a) R) : Ensures (m >>= f) R := by
  intro s hs
  have h := hm s hs
  change match EStateM.bind m f s with | .ok a s' => _ | .error e s' => _
  unfold EStateM.bind
  cases hr : m s with
  | ok a s' =>
    rw [hr] at h
    exact hf a h.1 s' h.2
  | error e s' =>
    rw [hr] at h
    exact h

theorem Ensures.map {m : Evaluation α} {f : α → β} (hm : Ensures m P)
    (hf : ∀ a, P a → R (f a)) : Ensures (f <$> m) R := by
  rw [map_eq_pure_bind]
  exact hm.bind fun a ha => Ensures.pure (hf a ha)

theorem Ensures.get : Ensures get Scope.AllStem := fun _ hs => ⟨hs, hs⟩

theorem Ensures.set {s : Scope} (h : s.AllStem) : Ensures (set s) fun _ => True :=
  fun _ _ => ⟨trivial, h⟩

theorem Ensures.modify {f : Scope → Scope} (h : ∀ s, s.AllStem → (f s).AllStem) :
    Ensures (modify f) fun _ => True := fun s hs => ⟨trivial, h s hs⟩

theorem Ensures.freshId : Ensures freshId fun _ => True :=
  fun _ hs => ⟨trivial, ⟨hs.context.globals, hs.context.calls⟩, hs.locals⟩

theorem Ensures.mapM {f : α → Evaluation β} {xs : List α}
    (h : ∀ x ∈ xs, Ensures (f x) R) : Ensures (xs.mapM f) fun ys => ∀ y ∈ ys, R y := by
  induction xs with
  | nil => exact Ensures.pure (by simp)
  | cons x xs ih =>
    obtain ⟨hx, hxs⟩ := List.forall_mem_cons.mp h
    rw [List.mapM_cons]
    exact hx.bind fun y hy => (ih hxs).bind fun ys hys =>
      Ensures.pure (List.forall_mem_cons.mpr ⟨hy, hys⟩)

end

/-! ## Variables -/

theorem plain_of_checkName {name : String} {fault : Fault} (h : checkName name = .error fault) :
    fault.IsPlain := by
  unfold checkName at h
  split at h
  · obtain rfl := Except.error.inj h
    trivial
  · cases h

theorem ensures_lookup (options : Options) (functions : Registry) (name : String) :
    Ensures (lookup options functions name) Stems := by
  refine (Ensures.lift (Q := fun _ => True) (fun _ _ => trivial) fun _ => plain_of_checkName).bind
    fun _ _ => ?_
  split
  · exact Ensures.pure (.host _ _)
  · split
    · exact Ensures.pure (.named _)
    · refine Ensures.get.bind fun s hs => ?_
      split
      · rename_i v hv
        exact Ensures.pure (hs.get? hv)
      · exact Ensures.fail trivial

/-- A store into a value fails only where something takes no fields. -/
theorem plain_of_put {target v w : Value} {path : List String} {fault : Fault}
    (h : target.put path v = .error fault w) : fault.IsPlain := by
  induction path generalizing target w with
  | nil => cases h
  | cons name rest ih =>
    rcases Value.put_cons_eq_error_iff.mp h with ⟨-, rfl, -⟩ | ⟨fields, inner, -, hinner, -⟩
    · trivial
    · exact ih hinner

theorem plain_of_forM {names : List String} {fault : Fault}
    (h : names.forM checkName = .error fault) : fault.IsPlain := by
  induction names with
  | nil => cases h
  | cons name names ih =>
    change (checkName name >>= fun _ => names.forM checkName) = _ at h
    cases hn : checkName name with
    | error f =>
      rw [hn] at h
      obtain rfl := Except.error.inj h
      exact plain_of_checkName hn
    | ok u =>
      rw [hn] at h
      exact ih h

theorem ensures_assign (options : Options) (path : String) {v : Value} (hv : Stems v) :
    Ensures (assign options path v) fun _ => True := by
  refine (Ensures.lift (Q := fun _ => True) (fun _ _ => trivial) fun _ => plain_of_forM).bind
    fun _ _ => ?_
  split
  · rename_i hnames
    exact absurd (List.map_eq_nil_iff.mp hnames) (dottedParts_ne_nil _)
  · exact Ensures.modify fun s hs => hs.set _ hv
  · rename_i root rest _ _
    split
    · rw [inSlot_put]
      refine Ensures.get.bind fun s hs => ?_
      split
      · rename_i w hput
        exact Ensures.set (hs.set root (stems_family.put (.object (by simp))
          (fun hfields _ hv => .object (Dict.All.insert (stems_family.fields hfields) _ hv))
          (hs.getD root) hv (fun _ _ => trivial) hput))
      · rename_i hput
        exact (Ensures.set (hs.set root (hs.getD root))).bind fun _ _ =>
          Ensures.fail (plain_of_put hput)
    · exact Ensures.fail trivial

/-! ## Operators -/

theorem plain_of_unary {op : UnaryOp} (hop : ∀ spelling, op ≠ .unknown spelling) {x : Value}
    {fault : Fault} (h : op.apply x = .error fault) : fault.IsPlain := by
  cases op with
  | unknown spelling => exact absurd rfl (hop spelling)
  | _ => cases h

theorem plain_of_binary {op : BinaryOp} (hop : ∀ spelling, op ≠ .unknown spelling) {x y : Value}
    {fault : Fault} (h : op.apply x y = .error fault) : fault.IsPlain := by
  cases op with
  | unknown spelling => exact absurd rfl (hop spelling)
  | _ => cases h

theorem plain_of_checkName_bind {α : Type} {name : String} {result : Except Fault α}
    {fault : Fault} (hresult : result = .error fault → fault.IsPlain)
    (h : (checkName name >>= fun _ => result) = .error fault) : fault.IsPlain := by
  cases hn : checkName name with
  | error f =>
    rw [hn] at h
    obtain rfl := Except.error.inj h
    exact plain_of_checkName hn
  | ok u =>
    rw [hn] at h
    exact hresult h

theorem plain_of_field {x : Value} {name : String} {fault : Fault}
    (h : x.field name = .error fault) : fault.IsPlain := by
  cases x with
  | undefined | null =>
    obtain rfl := Except.error.inj h
    trivial
  | _ => cases h

theorem plain_of_member {x : Value} {name : String} {fault : Fault}
    (h : x.member name = .error fault) : fault.IsPlain :=
  plain_of_checkName_bind plain_of_field h

theorem plain_of_place? {i : Float} {fault : Fault} (h : Value.place? i = .error fault) :
    fault.IsPlain := by
  unfold Value.place? at h
  split at h
  · obtain rfl := Except.error.inj h
    trivial
  · cases h

theorem plain_of_map_place? {f : Option Nat → Value} {i : Float} {fault : Fault}
    (h : (Value.place? i).map f = .error fault) : fault.IsPlain := by
  cases hp : Value.place? i with
  | ok place => rw [hp] at h; cases h
  | error f =>
    rw [hp] at h
    obtain rfl := Except.error.inj h
    exact plain_of_place? hp

theorem plain_of_entry {x key : Value} {fault : Fault} (h : x.entry key = .error fault) :
    fault.IsPlain := by
  unfold Value.entry at h
  split at h
  · exact plain_of_map_place? h
  · exact plain_of_map_place? h
  · obtain rfl := Except.error.inj h
    trivial
  · obtain rfl := Except.error.inj h
    trivial
  · exact plain_of_member h
  · exact plain_of_member h
  · exact plain_of_checkName_bind (by intro hpure; cases hpure) h
  · cases h

theorem plain_of_index {x key : Value} {fault : Fault} (h : x.index key = .error fault) :
    fault.IsPlain := by
  cases key with
  | string name => exact plain_of_checkName_bind plain_of_entry h
  | _ => exact plain_of_entry h

/-! ## Calls -/

section
variable {options : Options} {functions : Registry} {run : Program → Evaluation Value}

/-- Running compiled statements ensures a value that stems from built expressions. -/
def RunsCompiled (run : Program → Evaluation Value) : Prop :=
  ∀ first rest, Compiled first → (∀ t ∈ rest, Compiled t) →
    Ensures (run (first.code ++ statementsCode rest)) Stems

theorem RunsCompiled.code (h : RunsCompiled run) {t : Term} (ht : Compiled t) :
    Ensures (run t.code) Stems := by
  have hrun := h t [] ht (by simp)
  rwa [statementsCode, List.append_nil] at hrun

theorem ensures_callHost (hf : functions.Sound) {f : HostFunction} {name : String}
    (hmem : (name, f) ∈ functions.functions) {arguments : List Value}
    (ha : ∀ v ∈ arguments, Stems v) : Ensures (callHost f arguments) Stems := by
  refine Ensures.get.bind fun s hs => Ensures.bind (Ensures.modify ?_) fun _ _ => ?_
  · intro s hs
    refine ⟨⟨hs.context.globals, fun call hcall => ?_⟩, hs.locals⟩
    rcases List.mem_append.mp hcall with hcall | hcall
    · exact hs.context.calls call hcall
    · obtain rfl := List.mem_singleton.mp hcall
      exact ha
  · have hanswer := hf _ hmem s.calls arguments hs.context.calls ha
    split
    · rename_i v hv
      rw [hv] at hanswer
      exact Ensures.pure hanswer
    · rename_i e he
      rw [he] at hanswer
      exact fun s hs => ⟨hanswer, hs⟩

/-- The local variables that were captured with a function stem from built expressions. -/
theorem Stems.captured {c : Closure} (h : Stems (.function (.closure c))) :
    ∀ locals ∈ c.captured, AllStem locals := by
  cases h with
  | closure _ _ _ _ h => exact h

theorem ensures_call (hrun : RunsCompiled run) (hf : functions.Sound) {callee : Value}
    {arguments : List Value} (hc : Stems callee) (ha : ∀ v ∈ arguments, Stems v) :
    Ensures (call functions run callee arguments) Stems := by
  unfold call
  split
  · exact Ensures.pure (stems_family.named _ _)
  · split
    · rename_i f hid
      obtain ⟨⟨name, g⟩, hfind, rfl⟩ := Option.map_eq_some_iff.mp hid
      exact ensures_callHost hf (List.mem_of_find?_eq_some hfind) ha
    · exact Ensures.fail trivial
  · rename_i c
    have hlocals := stems_family.localsOf hc (Stems.captured hc) ha
    cases hc with
    | @closure e t body _ he hp hdef hbody _ =>
      have hcompiled : Compiled body :=
        Compiled.child ⟨e, t, he, hp, hdef⟩ (by simp [Term.children])
      intro s hs
      have h := hrun.code hcompiled { s with locals := some (localsOf c arguments) }
        ⟨hs.context, by rintro _ ⟨⟩; exact hlocals⟩
      rw [← hbody] at h
      unfold withLocals
      cases hr : run c.body { s with locals := some (localsOf c arguments) } with
      | ok v s' =>
        rw [hr] at h
        exact ⟨h.1, h.2.context, hs.locals⟩
      | error e s' =>
        rw [hr] at h
        exact ⟨h.1, h.2.context, hs.locals⟩
  · exact Ensures.fail trivial

/-! ## What the code of a compiled term leaves -/

/-- What is left stems from built expressions, or is the program of compiled statements. -/
def Sound : Pushed → Prop
  | .value v => Stems v
  | .waiting program => ∃ first rest, Compiled first ∧ (∀ t ∈ rest, Compiled t) ∧
    program = first.code ++ statementsCode rest

theorem ensures_resolve (hrun : RunsCompiled run) {x : Pushed} (hx : Sound x) :
    Ensures (resolve run x.operand) Stems := by
  cases x with
  | value v => exact Ensures.pure hx
  | waiting program =>
    obtain ⟨first, rest, hfirst, hrest, rfl⟩ := hx
    exact hrun first rest hfirst hrest

theorem ensures_mapM_resolve (hrun : RunsCompiled run) {xs : List Pushed}
    (h : ∀ x ∈ xs, Sound x) :
    Ensures ((xs.map Pushed.operand).mapM (resolve run)) fun vs => ∀ v ∈ vs, Stems v := by
  refine Ensures.mapM fun operand hmem => ?_
  obtain ⟨x, hx, rfl⟩ := List.mem_map.mp hmem
  exact ensures_resolve hrun (h x hx)

theorem ensures_fields (hrun : RunsCompiled run) {xs : List (String × Pushed)}
    (h : ∀ entry ∈ xs, Sound entry.2) {entries : Dict Value} (he : AllStem entries) :
    Ensures (fields run entries (entryOperands xs)) AllStem := by
  induction xs generalizing entries with
  | nil => exact Ensures.pure he
  | cons x xs ih =>
    obtain ⟨hx, hxs⟩ := List.forall_mem_cons.mp h
    exact (ensures_resolve hrun hx).bind fun v hv => ih hxs (Dict.All.insert he x.1 hv)

theorem ensures_chooseArm (hrun : RunsCompiled run) (subject : Option Value)
    {otherwise : Option Term} {arms : List (Term × Term)}
    (harms : ∀ arm ∈ arms, Compiled arm.1 ∧ Compiled arm.2) (hlast : ∀ t ∈ otherwise, Compiled t) :
    Ensures (chooseArm run subject (otherwise.map fun t => .waiting t.code) (armOperands arms))
      Stems := by
  induction arms with
  | nil =>
    cases otherwise with
    | none => exact Ensures.pure .undefined
    | some t => exact hrun.code (hlast t rfl)
  | cons arm arms ih =>
    obtain ⟨⟨hc, hr⟩, harms⟩ := List.forall_mem_cons.mp harms
    have hrest : ∀ holds : Bool, Ensures (if holds then resolve run (.waiting arm.2.code)
        else chooseArm run subject (otherwise.map fun t => .waiting t.code) (armOperands arms))
        Stems := by
      intro holds
      split
      · exact hrun.code hr
      · exact ih harms
    exact (hrun.code hc).bind fun v _ => hrest _

theorem ensures_pushedAll {terms : List Term}
    (h : ∀ t ∈ terms, Ensures (pushed options functions run t) Sound) :
    Ensures (pushedAll options functions run terms) fun xs => ∀ x ∈ xs, Sound x := by
  induction terms with
  | nil => exact Ensures.pure (by simp)
  | cons t terms ih =>
    obtain ⟨ht, hterms⟩ := List.forall_mem_cons.mp h
    exact ht.bind fun x hx => (ih hterms).bind fun xs hxs =>
      Ensures.pure (List.forall_mem_cons.mpr ⟨hx, hxs⟩)

theorem ensures_pushedEntries {entries : List (String × Term)}
    (h : ∀ entry ∈ entries, Ensures (pushed options functions run entry.2) Sound) :
    Ensures (pushedEntries options functions run entries) fun xs => ∀ x ∈ xs, Sound x.2 := by
  induction entries with
  | nil => exact Ensures.pure (by simp)
  | cons entry entries ih =>
    obtain ⟨ht, hterms⟩ := List.forall_mem_cons.mp h
    exact ht.bind fun x hx => (ih hterms).bind fun xs hxs =>
      Ensures.pure (List.forall_mem_cons.mpr ⟨hx, hxs⟩)

/-- The value of a computation is left as a value. -/
theorem Ensures.value {m : Evaluation Value} (h : Ensures m Stems) :
    Ensures (do return Pushed.value (← m)) Sound := h.bind fun _ hv => Ensures.pure hv

/-- **The code of a compiled term fails with no error of a malformed program**, and leaves what
stems from built expressions. -/
theorem ensures_pushed (hrun : RunsCompiled run) (hf : functions.Sound) {t : Term}
    (ht : Compiled t) : Ensures (pushed options functions run t) Sound := by
  induction t with
  | literal v => exact Ensures.pure ht.fits.1
  | undefined => exact Ensures.pure .undefined
  | var name => exact (ensures_lookup options functions name).value
  | unary op operand ih =>
    have hop : ∀ spelling, op ≠ .unknown spelling := by
      have hfits := ht.fits
      simp only [Term.Fits, Term.code, fits_append, fits_cons, Instr.Fits] at hfits
      exact hfits.2.1
    rw [pushed]
    refine (ih (ht.child (.head _))).bind fun x hx => (ensures_resolve hrun hx).bind fun v hv =>
      Ensures.value (Ensures.lift (fun w => stems_family.unary) fun fault => plain_of_unary hop)
  | binary op left right ihl ihr =>
    have hop : ∀ spelling, op ≠ .unknown spelling := by
      have hfits := ht.fits
      simp only [Term.Fits, Term.code, fits_append, fits_cons, Instr.Fits] at hfits
      exact hfits.2.1
    rw [pushed]
    refine (ihl (ht.child (.head _))).bind fun x hx =>
      (ihr (ht.child (.tail _ (.head _)))).bind fun y hy =>
      (ensures_resolve hrun hx).bind fun v hv => (ensures_resolve hrun hy).bind fun w hw =>
      Ensures.value (Ensures.lift (fun _ => stems_family.binary hv hw)
        fun fault => plain_of_binary hop)
  | and left right ihl ihr =>
    rw [pushed]
    refine (ihl (ht.child (.head _))).bind fun x hx => (ensures_resolve hrun hx).bind fun v hv => ?_
    split
    · exact (hrun.code (ht.child (.tail _ (.head _)))).bind fun w _ => Ensures.pure (.bool _)
    · exact Ensures.pure (.bool _)
  | or left right ihl ihr =>
    rw [pushed]
    refine (ihl (ht.child (.head _))).bind fun x hx => (ensures_resolve hrun hx).bind fun v hv => ?_
    split
    · exact Ensures.pure (.bool _)
    · exact (hrun.code (ht.child (.tail _ (.head _)))).bind fun w _ => Ensures.pure (.bool _)
  | choose condition yes no ihc ihy ihn =>
    rw [pushed]
    refine (ihc (ht.child (.head _))).bind fun x hx => (ensures_resolve hrun hx).bind fun v hv =>
      Ensures.value ?_
    split
    · exact hrun.code (ht.child (.tail _ (.head _)))
    · exact hrun.code (ht.child (.tail _ (.tail _ (.head _))))
  | caseOf subject arms otherwise ihs iha iho =>
    have harms : ∀ arm ∈ arms, Compiled arm.1 ∧ Compiled arm.2 := by
      intro arm harm
      obtain ⟨hcondition, hresult⟩ := mem_children_of_arm harm
      exact ⟨ht.child hcondition, ht.child hresult⟩
    have hlast : ∀ t ∈ otherwise, Compiled t := by
      intro t hlast
      exact ht.child (otherwise_mem_children hlast)
    rw [pushed]
    cases subject with
    | none => exact Ensures.value (ensures_chooseArm hrun none harms hlast)
    | some t =>
      have hs := ihs t rfl (ht.child (subject_mem_children rfl))
      rw [pushedSubject, map_eq_pure_bind, bind_assoc]
      refine hs.bind fun x hx => ?_
      rw [pure_bind, resolveSubject, map_eq_pure_bind, bind_assoc]
      refine (ensures_resolve hrun hx).bind fun v hv => ?_
      rw [pure_bind]
      exact Ensures.value (ensures_chooseArm hrun _ harms hlast)
  | member target name ih =>
    rw [pushed]
    refine (ih (ht.child (.head _))).bind fun x hx => ?_
    split
    · exact (ensures_resolve hrun hx).bind fun v hv => Ensures.value
        (Ensures.lift (fun _ => stems_family.member hv) fun _ => plain_of_member)
    · exact Ensures.fail trivial
  | index target key iht ihk =>
    rw [pushed]
    refine (iht (ht.child (.head _))).bind fun x hx =>
      (ihk (ht.child (.tail _ (.head _)))).bind fun y hy => ?_
    split
    · exact (ensures_resolve hrun hx).bind fun v hv => (ensures_resolve hrun hy).bind fun w _ =>
        Ensures.value (Ensures.lift (fun _ => stems_family.index hv) fun _ => plain_of_index)
    · exact Ensures.fail trivial
  | call callee arguments ihc iha =>
    rw [pushed]
    refine (ihc (ht.child (.head _))).bind fun x hx =>
      (ensures_pushedAll fun t hmem => iha t hmem (ht.child (.tail _ hmem))).bind fun ys hys =>
      (ensures_resolve hrun hx).bind fun f hfunction =>
      (ensures_mapM_resolve hrun hys).bind fun vs hvs => ?_
    exact (ensures_call hrun hf hfunction hvs).value
  | array items ih =>
    rw [pushed]
    refine (ensures_pushedAll fun t hmem => ih t hmem (ht.child hmem)).bind fun xs hxs =>
      (ensures_mapM_resolve hrun hxs).bind fun vs hvs => Ensures.pure (.array hvs)
  | object entries ih =>
    rw [pushed]
    refine (ensures_pushedEntries fun entry hmem =>
      ih entry hmem (ht.child (List.mem_map_of_mem hmem))).bind fun xs hxs => ?_
    exact (ensures_fields hrun hxs (by simp [AllStem])).bind fun fields hfields =>
      Ensures.pure (.object hfields)
  | assign root path value ih =>
    rw [pushed]
    refine (hrun.code (ht.child (.head _))).bind fun v hv =>
      (ensures_assign options _ hv).bind fun _ _ => Ensures.pure hv
  | define name params body ih =>
    refine Ensures.value ((Ensures.lift (Q := fun _ => True) (fun _ _ => trivial) fun _ =>
      plain_of_checkName).bind fun _ _ => Ensures.freshId.bind fun id _ =>
      Ensures.get.bind fun s hs => ?_)
    have hclosure := ht.closure id hs.locals
    exact (Ensures.modify fun s hs => hs.set name hclosure).bind fun _ _ =>
      Ensures.pure hclosure
  | sequence first rest ihf ihr =>
    exact Ensures.pure ⟨first, rest, ht.child (.head _), fun t hmem => ht.child (.tail _ hmem), rfl⟩

theorem ensures_settledLast (hrun : RunsCompiled run) (hf : functions.Sound) {first : Term}
    {rest : List Term} (hfirst : Compiled first) (hrest : ∀ t ∈ rest, Compiled t) :
    Ensures (settledLast options functions run first rest) Stems := by
  have hsettled : Ensures (settled options functions run first) Stems :=
    (ensures_pushed hrun hf hfirst).bind fun x hx => ensures_resolve hrun hx
  induction rest generalizing first with
  | nil => exact hsettled
  | cons next rest ih =>
    obtain ⟨hnext, hrest⟩ := List.forall_mem_cons.mp hrest
    exact hsettled.bind fun _ _ => ih hnext hrest
      ((ensures_pushed hrun hf hnext).bind fun x hx => ensures_resolve hrun hx)

end

/-- **Compiled statements run without any error of a malformed program**, at every depth. -/
theorem runsCompiled (options : Options) {functions : Registry} (hf : functions.Sound)
    (depth : Nat) : RunsCompiled (run options functions depth) := by
  induction depth with
  | zero => exact fun _ _ _ _ => Ensures.fail trivial
  | succ depth ih =>
    intro first rest hfirst hrest
    rw [run, execute_statements]
    exact ensures_settledLast ih hf hfirst hrest

end Evaluation

/-- **No built expression meets an error of a malformed program.**  Whatever the variables are, as
long as their functions stem from built expressions too, evaluation answers a value or an error
that is not one of a malformed program, and leaves variables that stem from built expressions.  The
same holds at every depth for every program inside a built expression: for branches, assigned
values and the bodies of all functions that can be called. -/
theorem evaluate_not_structural {e : Expression} (he : Built e) (hf : e.functions.Sound) :
    (∀ context : Context, context.AllStem →
      (∀ error, (e.evaluate context).1 = .error error → ¬ error.IsStructural) ∧
        (∀ v, (e.evaluate context).1 = .ok v → Stems v) ∧ (e.evaluate context).2.AllStem) ∧
    ∀ depth, Evaluation.RunsCompiled (Evaluation.run e.options e.functions depth) := by
  refine ⟨fun context hcontext => ?_, Evaluation.runsCompiled e.options hf⟩
  obtain ⟨t, hcode, -⟩ := he.exists_term
  have hrun := (Evaluation.runsCompiled e.options hf e.options.maxDepth).code
    ⟨e, t, he, hcode, .self t⟩ { context with } ⟨hcontext, by rintro _ ⟨⟩⟩
  rw [← hcode] at hrun
  cases hr : Evaluation.run e.options e.functions e.options.maxDepth e.program { context with } with
  | ok v s =>
    rw [hr] at hrun
    rw [Expression.evaluate_of_ok hr]
    refine ⟨fun error herror => (nomatch herror), ?_, hrun.2.context⟩
    rintro _ ⟨⟩
    exact hrun.1
  | error error s =>
    rw [hr] at hrun
    obtain ⟨named, hevaluate, hfault⟩ := Expression.evaluate_of_error hr
    rw [hevaluate]
    refine ⟨?_, fun v hv => (nomatch hv), hrun.2.context⟩
    rintro _ ⟨⟩
    rw [Error.IsStructural, Error.kind, Error.message, hfault]
    exact hrun.1

/-- `f(x) = id(x); f(y)` with `y` known and the host lending `id`. -/
theorem evaluate_not_structural_simplified :
    ∃ e : Expression, Built e ∧ e.functions.Sound ∧
      e.program = [.sub [.name "f", .name "x", .sub [.var "id", .var "x", .call 1], .define 1,
        .endStatement, .var "f", .literal (.bool true), .call 1]] ∧
      ∀ error, (e.evaluate {}).1 = .error error → ¬ error.IsStructural := by
  let id : HostFunction := ⟨1, "id", fun _ arguments => .ok (arguments.headD .undefined)⟩
  let c : Compiler := { functions := ⟨[("id", id)]⟩, constants := [] }
  let e : Expression := ⟨[.sub [.name "f", .name "x", .sub [.var "id", .var "x", .call 1],
    .define 1, .endStatement, .var "f", .var "y", .call 1]], c.options, c.functions,
    some "f(x) = id(x); f(y)"⟩
  have he : c.compile "f(x) = id(x); f(y)" = .ok e := rfl
  have hfunctions : (e.simplify [("y", .bool true)]).functions.Sound := by
    intro entry hentry calls arguments _ ha
    obtain rfl := List.mem_singleton.mp hentry
    cases arguments with
    | nil => exact .undefined
    | cons v rest => exact ha v (.head _)
  have hbuilt : Built (e.simplify [("y", .bool true)]) := by
    refine .simplify (.compile (fun _ h => absurd h List.not_mem_nil) he) fun entry hentry => ?_
    obtain rfl := List.mem_singleton.mp hentry
    exact .bool true
  have hcontext : ({} : Context).AllStem :=
    ⟨fun _ h => absurd h List.not_mem_nil, fun _ h => absurd h List.not_mem_nil⟩
  have hplain := ((evaluate_not_structural hbuilt hfunctions).1 {} hcontext).1
  refine ⟨e.simplify [("y", .bool true)], hbuilt, hfunctions, ?_, hplain⟩
  rw [Expression.program_simplify]
  cbv

end Formula
