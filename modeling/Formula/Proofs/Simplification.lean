import Formula.Expression
import Formula.Proofs.FoldingTrees
import Formula.Proofs.Simulation
import Formula.Proofs.Stack

/-! # Simplification preserves meaning

A simplified expression answers what the expression answered, or fails in the same way, leaves the
same variables and calls the host in the same way, on all variables that have the known values
(`simplify_preserves`).  Nothing in the expression may store to a known name, and a known value has
to be what its name means: no registered function, no operator and no protected name.  Parameters
may have known names; they hide them.

The functions that the two expressions define have different bodies, so their runs are related by
`Simulates`, with the folded body of a function for the body (`FoldedBody`).
-/
namespace Formula

/-! ## Names that are stored to -/

/-- The name of the variable that a term itself stores to, leaving its parts aside. -/
def Term.storesTo? : Term → Option String
  | .assign root path _ => (pathNames (targetName root path)).head?
  | .define name _ _ => some name
  | _ => none

/-- The text of an assignment target names the variable and the members that it was made of. -/
theorem pathNames_targetName {root : String} {path : List String}
    (h : ∀ name ∈ root :: path, '.' ∉ name.toList) :
    pathNames (targetName root path) = root :: path := by
  rw [pathNames, targetName]
  induction path generalizing root with
  | nil => simp [dottedParts_of_not_mem (h root (.head _))]
  | cons name path ih =>
    obtain ⟨hroot, hpath⟩ := List.forall_mem_cons.mp h
    rw [String.intercalate_cons_cons, String.toList_append, String.toList_append,
      List.append_assoc]
    change (dottedParts (root.toList ++ '.' :: (".".intercalate (name :: path)).toList)).map _ = _
    rw [dottedParts_append_dot hroot, List.map_cons, ih hpath, String.ofList_toList]

/-- Nothing in the term, at any depth, stores to a name of the table. -/
def Term.Spares (t : Term) (names : Dict Value) : Prop :=
  ∀ s, Term.Within s t → ∀ name ∈ s.storesTo?, names.contains name = false

theorem Term.Spares.child {t child : Term} {names : Dict Value} (h : t.Spares names)
    (hc : child ∈ t.children) : child.Spares names :=
  fun s hs => h s (.deeper hc hs)

theorem Term.Spares.intro {t : Term} {names : Dict Value}
    (hown : ∀ name ∈ t.storesTo?, names.contains name = false)
    (hchildren : ∀ child ∈ t.children, child.Spares names) : t.Spares names := by
  intro s hs
  cases hs with
  | self => exact hown
  | deeper hc hs => exact hchildren _ hc s hs

theorem contains_of_eraseAll {names : Dict Value} {gone : List String} {name : String}
    (h : (names.eraseAll gone).contains name = true) :
    name ∉ gone ∧ names.contains name = true := by
  rw [Dict.contains, Dict.get?_eraseAll] at h
  by_cases hgone : name ∈ gone
  · rw [if_pos hgone] at h
    cases h
  · rw [if_neg hgone] at h
    exact ⟨hgone, h⟩

theorem Term.Spares.eraseAll {t : Term} {names : Dict Value} (h : t.Spares names)
    (gone : List String) : t.Spares (names.eraseAll gone) := by
  intro s hs name hname
  by_contra hcontains
  have hcontains := (contains_of_eraseAll (Bool.not_eq_false _ ▸ hcontains)).2
  rw [h s hs name hname] at hcontains
  cases hcontains

/-! ## Folded bodies -/

/-- The body is that of the function, folded: with the values of known names, without those that
are gone, to none of which the function stores, has a parameter or a local variable. -/
structure FoldsTo (options : Options) (known : Dict Value) (c : Closure) (body : Program)
    (t : Term) (gone : List String) : Prop where
  code : c.body = t.code
  folded : body = (t.fold options (known.eraseAll gone)).code
  spares : t.Spares (known.eraseAll gone)
  name : (known.eraseAll gone).contains c.name = false
  params : ∀ param ∈ c.params, (known.eraseAll gone).contains param = false
  captured : ∀ locals ∈ c.captured, ∀ name, (known.eraseAll gone).contains name = true →
    Dict.get? locals name = none

/-- A function that is defined where some names are gone has those and its parameters gone. -/
theorem foldsTo_of_define {options : Options} {known : Dict Value} {gone : List String}
    {body : Term} (hbody : body.Spares (known.eraseAll gone)) {name : String}
    (hname : (known.eraseAll gone).contains name = false) {params : List String} (id : Nat)
    {captured : Option (Dict Value)} (hcaptured : ∀ locals ∈ captured, ∀ other,
      (known.eraseAll gone).contains other = true → Dict.get? locals other = none) :
    FoldsTo options known ⟨id, name, params, body.code, captured⟩
      (body.fold options ((known.eraseAll gone).eraseAll params)).code body (gone ++ params) := by
  have herase : (known.eraseAll gone).eraseAll params = known.eraseAll (gone ++ params) := by
    simp [Dict.eraseAll, List.foldl_append]
  have hsub : ∀ other, (known.eraseAll (gone ++ params)).contains other = true →
      other ∉ params ∧ (known.eraseAll gone).contains other = true := by
    rw [← herase]
    exact fun other => contains_of_eraseAll
  refine ⟨rfl, by rw [herase], herase ▸ hbody.eraseAll params, ?_, ?_, ?_⟩
  · by_contra hcontains
    have hactive := (hsub name (Bool.not_eq_false _ ▸ hcontains)).2
    rw [hname] at hactive
    cases hactive
  · intro param hparam
    by_contra hcontains
    exact (hsub param (Bool.not_eq_false _ ▸ hcontains)).1 hparam
  · intro locals hlocals other hother
    exact hcaptured locals hlocals other (hsub other hother).2

/-- The body is that of the function, or that body folded. -/
def FoldedBody (options : Options) (known : Dict Value) (c : Closure) (body : Program) : Prop :=
  body = c.body ∨ ∃ t gone, FoldsTo options known c body t gone

/-- The second program is that of statements folded, the first that of the statements. -/
def StatementsRel (options : Options) (active : Dict Value) (p q : Program) : Prop :=
  ∃ first rest, Term.Spares first active ∧ (∀ t ∈ rest, Term.Spares t active) ∧
    p = first.code ++ statementsCode rest ∧
    q = (first.fold options active).code ++ statementsCode (foldTerms options active rest)

theorem StatementsRel.code {options : Options} {active : Dict Value} {t : Term}
    (h : t.Spares active) : StatementsRel options active t.code (t.fold options active).code :=
  ⟨t, [], h, by simp, by simp [statementsCode], by simp [statementsCode, foldTerms]⟩

/-- Every known value but functions is what its name means. -/
def Resolved (options : Options) (functions : Registry) (known : Dict Value) : Prop :=
  ∀ name v, known.get? name = some v → (∀ f, v ≠ .function f) →
    isProtected name = false ∧ functions.contains name = false ∧ options.namedOp? name = none

namespace Evaluation

/-! ## What is left of folded terms -/

section
variable {options : Options} {functions : Registry} {run : Program → Evaluation Value}

theorem pushed_ofValue (v : Value) :
    pushed options functions run (.ofValue v) = pure (.value v) := by
  cases v <;> rfl

theorem lift_eq_of_orResult {t : Term} {result : Except Fault Value}
    (h : pushed options functions run t = do return .value (← lift result)) :
    pushed options functions run (t.orResult result) = pushed options functions run t := by
  cases result with
  | ok v =>
    rw [h, Term.orResult, pushed_ofValue]
    rfl
  | error fault => rfl

theorem pushed_fold_unary (known : Dict Value) (op : UnaryOp) (operand : Term) :
    pushed options functions run (Term.fold options known (.unary op operand))
      = pushed options functions run (.unary op (operand.fold options known)) := by
  rw [Term.fold]
  split
  · rename_i x hx
    rw [Term.eq_ofValue_of_known? hx]
    refine lift_eq_of_orResult ?_
    simp [pushed, pushed_ofValue, Pushed.operand, resolve]
  · rfl

theorem pushed_fold_binary (known : Dict Value) (op : BinaryOp) (left right : Term) :
    pushed options functions run (Term.fold options known (.binary op left right))
      = pushed options functions run
          (.binary op (left.fold options known) (right.fold options known)) := by
  rw [Term.fold]
  split
  · rename_i x y hx hy
    rw [Term.eq_ofValue_of_known? hx, Term.eq_ofValue_of_known? hy]
    refine lift_eq_of_orResult ?_
    simp [pushed, pushed_ofValue, Pushed.operand, resolve]
  · rfl

theorem pushed_fold_member (known : Dict Value) (target : Term) (name : String) :
    pushed options functions run (Term.fold options known (.member target name))
      = pushed options functions run (.member (target.fold options known) name) := by
  rw [Term.fold]
  split
  · rename_i x hx
    split
    · rename_i hallow
      rw [Term.eq_ofValue_of_known? hx]
      refine lift_eq_of_orResult ?_
      simp [pushed, pushed_ofValue, Pushed.operand, resolve, hallow]
    · rfl
  · rfl

theorem pushed_fold_index (known : Dict Value) (target key : Term) :
    pushed options functions run (Term.fold options known (.index target key))
      = pushed options functions run
          (.index (target.fold options known) (key.fold options known)) := by
  rw [Term.fold]
  split
  · rename_i x y hx hy
    split
    · rename_i hallow
      rw [Term.eq_ofValue_of_known? hx, Term.eq_ofValue_of_known? hy]
      refine lift_eq_of_orResult ?_
      simp [pushed, pushed_ofValue, Pushed.operand, resolve, hallow]
    · rfl
  · rfl

theorem pushedAll_of_known {terms : List Term} {vs : List Value} (h : knownAll? terms = some vs) :
    pushedAll options functions run terms = pure (vs.map .value) := by
  induction terms generalizing vs with
  | nil =>
    obtain rfl := Option.some.inj h
    rfl
  | cons t terms ih =>
    rw [knownAll?] at h
    split at h
    · rename_i v ws hv hws
      obtain rfl := Option.some.inj h
      rw [pushedAll, ih hws, Term.eq_ofValue_of_known? hv, pushed_ofValue]
      rfl
    · cases h

theorem pushed_fold_array (known : Dict Value) (items : List Term) :
    pushed options functions run (Term.fold options known (.array items))
      = pushed options functions run (.array (foldTerms options known items)) := by
  rw [Term.fold]
  split
  · rename_i vs hvs
    rw [pushed, pushed, pushedAll_of_known hvs]
    simp [mapM_resolve_value]
  · rfl

end

/-! ## Terms and their folded terms -/

section
variable {options : Options} {functions : Registry} {known : Dict Value} {gone : List String}
  {run : Program → Evaluation Value}

/-- What is left of a term and of the folded term. -/
def PushedRel (options : Options) (known active : Dict Value) (x y : Pushed) : Prop :=
  OperandRel (FoldedBody options known) (StatementsRel options active) x.operand y.operand

/-- The lookup of a known name finds the known value. -/
theorem simulates_known (hresolved : Resolved options functions known) {name : String} {v : Value}
    (hv : (known.eraseAll gone).get? name = some v) (hf : ∀ f, v ≠ .function f) :
    Simulates (FoldedBody options known) known (known.eraseAll gone)
      (Like (FoldedBody options known)) (lookup options functions name) (pure v) := by
  intro s s' hs
  have hactive : (known.eraseAll gone).contains name = true := by rw [Dict.contains, hv]; rfl
  have hknown : known.get? name = some v := by
    rwa [Dict.get?_eraseAll, if_neg (contains_of_eraseAll hactive).1] at hv
  obtain ⟨hprotected, hfunction, hop⟩ := hresolved name v hknown hf
  have hget : s.get? name = some v := by
    unfold Scope.get?
    cases hl : s.locals with
    | none => simpa using hs.fixed name v hknown
    | some locals =>
      have hnone := hs.hidden locals hl name hactive
      simpa [hnone] using hs.fixed name v hknown
  rw [lookup_variable hprotected hfunction hop hget]
  exact .ok (.same v) hs

variable (hresolved : Resolved options functions known) (hblind : functions.Blind)
  (hcalls : CallsAlike (FoldedBody options known) known run)
  (hP : ∀ p q, StatementsRel options (known.eraseAll gone) p q →
    Simulates (FoldedBody options known) known (known.eraseAll gone)
      (Like (FoldedBody options known)) (run p) (run q))

theorem foldedBody_refl (c : Closure) : FoldedBody options known c c.body := .inl rfl

theorem simulates_value {m n : Evaluation Value}
    (h : Simulates (FoldedBody options known) known (known.eraseAll gone)
      (Like (FoldedBody options known)) m n) :
    Simulates (FoldedBody options known) known (known.eraseAll gone)
      (PushedRel options known (known.eraseAll gone))
      (do return Pushed.value (← m)) (do return Pushed.value (← n)) :=
  h.bind fun _ _ hvw => Simulates.pure (.value hvw)

theorem simulates_pushedAll {active : Dict Value} {terms : List Term}
    (h : ∀ t ∈ terms, Simulates (FoldedBody options known) known active
      (PushedRel options known active) (pushed options functions run t)
      (pushed options functions run (t.fold options active))) :
    Simulates (FoldedBody options known) known active
      (List.Forall₂ (PushedRel options known active)) (pushedAll options functions run terms)
      (pushedAll options functions run (foldTerms options active terms)) := by
  induction terms with
  | nil => exact Simulates.pure .nil
  | cons t terms ih =>
    obtain ⟨ht, hterms⟩ := List.forall_mem_cons.mp h
    exact ht.bind fun _ _ hhead => (ih hterms).bind fun _ _ htail =>
      Simulates.pure (.cons hhead htail)

theorem simulates_pushedEntries {active : Dict Value} {entries : List (String × Term)}
    (h : ∀ entry ∈ entries, Simulates (FoldedBody options known) known active
      (PushedRel options known active) (pushed options functions run entry.2)
      (pushed options functions run (entry.2.fold options active))) :
    Simulates (FoldedBody options known) known active
      (fun xs ys => List.Forall₂ (OperandRel (FoldedBody options known)
        (StatementsRel options active)) (entryOperands xs) (entryOperands ys))
      (pushedEntries options functions run entries)
      (pushedEntries options functions run (foldFields options active entries)) := by
  induction entries with
  | nil => exact Simulates.pure .nil
  | cons entry entries ih =>
    obtain ⟨ht, hterms⟩ := List.forall_mem_cons.mp h
    exact ht.bind fun _ _ hhead => (ih hterms).bind fun _ _ htail =>
      Simulates.pure (.cons (.key entry.1) (.cons hhead htail))

theorem forall₂_operands {active : Dict Value} {xs ys : List Pushed}
    (h : List.Forall₂ (PushedRel options known active) xs ys) :
    List.Forall₂ (OperandRel (FoldedBody options known) (StatementsRel options active))
      (xs.map Pushed.operand) (ys.map Pushed.operand) := by
  rw [List.forall₂_map_left_iff, List.forall₂_map_right_iff]
  exact h

theorem forall₂_armOperands {active : Dict Value} {arms : List (Term × Term)}
    (h : ∀ arm ∈ arms, arm.1.Spares active ∧ arm.2.Spares active) :
    List.Forall₂ (OperandRel (FoldedBody options known) (StatementsRel options active))
      (armOperands arms) (armOperands (foldArms options active arms)) := by
  induction arms with
  | nil => exact .nil
  | cons arm arms ih =>
    obtain ⟨⟨hc, hr⟩, harms⟩ := List.forall_mem_cons.mp h
    exact .cons (.waiting (.code hc)) (.cons (.waiting (.code hr)) (ih harms))

include hresolved hblind hcalls hP

/-- **The folded term leaves what the term leaves**, up to folded bodies. -/
theorem simulates_pushed {t : Term} (ht : t.Spares (known.eraseAll gone)) :
    Simulates (FoldedBody options known) known (known.eraseAll gone)
      (PushedRel options known (known.eraseAll gone)) (pushed options functions run t)
      (pushed options functions run (t.fold options (known.eraseAll gone))) := by
  have hresolve : ∀ x y, PushedRel options known (known.eraseAll gone) x y →
      Simulates (FoldedBody options known) known (known.eraseAll gone)
        (Like (FoldedBody options known)) (resolve run x.operand) (resolve run y.operand) :=
    fun x y => simulates_resolve hP
  induction t with
  | literal v =>
    rw [Term.fold, pushed_ofValue]
    exact Simulates.pure (.value (.same v))
  | undefined => exact Simulates.pure (.value (.same _))
  | var name =>
    rw [Term.fold]
    split
    · exact simulates_value (simulates_lookup options functions name)
    · exact simulates_value (simulates_lookup options functions name)
    · rename_i v hf hv
      rw [pushed_ofValue]
      exact (simulates_known hresolved hv fun f hfunction => hf f hfunction).bind fun _ _ hvw =>
        Simulates.pure (.value hvw)
  | unary op operand ih =>
    rw [pushed_fold_unary, pushed, pushed]
    refine (ih (ht.child (.head _))).bind fun x y hxy => ?_
    refine (hresolve x y hxy).bind fun v w hvw => ?_
    rw [like_unary hvw op]
    exact simulates_value (Simulates.lift (OutcomeRel.refl .same _))
  | binary op left right ihl ihr =>
    rw [pushed_fold_binary, pushed, pushed]
    refine (ihl (ht.child (.head _))).bind fun x x' hx => ?_
    refine (ihr (ht.child (.tail _ (.head _)))).bind fun y y' hy => ?_
    refine (hresolve x x' hx).bind fun v v' hv => (hresolve y y' hy).bind fun w w' hw => ?_
    exact simulates_value (Simulates.lift (like_binary hv hw op))
  | and left right ihl ihr =>
    rw [Term.fold, pushed, pushed]
    refine (ihl (ht.child (.head _))).bind fun x x' hx => ?_
    refine (hresolve x x' hx).bind fun v v' hv => ?_
    rw [hv.isTruthy_eq]
    split
    · refine (hP _ _ (.code (ht.child (.tail _ (.head _))))).bind fun w w' hw => ?_
      rw [hw.isTruthy_eq]
      exact Simulates.pure (.value (.same _))
    · exact Simulates.pure (.value (.same _))
  | or left right ihl ihr =>
    rw [Term.fold, pushed, pushed]
    refine (ihl (ht.child (.head _))).bind fun x x' hx => ?_
    refine (hresolve x x' hx).bind fun v v' hv => ?_
    rw [hv.isTruthy_eq]
    split
    · exact Simulates.pure (.value (.same _))
    · refine (hP _ _ (.code (ht.child (.tail _ (.head _))))).bind fun w w' hw => ?_
      rw [hw.isTruthy_eq]
      exact Simulates.pure (.value (.same _))
  | choose condition yes no ihc ihy ihn =>
    rw [Term.fold, pushed, pushed]
    refine (ihc (ht.child (.head _))).bind fun x x' hx => ?_
    refine (hresolve x x' hx).bind fun v v' hv => simulates_value ?_
    rw [hv.isTruthy_eq]
    split
    · exact hP _ _ (.code (ht.child (.tail _ (.head _))))
    · exact hP _ _ (.code (ht.child (.tail _ (.tail _ (.head _)))))
  | caseOf subject arms otherwise ihs iha iho =>
    have harms : ∀ arm ∈ arms, arm.1.Spares (known.eraseAll gone)
        ∧ arm.2.Spares (known.eraseAll gone) := by
      intro arm harm
      obtain ⟨hcondition, hresult⟩ := mem_children_of_arm harm
      exact ⟨ht.child hcondition, ht.child hresult⟩
    have hlast : Option.Rel (OperandRel (FoldedBody options known)
        (StatementsRel options (known.eraseAll gone)))
        (otherwise.map fun t => Operand.waiting t.code)
        ((foldOption options (known.eraseAll gone) otherwise).map
          fun t => Operand.waiting t.code) := by
      cases otherwise with
      | none => exact .none
      | some t => exact .some (.waiting (.code (ht.child (otherwise_mem_children rfl))))
    rw [Term.fold, pushed, pushed]
    cases subject with
    | none => exact simulates_value (simulates_chooseArm hP .none hlast (forall₂_armOperands harms))
    | some t =>
      have hs := ihs t rfl (ht.child (subject_mem_children rfl))
      simp only [foldOption, pushedSubject, resolveSubject, map_eq_pure_bind, bind_assoc, pure_bind]
      refine hs.bind fun x x' hx => (hresolve x x' hx).bind fun v v' hv => ?_
      exact simulates_value (simulates_chooseArm hP (.some hv) hlast (forall₂_armOperands harms))
  | member target name ih =>
    rw [pushed_fold_member, pushed, pushed]
    refine (ih (ht.child (.head _))).bind fun x x' hx => ?_
    split
    · refine (hresolve x x' hx).bind fun v v' hv => ?_
      exact simulates_value (Simulates.lift (like_member hv name))
    · exact Simulates.fail _
  | index target key iht ihk =>
    rw [pushed_fold_index, pushed, pushed]
    refine (iht (ht.child (.head _))).bind fun x x' hx => ?_
    refine (ihk (ht.child (.tail _ (.head _)))).bind fun y y' hy => ?_
    split
    · refine (hresolve x x' hx).bind fun v v' hv => (hresolve y y' hy).bind fun w w' hw => ?_
      exact simulates_value (Simulates.lift (like_index hv hw))
    · exact Simulates.fail _
  | call callee arguments ihc iha =>
    rw [Term.fold, pushed, pushed]
    refine (ihc (ht.child (.head _))).bind fun x x' hx => ?_
    refine (simulates_pushedAll fun t hmem => iha t hmem (ht.child (.tail _ hmem))).bind
      fun ys ys' hys => ?_
    refine (hresolve x x' hx).bind fun f g hfg => ?_
    refine (Simulates.mapM (forall₂_operands hys) fun _ _ => simulates_resolve hP).bind
      fun vs ws hvs => ?_
    exact simulates_value (simulates_call hblind foldedBody_refl hcalls hfg hvs)
  | array items ih =>
    rw [pushed_fold_array, pushed, pushed]
    refine (simulates_pushedAll fun t hmem => ih t hmem (ht.child hmem)).bind fun xs xs' hxs => ?_
    exact (Simulates.mapM (forall₂_operands hxs) fun _ _ => simulates_resolve hP).bind
      fun vs ws hvs => Simulates.pure (.value (.array hvs))
  | object entries ih =>
    rw [Term.fold, pushed, pushed]
    refine (simulates_pushedEntries fun entry hmem =>
      ih entry hmem (ht.child (List.mem_map_of_mem hmem))).bind fun xs xs' hxs => ?_
    exact (simulates_fields hP hxs .nil).bind fun fs gs hfields =>
      Simulates.pure (.value (.object hfields))
  | assign root path value ih =>
    rw [Term.fold, pushed, pushed]
    refine (hP _ _ (.code (ht.child (.head _)))).bind fun v w hvw => ?_
    exact (simulates_assign options (ht _ (.self _)) hvw).bind fun _ _ _ =>
      Simulates.pure (.value hvw)
  | define name params body ih =>
    rw [Term.fold, pushed, pushed]
    have hname := ht _ (.self _) name rfl
    exact simulates_value (simulates_makeFunction hname fun id captured hcaptured =>
      .inr ⟨body, gone ++ params, foldsTo_of_define (ht.child (.head _)) hname id hcaptured⟩)
  | sequence first rest ihf ihr =>
    rw [Term.fold, pushed, pushed]
    exact Simulates.pure (.waiting ⟨first, rest, ht.child (.head _),
      fun t hmem => ht.child (.tail _ hmem), rfl, rfl⟩)

theorem simulates_settledLast {first : Term} {rest : List Term}
    (hfirst : first.Spares (known.eraseAll gone))
    (hrest : ∀ t ∈ rest, t.Spares (known.eraseAll gone)) :
    Simulates (FoldedBody options known) known (known.eraseAll gone)
      (Like (FoldedBody options known)) (settledLast options functions run first rest)
      (settledLast options functions run (first.fold options (known.eraseAll gone))
        (foldTerms options (known.eraseAll gone) rest)) := by
  have hsettled : ∀ t : Term, t.Spares (known.eraseAll gone) →
      Simulates (FoldedBody options known) known (known.eraseAll gone)
        (Like (FoldedBody options known)) (settled options functions run t)
        (settled options functions run (t.fold options (known.eraseAll gone))) :=
    fun t ht => (simulates_pushed hresolved hblind hcalls hP ht).bind fun _ _ =>
      simulates_resolve hP
  induction rest generalizing first with
  | nil => exact hsettled first hfirst
  | cons next rest ih =>
    obtain ⟨hnext, hrest⟩ := List.forall_mem_cons.mp hrest
    exact (hsettled first hfirst).bind fun _ _ _ => ih hnext hrest

end

/-! ## All levels -/

section
variable {options : Options} {functions : Registry} {known : Dict Value}

/-- A name that no parameter has is not bound. -/
theorem get?_bindAll_of_ne {arguments : List Value} {name : String}
    {params : List (String × Nat)} (h : ∀ param ∈ params, param.1 ≠ name) (outer : Dict Value) :
    (params.foldl (fun locals param => locals.insert param.1
      (arguments[param.2]?.getD .undefined)) outer).get? name = outer.get? name := by
  induction params generalizing outer with
  | nil => rfl
  | cons param params ih =>
    obtain ⟨hparam, hparams⟩ := List.forall_mem_cons.mp h
    rw [List.foldl_cons, ih hparams, Dict.get?_insert_ne _ _ hparam]

/-- Of the parameters of one name the last is bound. -/
theorem get?_localsOf_param {c : Closure} {arguments : List Value} {name : String} {i : Nat}
    (hi : c.params[i]? = some name) (hlast : ∀ j, i < j → c.params[j]? ≠ some name) :
    (localsOf c arguments).get? name = some (arguments[i]?.getD .undefined) := by
  have hat : c.params.zipIdx[i]? = some (name, i) := by simp [List.getElem?_zipIdx, hi]
  have hbehind : ∀ param ∈ c.params.zipIdx.drop (i + 1), param.1 ≠ name := by
    rintro ⟨param, j⟩ hmem rfl
    obtain ⟨k, hk⟩ := List.mem_iff_getElem?.mp hmem
    rw [List.getElem?_drop, List.getElem?_zipIdx] at hk
    obtain ⟨other, hother, hpair⟩ := Option.map_eq_some_iff.mp hk
    obtain ⟨rfl, -⟩ := Prod.mk.inj hpair
    exact hlast _ (by omega) hother
  have hsplit : c.params.zipIdx
      = c.params.zipIdx.take i ++ (name, i) :: c.params.zipIdx.drop (i + 1) := by
    obtain ⟨hlt, hget⟩ := List.getElem?_eq_some_iff.mp hat
    rw [← hget, ← List.drop_eq_getElem_cons hlt, List.take_append_drop]
  unfold localsOf
  rw [hsplit, List.foldl_append, List.foldl_cons]
  refine (get?_bindAll_of_ne hbehind _).trans ?_
  exact Dict.get?_insert_self _ _ _

/-- A name that is no parameter is what it was where the function was defined; the name of the
function is the function if it was nothing there. -/
theorem get?_localsOf_captured {c : Closure} {arguments : List Value} {name : String}
    (hparams : name ∉ c.params) :
    (localsOf c arguments).get? name = c.captured.bind fun captured =>
      if c.name = name then some ((Dict.get? captured name).getD (.function (.closure c)))
      else Dict.get? captured name := by
  have hne : ∀ param ∈ c.params.zipIdx, param.1 ≠ name := by
    rintro ⟨param, i⟩ hmem rfl
    rw [(List.mem_zipIdx' hmem).2] at hparams
    exact hparams (List.getElem_mem _)
  refine (get?_bindAll_of_ne hne _).trans ?_
  cases c.captured with
  | none => rfl
  | some captured =>
    dsimp only [Option.bind_some]
    by_cases hname : c.name = name
    · subst hname
      rw [if_pos rfl]
      cases hown : Dict.get? captured c.name with
      | some v => simp [Dict.contains, hown]
      | none => simp [Dict.contains, hown, Dict.get?_insert_self]
    · rw [if_neg hname]
      split
      · rfl
      · rw [Dict.get?_insert_ne _ _ hname]

theorem get?_localsOf {c : Closure} {arguments : List Value} {name : String}
    (hname : c.name ≠ name) (hparams : name ∉ c.params)
    (hcaptured : ∀ locals ∈ c.captured, Dict.get? locals name = none) :
    (localsOf c arguments).get? name = none := by
  rw [get?_localsOf_captured hparams]
  cases hc : c.captured with
  | none => rfl
  | some captured => simpa [hname] using hcaptured captured hc

/-- At one depth: folded statements do what the statements do, and every program does the same on
variables that are alike. -/
structure RunsAlike (options : Options) (known : Dict Value) (run : Program → Evaluation Value) :
    Prop where
  folded : ∀ gone p q, StatementsRel options (known.eraseAll gone) p q →
    Simulates (FoldedBody options known) known (known.eraseAll gone)
      (Like (FoldedBody options known)) (run p) (run q)
  same : ∀ p, Simulates (FoldedBody options known) known [] (Like (FoldedBody options known))
    (run p) (run p)

/-- A call enters a body, or the folded body, where no parameter or local hides an active name. -/
theorem RunsAlike.calls {run : Program → Evaluation Value} (h : RunsAlike options known run) :
    CallsAlike (FoldedBody options known) known run := by
  intro active c d xs ys hcd hargs
  obtain ⟨hname, hparams, hbody, hcaptured⟩ := hcd.of_closure
  have hlocals := rel_localsOf hcd hargs
  have hsame : d.body = c.body → Simulates (FoldedBody options known) known active
      (Like (FoldedBody options known)) (withLocals (localsOf c xs) (run c.body))
      (withLocals (localsOf d ys) (run d.body)) := by
    intro hbody
    rw [hbody]
    exact (h.same c.body).withLocals hlocals fun _ hnone => nomatch hnone
  rcases hbody with rfl | hbody | ⟨t, gone, hfolds⟩
  · exact hsame rfl
  · exact hsame hbody
  · rw [hfolds.code, hfolds.folded]
    refine (h.folded gone _ _ (.code hfolds.spares)).withLocals hlocals fun name hactive => ?_
    refine get?_localsOf ?_ ?_ fun locals hl => hfolds.captured locals hl name hactive
    · rintro rfl
      rw [hfolds.name] at hactive
      cases hactive
    · intro hparam
      rw [hfolds.params name hparam] at hactive
      cases hactive

theorem runsAlike (hresolved : Resolved options functions known) (hblind : functions.Blind)
    (depth : Nat) : RunsAlike options known (run options functions depth) := by
  induction depth with
  | zero => exact ⟨fun _ _ _ _ => Simulates.fail _, fun _ => Simulates.fail _⟩
  | succ depth ih =>
    refine ⟨?_, fun p => simulates_execute ih.same hblind foldedBody_refl ih.calls p .nil⟩
    rintro gone _ _ ⟨first, rest, hfirst, hrest, rfl, rfl⟩
    -- everything that the statements run or call is run at the depth below
    rw [run, run, execute_statements, execute_statements]
    exact simulates_settledLast hresolved hblind ih.calls (ih.folded gone) hfirst hrest

end
end Evaluation

/-! ## Simplified expressions -/

/-- The body is that of the function, simplified with some of the known values or not at all. -/
def SimplifiedBody (options : Options) (known : Dict Value) (c : Closure) (body : Program) :
    Prop :=
  body = c.body ∨ ∃ gone, body = Program.fold options (known.eraseAll gone) c.body

/-- The same answer up to the bodies of functions, or an error of the same kind with the same
message. -/
inductive SameOutcome (bodies : Closure → Program → Prop) :
    Except Error Value → Except Error Value → Prop
  | ok {v w : Value} (h : Like bodies v w) : SameOutcome bodies (.ok v) (.ok w)
  | error {e e' : Error} (kind : e.kind = e'.kind) (message : e.message = e'.message) :
      SameOutcome bodies (.error e) (.error e')

/-- **Simplification preserves meaning.**  Let nothing in the expression store to a known name, and
let every known value but functions be what its name means to the evaluator.  Then on all variables
that have the known values the simplified expression gives the same answer, or an error of the same
kind with the same message, leaves the same variables, and calls the same functions of the host in
the same order with the same arguments; functions may differ by simplified bodies. -/
theorem simplify_preserves {e : Expression} {t : Term} (hcode : e.program = t.code)
    {known : Dict Value} (hspares : t.Spares known)
    (hresolved : Resolved e.options e.functions known) (hblind : e.functions.Blind)
    {context : Context}
    (hagree : ∀ name v, known.get? name = some v → context.globals.get? name = some v) :
    SameOutcome (SimplifiedBody e.options known) (e.evaluate context).1
        ((e.simplify known).evaluate context).1 ∧
      ContextLike (SimplifiedBody e.options known) (e.evaluate context).2
        ((e.simplify known).evaluate context).2 := by
  have hbodies : ∀ c body, FoldedBody e.options known c body →
      SimplifiedBody e.options known c body := by
    rintro c body (hbody | ⟨t, gone, hfolds⟩)
    · exact .inl hbody
    · exact .inr ⟨gone, by rw [hfolds.folded, hfolds.code, fold_code]⟩
  have hstart : Evaluation.Tracks (FoldedBody e.options known) known (known.eraseAll [])
      { context with } { context with } := by
    refine ⟨⟨likeEntries_refl _, rfl, ?_⟩, .none, hagree, ?_, fun _ _ h => h⟩
    · exact List.forall₂_same.mpr fun call _ => ⟨rfl, rfl, likeAll_refl _⟩
    · rintro _ ⟨⟩
  have hrun := (Evaluation.runsAlike hresolved hblind e.options.maxDepth).folded [] t.code _
    (.code hspares) _ _ hstart
  rw [show known.eraseAll [] = known from rfl, ← hcode] at hrun
  have hcode' : (e.simplify known).program = (t.fold e.options known).code := by
    rw [Expression.program_simplify, hcode, fold_code]
  rw [← hcode'] at hrun
  cases hr : Evaluation.run e.options e.functions e.options.maxDepth e.program { context with } with
  | ok v s =>
    cases hr' : Evaluation.run e.options e.functions e.options.maxDepth
        (e.simplify known).program { context with } with
    | error error s' => rw [hr, hr'] at hrun; cases hrun
    | ok w s' =>
      rw [hr, hr'] at hrun
      cases hrun with
      | ok h hs =>
        rw [Expression.evaluate_of_ok hr, @Expression.evaluate_of_ok (e.simplify known) _ _ _ hr']
        exact ⟨.ok (h.mono hbodies), hs.context.mono hbodies⟩
  | error error s =>
    cases hr' : Evaluation.run e.options e.functions e.options.maxDepth
        (e.simplify known).program { context with } with
    | ok w s' => rw [hr, hr'] at hrun; cases hrun
    | error error' s' =>
      rw [hr, hr'] at hrun
      cases hrun with
      | error _ hs =>
        obtain ⟨named, hevaluate, hfault⟩ := Expression.evaluate_of_error hr
        obtain ⟨named', hevaluate', hfault'⟩ :=
          @Expression.evaluate_of_error (e.simplify known) _ _ _ hr'
        rw [hevaluate, hevaluate']
        refine ⟨.error ?_ ?_, hs.context.mono hbodies⟩
        · rw [Error.kind, Error.kind, hfault, hfault']
        · rw [Error.message, Error.message, hfault, hfault']

theorem simplify_preserves_hidden_by_parameter :
    ∃ (c : Compiler) (e : Expression) (t : Term) (context : Context),
      let known : Dict Value := [("k", .bool true), ("m", .bool false)]
      c.compile "f(k) = id(k||m); f(m)" = .ok e ∧ e.program = t.code ∧ t.Spares known ∧
      (e.simplify known).program = [.sub [.name "f", .name "k", .sub [.var "id",
        .var "k", .literal (.bool false), .binary .concatenate, .call 1], .define 1, .endStatement,
        .var "f", .literal (.bool false), .call 1]] ∧
      Resolved e.options e.functions known ∧ e.functions.Blind ∧
      (∀ name v, known.get? name = some v → context.globals.get? name = some v) ∧
      SameOutcome (SimplifiedBody e.options known) (e.evaluate context).1
        ((e.simplify known).evaluate context).1 ∧
      ContextLike (SimplifiedBody e.options known) (e.evaluate context).2
        ((e.simplify known).evaluate context).2 := by
  let known : Dict Value := [("k", .bool true), ("m", .bool false)]
  let id : HostFunction := ⟨1, "id", fun _ arguments => .ok (arguments.headD .undefined)⟩
  let body : Term := .call (.var "id") [.binary .concatenate (.var "k") (.var "m")]
  let t : Term := .sequence (.define "f" ["k"] body) [.call (.var "f") [.var "m"]]
  let c : Compiler := { functions := ⟨[("id", id)]⟩, constants := [] }
  let e : Expression := ⟨t.code, c.options, c.functions, some "f(k) = id(k||m); f(m)"⟩
  have he : c.compile "f(k) = id(k||m); f(m)" = .ok e := rfl
  have hspares : t.Spares known := by
    have hvar : ∀ name, (Term.var name).Spares known :=
      fun _ => .intro (by rintro _ ⟨⟩) (by rintro _ ⟨⟩)
    have hpair : Term.Spares (.binary .concatenate (.var "k") (.var "m")) known :=
      .intro (by rintro _ ⟨⟩)
        (List.forall_mem_cons.mpr ⟨hvar "k", List.forall_mem_singleton.mpr (hvar "m")⟩)
    have hbody : body.Spares known := .intro (by rintro _ ⟨⟩)
      (List.forall_mem_cons.mpr ⟨hvar "id", List.forall_mem_singleton.mpr hpair⟩)
    have hcall : Term.Spares (.call (.var "f") [.var "m"]) known := .intro (by rintro _ ⟨⟩)
      (List.forall_mem_cons.mpr ⟨hvar "f", List.forall_mem_singleton.mpr (hvar "m")⟩)
    have hdefine : Term.Spares (.define "f" ["k"] body) known := by
      refine .intro ?_ (List.forall_mem_singleton.mpr hbody)
      rintro _ ⟨⟩
      rfl
    exact .intro (by rintro _ ⟨⟩)
      (List.forall_mem_cons.mpr ⟨hdefine, List.forall_mem_singleton.mpr hcall⟩)
  have hresolved : Resolved e.options e.functions known := by
    intro name v hv _
    simp only [known, Dict.get?] at hv
    split at hv
    · rename_i hname
      subst hname
      exact ⟨rfl, rfl, rfl⟩
    · split at hv
      · rename_i hname
        subst hname
        exact ⟨rfl, rfl, rfl⟩
      · cases hv
  have hblind : e.functions.Blind := by
    intro entry hentry bodies _ calls calls' arguments arguments' _ harguments
    obtain rfl := List.mem_singleton.mp hentry
    cases harguments with
    | nil => exact .ok (.same _)
    | cons hhead _ => exact .ok hhead
  have hagree : ∀ name v, known.get? name = some v →
      ({ globals := known } : Context).globals.get? name = some v := fun _ _ h => h
  obtain ⟨houtcome, hcontext⟩ := simplify_preserves rfl hspares hresolved hblind hagree
  refine ⟨c, e, t, { globals := known }, he, rfl, hspares, ?_, hresolved, hblind, hagree, houtcome,
    hcontext⟩
  rw [Expression.program_simplify]
  cbv

end Formula
