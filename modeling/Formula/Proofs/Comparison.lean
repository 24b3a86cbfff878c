import Formula.Evaluation.Machine
import Formula.Proofs.Likeness

/-! # Comparing runs

Two computations are compared in scopes that correspond.  They have to answer what is alike, or
fail in the same way, and to leave scopes that correspond (`Comparison.Relates`).  A comparison may
excuse errors of one side: where one side stops with such an error, nothing is said of the other.

The machine treats all programs alike, so the comparison of two levels of it is proved here once
for every comparison (`Comparison.relates_execute`).  What depends on the comparison are the
instructions that read or store variables, make functions or call them; `Comparison.Handles` says
what has to be known of those.
-/
namespace Formula
namespace Evaluation

theorem get_bind {α : Type} (f : Scope → Evaluation α) (s : Scope) :
    (get >>= f) s = f s s := rfl

/-- A name that is not protected, of no registered function and of no operator that is on is its
variable. -/
theorem lookup_variable {options : Options} {functions : Registry} {name : String} {s : Scope}
    {v : Value} (hprotected : isProtected name = false)
    (hfunction : functions.contains name = false) (hop : options.namedOp? name = none)
    (hv : s.get? name = some v) : lookup options functions name s = .ok v s := by
  have hcheck : checkName name = .ok () := by simp [checkName, hprotected]
  have hnone : functions.get? name = none := by simpa [Registry.contains] using hfunction
  simp only [lookup, hcheck, hnone, hop, lift, pure_bind]
  rw [get_bind, hv]
  rfl

section
variable {α β : Type} {m : Evaluation α} {s u : Scope}

theorem bind_of_ok {a : α} (h : m s = .ok a u) (f : α → Evaluation β) : (m >>= f) s = f a u := by
  change EStateM.bind m f s = _
  rw [EStateM.bind, h]

theorem bind_of_error {e : Error} (h : m s = .error e u) (f : α → Evaluation β) :
    (m >>= f) s = .error e u := by
  change EStateM.bind m f s = _
  rw [EStateM.bind, h]

end

/-- What it takes for two runs to correspond. -/
structure Comparison where
  /-- The body on the right may stand for the body of the function on the left. -/
  bodies : Closure → Program → Prop
  /-- The scopes correspond. -/
  scopes : Scope → Scope → Prop
  /-- The left run may stop with the error, whatever the right run does. -/
  excusesLeft : Error → Prop
  /-- The right run may stop with the error, whatever the left run does. -/
  excusesRight : Error → Prop

namespace Comparison

/-- Related answers or the same error, in scopes that correspond, or an excused error. -/
inductive Outcome (C : Comparison) {α β : Type} (R : α → β → Prop) :
    EStateM.Result Error Scope α → EStateM.Result Error Scope β → Prop
  | ok {a : α} {b : β} {s s' : Scope} (h : R a b) (hs : C.scopes s s') :
      Outcome C R (.ok a s) (.ok b s')
  | error (e : Error) {s s' : Scope} (hs : C.scopes s s') : Outcome C R (.error e s) (.error e s')
  | left {e : Error} (h : C.excusesLeft e) (s : Scope) (y : EStateM.Result Error Scope β) :
      Outcome C R (.error e s) y
  | right {e : Error} (h : C.excusesRight e) (x : EStateM.Result Error Scope α) (s' : Scope) :
      Outcome C R x (.error e s')

/-- In scopes that correspond the computations do related things. -/
def Relates (C : Comparison) {α β : Type} (R : α → β → Prop) (m : Evaluation α)
    (n : Evaluation β) : Prop :=
  ∀ s s', C.scopes s s' → C.Outcome R (m s) (n s')

section
variable {C : Comparison} {α β γ δ : Type} {R : α → β → Prop} {S : γ → δ → Prop}

theorem Relates.pure {a : α} {b : β} (h : R a b) : C.Relates R (pure a) (pure b) :=
  fun _ _ hs => .ok h hs

theorem Relates.fail (fault : Fault) : C.Relates R (fail fault) (fail fault) :=
  fun _ _ hs => .error _ hs

theorem Relates.lift {x : Except Fault α} {y : Except Fault β} (h : OutcomeRel R x y) :
    C.Relates R (lift x) (lift y) := by
  cases h with
  | ok h => exact .pure h
  | error fault => exact .fail fault

theorem Relates.bind {m : Evaluation α} {n : Evaluation β} {f : α → Evaluation γ}
    {g : β → Evaluation δ} (h : C.Relates R m n)
    (hfg : ∀ a b, R a b → C.Relates S (f a) (g b)) : C.Relates S (m >>= f) (n >>= g) := by
  intro s s' hs
  change C.Outcome S (EStateM.bind m f s) (EStateM.bind n g s')
  unfold EStateM.bind
  have hmn := h s s' hs
  generalize m s = x at hmn
  generalize n s' = y at hmn
  cases hmn with
  | ok hab hs => exact hfg _ _ hab _ _ hs
  | error e hs => exact .error e hs
  | left h s y => exact .left h s _
  | right h x s' => exact .right h _ s'

theorem Relates.mono {m : Evaluation α} {n : Evaluation β} {R' : α → β → Prop}
    (h : C.Relates R m n) (hR : ∀ a b, R a b → R' a b) : C.Relates R' m n := by
  intro s s' hs
  have hmn := h s s' hs
  generalize m s = x at hmn
  generalize n s' = y at hmn
  cases hmn with
  | ok hab hs => exact .ok (hR _ _ hab) hs
  | error e hs => exact .error e hs
  | left h s y => exact .left h s y
  | right h x s' => exact .right h x s'

theorem Relates.mapM {f : α → Evaluation γ} {g : β → Evaluation δ} {xs : List α} {ys : List β}
    (h : List.Forall₂ R xs ys) (hfg : ∀ a b, R a b → C.Relates S (f a) (g b)) :
    C.Relates (List.Forall₂ S) (xs.mapM f) (ys.mapM g) := by
  induction h with
  | nil => exact .pure .nil
  | cons head _ ih =>
    rw [List.mapM_cons, List.mapM_cons]
    exact (hfg _ _ head).bind fun _ _ hhead => ih.bind fun _ _ htail => .pure (.cons hhead htail)

/-- Bodies of functions that correspond among the local variables of two calls. -/
theorem Relates.withLocals {D : Comparison} {m : Evaluation α} {n : Evaluation β}
    (h : D.Relates R m n) {locals locals' : Dict Value}
    (hleft : ∀ e, D.excusesLeft e → C.excusesLeft e)
    (hright : ∀ e, D.excusesRight e → C.excusesRight e)
    (henter : ∀ s s', C.scopes s s' →
      D.scopes { s with locals := some locals } { s' with locals := some locals' })
    (hleave : ∀ s s' u u', C.scopes s s' → D.scopes u u' →
      C.scopes { u with locals := s.locals } { u' with locals := s'.locals }) :
    C.Relates R (withLocals locals m) (withLocals locals' n) := by
  intro s s' hs
  have hmn := h _ _ (henter s s' hs)
  unfold Evaluation.withLocals
  generalize m { s with locals := some locals } = x at hmn
  generalize n { s' with locals := some locals' } = y at hmn
  cases hmn with
  | ok hab hu => exact .ok hab (hleave s s' _ _ hs hu)
  | error e hu => exact .error e (hleave s s' _ _ hs hu)
  | left h u y => exact .left (hleft _ h) _ _
  | right h x u' => exact .right (hright _ h) _ _

end

/-! ## Operands -/

section
variable (C : Comparison) (run run' : Program → Evaluation Value)

/-- Operands with values that are alike, whenever they are wanted; a key is not wanted. -/
inductive Stands : Operand → Operand → Prop
  | key (name : String) : Stands (.key name) (.key name)
  | other {x y : Operand} (hx : ∀ name, x ≠ .key name) (hy : ∀ name, y ≠ .key name)
      (h : C.Relates (Like C.bodies) (resolve run x) (resolve run' y)) : Stands x y

end

section
variable {C : Comparison} {run run' : Program → Evaluation Value}

theorem Stands.resolve {x y : Operand} (h : C.Stands run run' x y) :
    C.Relates (Like C.bodies) (resolve run x) (resolve run' y) := by
  cases h with
  | key name => exact .fail _
  | other _ _ h => exact h

theorem fields_of_not_key {run : Program → Evaluation Value} (entries : Dict Value) {x : Operand}
    (hx : ∀ name, x ≠ .key name) (rest : List Operand) :
    fields run entries (x :: rest) = Evaluation.fail (.evaluation .parity) := by
  cases x with
  | key name => exact absurd rfl (hx name)
  | _ => rfl

theorem relates_fields {xs ys : List Operand} (h : List.Forall₂ (C.Stands run run') xs ys)
    {fs gs : Dict Value} (hfields : Dict.Rel (Like C.bodies) fs gs) :
    C.Relates (Dict.Rel (Like C.bodies)) (fields run fs xs) (fields run' gs ys) := by
  -- a key and its value are taken together, so the induction is on how many operands are left
  induction hn : xs.length using Nat.strongRecOn generalizing xs ys fs gs with
  | ind n ih =>
    subst hn
    cases h with
    | nil => exact .pure hfields
    | cons hkey hrest =>
      cases hkey with
      | other hx hy _ =>
        rw [fields_of_not_key fs hx, fields_of_not_key gs hy]
        exact .fail _
      | key name =>
        cases hrest with
        | nil => exact .fail _
        | cons hx hrest =>
          refine hx.resolve.bind fun v w hvw => ?_
          exact ih _ (by simp only [List.length_cons]; omega) hrest (hfields.insert name hvw) rfl

theorem relates_chooseArm {subject subject' : Option Value}
    (hs : Option.Rel (Like C.bodies) subject subject') {last last' : Option Operand}
    (hlast : Option.Rel (C.Stands run run') last last') {xs ys : List Operand}
    (h : List.Forall₂ (C.Stands run run') xs ys) :
    C.Relates (Like C.bodies) (chooseArm run subject last xs)
      (chooseArm run' subject' last' ys) := by
  have hend : C.Relates (Like C.bodies) (chooseArm run subject last [])
      (chooseArm run' subject' last' []) := by
    cases hlast with
    | none => exact .pure (.same _)
    | some hlast => exact hlast.resolve
  -- a condition and its result are taken together
  induction hn : xs.length using Nat.strongRecOn generalizing xs ys with
  | ind n ih =>
    subst hn
    cases h with
    | nil => exact hend
    | cons hcondition hrest =>
      cases hrest with
      | nil => exact hend
      | @cons x y xs ys hresult hrest =>
        refine hcondition.resolve.bind fun v w hvw => ?_
        have hbranch : ∀ holds holds' : Bool, holds = holds' → C.Relates (Like C.bodies)
            (if holds then Evaluation.resolve run x else chooseArm run subject last xs)
            (if holds' then Evaluation.resolve run' y else chooseArm run' subject' last' ys) := by
          rintro holds _ rfl
          split
          · exact hresult.resolve
          · exact ih _ (by simp only [List.length_cons]; omega) hrest rfl
        cases hs with
        | none => exact hbranch _ _ hvw.isTruthy_eq
        | some hs => exact hbranch _ _ (hvw.same_eq hs)

/-- Functions that are alike do the same if the host does and the bodies do. -/
theorem relates_call {functions : Registry} {xs ys : List Value}
    (hhost : ∀ entry ∈ functions.functions,
      C.Relates (Like C.bodies) (callHost entry.2 xs) (callHost entry.2 ys))
    (hclosure : ∀ c d, Like C.bodies (.function (.closure c)) (.function (.closure d)) →
      C.Relates (Like C.bodies) (withLocals (localsOf c xs) (run c.body))
        (withLocals (localsOf d ys) (run' d.body)))
    {f g : Value} (hfg : Like C.bodies f g) (hargs : List.Forall₂ (Like C.bodies) xs ys) :
    C.Relates (Like C.bodies) (call functions run f xs) (call functions run' g ys) := by
  have hclosures := hfg
  cases hfg with
  | same =>
    cases f with
    | function f =>
      cases f with
      | named op =>
        have hhead : Like C.bodies (xs.headD .undefined) (ys.headD .undefined) := by
          cases hargs with
          | nil => exact .same _
          | cons head _ => exact head
        rw [call, call, like_named hhead op]
        exact .pure (.same _)
      | host id name =>
        rw [call, call]
        split
        · rename_i f hid
          obtain ⟨⟨name, g⟩, hfind, rfl⟩ := Option.map_eq_some_iff.mp hid
          exact hhost _ (List.mem_of_find?_eq_some hfind)
        · exact .fail _
      | closure c => exact hclosure _ _ hclosures
    | _ => exact .fail _
  | closure => exact hclosure _ _ hclosures
  | _ => exact .fail _

end
end Comparison

/-! ## The machine -/

/-- Operands of one sort with values that are alike, or with programs that `P` relates. -/
inductive OperandRel (bodies : Closure → Program → Prop) (P : Program → Program → Prop) :
    Operand → Operand → Prop
  | value {v w : Value} (h : Like bodies v w) : OperandRel bodies P (.value v) (.value w)
  | waiting {p q : Program} (h : P p q) : OperandRel bodies P (.waiting p) (.waiting q)
  | name (path : String) : OperandRel bodies P (.name path) (.name path)
  | mark : OperandRel bodies P .mark .mark
  | key (name : String) : OperandRel bodies P (.key name) (.key name)

namespace Comparison
section
variable {C : Comparison} {run run' : Program → Evaluation Value} {P : Program → Program → Prop}
  {stack stack' : List Operand}

theorem stands_of_operandRel (hP : ∀ p q, P p q → C.Relates (Like C.bodies) (run p) (run' q))
    {x y : Operand} (h : OperandRel C.bodies P x y) : C.Stands run run' x y := by
  cases h with
  | key name => exact .key name
  | value h => exact .other nofun nofun (.pure h)
  | waiting h => exact .other nofun nofun (hP _ _ h)
  | name path => exact .other nofun nofun (.pure (.same _))
  | mark => exact .other nofun nofun (.fail _)

/-- An answer and the stack below it. -/
def Above {α β : Type} (bodies : Closure → Program → Prop) (P : Program → Program → Prop)
    (R : α → β → Prop) (x : α × List Operand) (y : β × List Operand) : Prop :=
  R x.1 y.1 ∧ List.Forall₂ (OperandRel bodies P) x.2 y.2

theorem relates_pop (h : List.Forall₂ (OperandRel C.bodies P) stack stack') :
    C.Relates (Above C.bodies P (OperandRel C.bodies P)) (pop stack) (pop stack') := by
  cases h with
  | nil => exact .fail _
  | cons head tail => exact .pure ⟨head, tail⟩

theorem relates_popMany (n : Nat) (h : List.Forall₂ (OperandRel C.bodies P) stack stack') :
    C.Relates (Above C.bodies P (List.Forall₂ (OperandRel C.bodies P))) (popMany n stack)
      (popMany n stack') := by
  unfold popMany
  rw [h.length_eq]
  split
  · exact .pure ⟨List.rel_reverse (List.forall₂_take n h), List.forall₂_drop n h⟩
  · exact .fail _

theorem relates_popToMark {above above' : List Operand}
    (ha : List.Forall₂ (OperandRel C.bodies P) above above')
    (h : List.Forall₂ (OperandRel C.bodies P) stack stack') :
    C.Relates (Above C.bodies P (List.Forall₂ (OperandRel C.bodies P))) (popToMark above stack)
      (popToMark above' stack') := by
  induction h generalizing above above' with
  | nil => exact .fail _
  | cons head tail ih =>
    have hnext := ih (.cons head ha)
    cases head with
    | mark => exact .pure ⟨ha, tail⟩
    | _ => exact hnext

theorem relates_popNames (n : Nat) (names : List String)
    (h : List.Forall₂ (OperandRel C.bodies P) stack stack') :
    C.Relates (Above C.bodies P Eq) (popNames n names stack) (popNames n names stack') := by
  induction n generalizing names stack stack' with
  | zero => exact .pure ⟨rfl, h⟩
  | succ n ih =>
    refine (relates_pop h).bind fun ⟨x, rest⟩ ⟨y, rest'⟩ hxy => ?_
    obtain ⟨hoperand, hrest⟩ := hxy
    cases hoperand with
    | name path => exact ih (path :: names) hrest
    | _ => exact .fail _

/-- What has to be known of an instruction that reads or stores variables, makes a function, calls
one, or puts a program aside. -/
structure Handles (C : Comparison) (options : Options) (functions : Registry)
    (run run' : Program → Evaluation Value) (P : Program → Program → Prop) (instr : Instr) :
    Prop where
  var : ∀ name, instr = .var name → C.Relates (Like C.bodies) (lookup options functions name)
    (lookup options functions name)
  sub : ∀ body, instr = .sub body → P body body
  assign : instr = .assign → ∀ path v w, Like C.bodies v w → C.Relates (fun _ _ => True)
    (Evaluation.assign options path v) (Evaluation.assign options path w)
  define : ∀ n, instr = .define n → ∀ name params p q, P p q → C.Relates (Like C.bodies)
    (makeFunction name params p) (makeFunction name params q)
  call : ∀ n, instr = .call n → ∀ f g xs ys, Like C.bodies f g →
    List.Forall₂ (Like C.bodies) xs ys → C.Relates (Like C.bodies)
      (Evaluation.call functions run f xs) (Evaluation.call functions run' g ys)

theorem relates_define (params : Nat)
    (hmake : ∀ name names p q, P p q →
      C.Relates (Like C.bodies) (makeFunction name names p) (makeFunction name names q))
    (h : List.Forall₂ (OperandRel C.bodies P) stack stack') :
    C.Relates (Above C.bodies P (Like C.bodies)) (define params stack) (define params stack') := by
  refine (relates_pop h).bind fun ⟨x, rest⟩ ⟨y, rest'⟩ hxy => ?_
  obtain ⟨hoperand, hrest⟩ := hxy
  cases hoperand with
  | waiting hbody =>
    refine (relates_popNames params [] hrest).bind fun ⟨names, rest⟩ ⟨names', rest'⟩ hxy => ?_
    obtain ⟨hnames, hrest⟩ := hxy
    obtain rfl : names = names' := hnames
    refine (relates_pop hrest).bind fun ⟨x, rest⟩ ⟨y, rest'⟩ hxy => ?_
    obtain ⟨hoperand, hrest⟩ := hxy
    cases hoperand with
    | name path => exact (hmake path names _ _ hbody).bind fun f g hfg => .pure ⟨hfg, hrest⟩
    | _ => exact .fail _
  | _ => exact .fail _

variable (hP : ∀ p q, P p q → C.Relates (Like C.bodies) (run p) (run' q))
include hP

theorem relates_resolve {x y : Operand} (h : OperandRel C.bodies P x y) :
    C.Relates (Like C.bodies) (resolve run x) (resolve run' y) :=
  (stands_of_operandRel hP h).resolve

theorem relates_caseOf (subject : Bool) (arms : Nat) (otherwise : Bool)
    (h : List.Forall₂ (OperandRel C.bodies P) stack stack') :
    C.Relates (Above C.bodies P (Like C.bodies)) (caseOf run subject arms otherwise stack)
      (caseOf run' subject arms otherwise stack') := by
  unfold caseOf
  extract_lets withLast withLast'
  have hlast : ∀ last last' rest rest', Option.Rel (OperandRel C.bodies P) last last' →
      List.Forall₂ (OperandRel C.bodies P) rest rest' →
      C.Relates (Above C.bodies P (Like C.bodies)) (withLast (last, rest))
        (withLast' (last', rest')) := by
    intro last last' rest rest' hlast hrest
    have hlast : Option.Rel (C.Stands run run') last last' := by
      cases hlast with
      | none => exact .none
      | some h => exact .some (stands_of_operandRel hP h)
    refine (relates_popMany (2 * arms) hrest).bind fun ⟨pairs, rest⟩ ⟨pairs', rest'⟩ hxy => ?_
    obtain ⟨hpairs, hrest⟩ := hxy
    have hpairs : List.Forall₂ (C.Stands run run') pairs pairs' :=
      hpairs.imp fun _ _ => stands_of_operandRel hP
    have hchoose : ∀ compared compared' rest rest', Option.Rel (Like C.bodies) compared compared' →
        List.Forall₂ (OperandRel C.bodies P) rest rest' →
        C.Relates (Above C.bodies P (Like C.bodies))
          (chooseArm run compared last pairs >>= fun v => Pure.pure (v, rest))
          (chooseArm run' compared' last' pairs' >>= fun v => Pure.pure (v, rest')) := by
      intro compared compared' rest rest' hcompared hrest
      exact (relates_chooseArm hcompared hlast hpairs).bind fun v w hvw => .pure ⟨hvw, hrest⟩
    cases subject with
    | true =>
      refine (relates_pop hrest).bind fun ⟨x, rest⟩ ⟨y, rest'⟩ hxy => ?_
      exact (relates_resolve hP hxy.1).bind fun v w hvw => hchoose _ _ _ _ (.some hvw) hxy.2
    | false => exact hchoose _ _ _ _ .none hrest
  cases otherwise with
  | true =>
    refine (relates_pop h).bind fun ⟨x, rest⟩ ⟨y, rest'⟩ hxy => ?_
    exact hlast _ _ _ _ (.some hxy.1) hxy.2
  | false => exact hlast _ _ _ _ .none h

variable {options : Options} {functions : Registry}

/-- **One instruction does the same on stacks that correspond.** -/
theorem relates_step {instr : Instr} (hinstr : C.Handles options functions run run' P instr)
    (h : List.Forall₂ (OperandRel C.bodies P) stack stack') :
    C.Relates (List.Forall₂ (OperandRel C.bodies P)) (step options functions run instr stack)
      (step options functions run' instr stack') := by
  have hpush : ∀ {rest rest'} {m n : Evaluation Value},
      List.Forall₂ (OperandRel C.bodies P) rest rest' → C.Relates (Like C.bodies) m n →
      C.Relates (List.Forall₂ (OperandRel C.bodies P))
        (m >>= fun v => Pure.pure (.value v :: rest))
        (n >>= fun v => Pure.pure (.value v :: rest')) := by
    intro rest rest' m n hrest hmn
    exact hmn.bind fun v w hvw => .pure (.cons (.value hvw) hrest)
  cases instr with
  | literal v => exact .pure (.cons (.value (.same v)) h)
  | undefined => exact .pure (.cons (.value (.same _)) h)
  | var name => exact hpush h (hinstr.var name rfl)
  | name path => exact .pure (.cons (.name path) h)
  | sub body => exact .pure (.cons (.waiting (hinstr.sub body rfl)) h)
  | unary op =>
    refine (relates_pop h).bind fun ⟨x, rest⟩ ⟨y, rest'⟩ hxy => ?_
    refine (relates_resolve hP hxy.1).bind fun v w hvw => ?_
    rw [like_unary hvw op]
    exact hpush hxy.2 (.lift (OutcomeRel.refl .same _))
  | binary op =>
    refine (relates_pop h).bind fun ⟨y, rest⟩ ⟨y', rest'⟩ hy => ?_
    refine (relates_pop hy.2).bind fun ⟨x, rest⟩ ⟨x', rest'⟩ hx => ?_
    refine (relates_resolve hP hx.1).bind fun v v' hv => ?_
    refine (relates_resolve hP hy.1).bind fun w w' hw => ?_
    exact hpush hx.2 (.lift (like_binary hv hw op))
  | and =>
    refine (relates_pop h).bind fun ⟨y, rest⟩ ⟨y', rest'⟩ hy => ?_
    refine (relates_pop hy.2).bind fun ⟨x, rest⟩ ⟨x', rest'⟩ hx => ?_
    refine (relates_resolve hP hx.1).bind fun v v' hv => ?_
    rw [hv.isTruthy_eq]
    split
    · refine (relates_resolve hP hy.1).bind fun w w' hw => ?_
      rw [hw.isTruthy_eq]
      exact .pure (.cons (.value (.same _)) hx.2)
    · exact .pure (.cons (.value (.same _)) hx.2)
  | or =>
    refine (relates_pop h).bind fun ⟨y, rest⟩ ⟨y', rest'⟩ hy => ?_
    refine (relates_pop hy.2).bind fun ⟨x, rest⟩ ⟨x', rest'⟩ hx => ?_
    refine (relates_resolve hP hx.1).bind fun v v' hv => ?_
    rw [hv.isTruthy_eq]
    split
    · exact .pure (.cons (.value (.same _)) hx.2)
    · refine (relates_resolve hP hy.1).bind fun w w' hw => ?_
      rw [hw.isTruthy_eq]
      exact .pure (.cons (.value (.same _)) hx.2)
  | index =>
    refine (relates_pop h).bind fun ⟨y, rest⟩ ⟨y', rest'⟩ hy => ?_
    refine (relates_pop hy.2).bind fun ⟨x, rest⟩ ⟨x', rest'⟩ hx => ?_
    dsimp only
    split
    · refine (relates_resolve hP hx.1).bind fun v v' hv => ?_
      refine (relates_resolve hP hy.1).bind fun w w' hw => ?_
      exact hpush hx.2 (.lift (like_index hv hw))
    · exact .fail _
  | assign =>
    refine (relates_pop h).bind fun ⟨y, rest⟩ ⟨y', rest'⟩ hy => ?_
    refine (relates_pop hy.2).bind fun ⟨x, rest⟩ ⟨x', rest'⟩ hx => ?_
    obtain ⟨hx, hrest⟩ := hx
    cases hx with
    | name path =>
      refine (relates_resolve hP hy.1).bind fun v v' hv => ?_
      exact (hinstr.assign rfl path v v' hv).bind fun _ _ _ => .pure (.cons (.value hv) hrest)
    | _ => exact .fail _
  | choose =>
    refine (relates_pop h).bind fun ⟨no, rest⟩ ⟨no', rest'⟩ hn => ?_
    refine (relates_pop hn.2).bind fun ⟨yes, rest⟩ ⟨yes', rest'⟩ hy => ?_
    refine (relates_pop hy.2).bind fun ⟨x, rest⟩ ⟨x', rest'⟩ hx => ?_
    refine (relates_resolve hP hx.1).bind fun v v' hv => ?_
    rw [hv.isTruthy_eq]
    refine hpush hx.2 (relates_resolve hP ?_)
    split
    · exact hy.1
    · exact hn.1
  | unknownTernary spelling => exact (relates_popMany 3 h).bind fun _ _ _ => .fail _
  | call arguments =>
    refine (relates_popMany arguments h).bind fun ⟨ys, rest⟩ ⟨ys', rest'⟩ hy => ?_
    refine (relates_pop hy.2).bind fun ⟨x, rest⟩ ⟨x', rest'⟩ hx => ?_
    refine (relates_resolve hP hx.1).bind fun f g hfg => ?_
    refine (Relates.mapM hy.1 fun _ _ => relates_resolve hP).bind fun vs ws hargs => ?_
    exact hpush hx.2 (hinstr.call arguments rfl f g vs ws hfg hargs)
  | define params =>
    exact (relates_define params (hinstr.define params rfl) h).bind fun ⟨f, rest⟩ ⟨g, rest'⟩ hfg =>
      .pure (.cons (.value hfg.1) hfg.2)
  | member name =>
    unfold step
    dsimp only
    split
    · refine (relates_pop h).bind fun ⟨x, rest⟩ ⟨x', rest'⟩ hx => ?_
      refine (relates_resolve hP hx.1).bind fun v v' hv => ?_
      exact hpush hx.2 (.lift (like_member hv name))
    · exact .fail _
  | array items =>
    refine (relates_popMany items h).bind fun ⟨xs, rest⟩ ⟨xs', rest'⟩ hx => ?_
    exact (Relates.mapM hx.1 fun _ _ => relates_resolve hP).bind fun vs ws hvs =>
      .pure (.cons (.value (.array hvs)) hx.2)
  | objectStart => exact .pure (.cons .mark h)
  | property key => exact .pure (.cons (.key key) h)
  | objectEnd =>
    refine (relates_popToMark .nil h).bind fun ⟨xs, rest⟩ ⟨xs', rest'⟩ hx => ?_
    exact (relates_fields (hx.1.imp fun _ _ => stands_of_operandRel hP) .nil).bind
      fun fs gs hfields => .pure (.cons (.value (.object hfields)) hx.2)
  | caseOf subject arms otherwise =>
    exact (relates_caseOf hP subject arms otherwise h).bind fun ⟨v, rest⟩ ⟨w, rest'⟩ hvw =>
      .pure (.cons (.value hvw.1) hvw.2)
  | endStatement =>
    refine (relates_pop h).bind fun ⟨x, rest⟩ ⟨x', rest'⟩ hx => ?_
    exact (relates_resolve hP hx.1).bind fun _ _ _ => .pure hx.2

/-- **A program does the same on stacks that correspond.** -/
theorem relates_execute {program : Program}
    (hprogram : ∀ instr ∈ program, C.Handles options functions run run' P instr)
    (h : List.Forall₂ (OperandRel C.bodies P) stack stack') :
    C.Relates (Like C.bodies) (execute options functions run program stack)
      (execute options functions run' program stack') := by
  induction program generalizing stack stack' with
  | nil =>
    cases h with
    | nil => exact .pure (.same _)
    | cons head tail =>
      cases tail with
      | nil => exact relates_resolve hP head
      | cons _ _ => exact .fail _
  | cons instr rest ih =>
    obtain ⟨hinstr, hrest⟩ := List.forall_mem_cons.mp hprogram
    exact (relates_step hP hinstr h).bind fun _ _ hstack => ih hrest hstack

end
end Comparison
end Evaluation
end Formula
