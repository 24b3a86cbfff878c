import Formula.Proofs.Comparison
import Formula.Proofs.Stack

/-! # Comparing the code of terms

Two terms match if their code leaves operands whose values are alike whenever they are wanted
(`Comparison.Matches`).  A term that waits may match one that does not.  There is one lemma for each
construct: constructs of matching parts match.  With them a transformation of terms is compared
with the term it was made of by one induction over the term.
-/
namespace Formula
namespace Evaluation
namespace Comparison

section
variable (C : Comparison) (options : Options) (functions : Registry)
  (run run' : Program → Evaluation Value)

/-- What was left has values that are alike, whenever they are wanted. -/
def Leaves (x y : Pushed) : Prop :=
  C.Relates (Like C.bodies) (resolve run x.operand) (resolve run' y.operand)

/-- The code of the terms leaves operands with values that are alike. -/
def Matches (t u : Term) : Prop :=
  C.Relates (C.Leaves run run') (pushed options functions run t) (pushed options functions run' u)

/-- The terms have values that are alike where they are programs of their own. -/
def Defers (t u : Term) : Prop := C.Relates (Like C.bodies) (run t.code) (run' u.code)

/-- Conditions and results of two `case` blocks. -/
def ArmsDefer : List (Term × Term) → List (Term × Term) → Prop :=
  List.Forall₂ fun arm arm' => C.Defers run run' arm.1 arm'.1 ∧ C.Defers run run' arm.2 arm'.2

/-- Fields of two objects, with the same keys. -/
def FieldsMatch : List (String × Term) → List (String × Term) → Prop :=
  List.Forall₂ fun field field' =>
    field.1 = field'.1 ∧ C.Matches options functions run run' field.2 field'.2

end

section
variable {C : Comparison} {options : Options} {functions : Registry}
  {run run' : Program → Evaluation Value}

theorem Leaves.stands {x y : Pushed} (h : C.Leaves run run' x y) :
    C.Stands run run' x.operand y.operand :=
  .other (by cases x <;> nofun) (by cases y <;> nofun) h

theorem stands_waiting {p q : Program} (h : C.Relates (Like C.bodies) (run p) (run' q)) :
    C.Stands run run' (.waiting p) (.waiting q) :=
  .other nofun nofun h

theorem stands_armOperands {arms arms' : List (Term × Term)} (h : C.ArmsDefer run run' arms arms') :
    List.Forall₂ (C.Stands run run') (armOperands arms) (armOperands arms') := by
  induction h with
  | nil => exact .nil
  | cons harm _ ih => exact .cons (stands_waiting harm.1) (.cons (stands_waiting harm.2) ih)

theorem stands_operands {xs ys : List Pushed} (h : List.Forall₂ (C.Leaves run run') xs ys) :
    List.Forall₂ (C.Stands run run') (xs.map Pushed.operand) (ys.map Pushed.operand) := by
  rw [List.forall₂_map_left_iff, List.forall₂_map_right_iff]
  exact h.imp fun _ _ => Leaves.stands

/-- A value is left for a value. -/
theorem Relates.value {m n : Evaluation Value} (h : C.Relates (Like C.bodies) m n) :
    C.Relates (C.Leaves run run') (do return Pushed.value (← m)) (do return Pushed.value (← n)) :=
  h.bind fun _ _ hvw => .pure (.pure hvw)

/-! ## Rows of operands -/

theorem relates_pushedAll {terms terms' : List Term}
    (h : List.Forall₂ (C.Matches options functions run run') terms terms') :
    C.Relates (List.Forall₂ (C.Leaves run run')) (pushedAll options functions run terms)
      (pushedAll options functions run' terms') := by
  induction h with
  | nil => exact .pure .nil
  | cons head _ ih =>
    exact Relates.bind head fun _ _ hx => ih.bind fun _ _ hxs => .pure (.cons hx hxs)

theorem relates_pushedEntries {entries entries' : List (String × Term)}
    (h : C.FieldsMatch options functions run run' entries entries') :
    C.Relates (fun xs ys =>
        List.Forall₂ (C.Stands run run') (entryOperands xs) (entryOperands ys))
      (pushedEntries options functions run entries)
      (pushedEntries options functions run' entries') := by
  induction h with
  | nil => exact .pure .nil
  | @cons entry entry' _ _ head _ ih =>
    obtain ⟨key, t⟩ := entry
    obtain ⟨key', u⟩ := entry'
    obtain ⟨rfl, hmatch⟩ := head
    exact Relates.bind hmatch fun _ _ hx => ih.bind fun _ _ hxs =>
      .pure (.cons (.key key) (.cons hx.stands hxs))

/-! ## Constructs of matching parts -/

namespace Matches
variable {t t' u u' : Term}

theorem literal (v : Value) : C.Matches options functions run run' (.literal v) (.literal v) :=
  .pure (.pure (.same v))

theorem undefined : C.Matches options functions run run' .undefined .undefined :=
  .pure (.pure (.same _))

theorem var {name : String} (h : C.Relates (Like C.bodies) (lookup options functions name)
    (lookup options functions name)) :
    C.Matches options functions run run' (.var name) (.var name) := h.value

theorem unary (op : UnaryOp) (ht : C.Matches options functions run run' t t') :
    C.Matches options functions run run' (.unary op t) (.unary op t') := by
  rw [Matches, pushed, pushed]
  refine Relates.bind ht fun x y hxy => Relates.bind hxy fun v w hvw => ?_
  rw [like_unary hvw op]
  exact .value (.lift (OutcomeRel.refl .same _))

theorem binary (op : BinaryOp) (ht : C.Matches options functions run run' t t')
    (hu : C.Matches options functions run run' u u') :
    C.Matches options functions run run' (.binary op t u) (.binary op t' u') := by
  rw [Matches, pushed, pushed]
  refine Relates.bind ht fun x x' hx => Relates.bind hu fun y y' hy => ?_
  refine Relates.bind hx fun v v' hv => Relates.bind hy fun w w' hw => ?_
  exact .value (.lift (like_binary hv hw op))

theorem and (ht : C.Matches options functions run run' t t') (hu : C.Defers run run' u u') :
    C.Matches options functions run run' (.and t u) (.and t' u') := by
  rw [Matches, pushed, pushed]
  refine Relates.bind ht fun x x' hx => Relates.bind hx fun v v' hv => ?_
  rw [hv.isTruthy_eq]
  split
  · refine Relates.bind hu fun w w' hw => ?_
    rw [hw.isTruthy_eq]
    exact .pure (.pure (.same _))
  · exact .pure (.pure (.same _))

theorem or (ht : C.Matches options functions run run' t t') (hu : C.Defers run run' u u') :
    C.Matches options functions run run' (.or t u) (.or t' u') := by
  rw [Matches, pushed, pushed]
  refine Relates.bind ht fun x x' hx => Relates.bind hx fun v v' hv => ?_
  rw [hv.isTruthy_eq]
  split
  · exact .pure (.pure (.same _))
  · refine Relates.bind hu fun w w' hw => ?_
    rw [hw.isTruthy_eq]
    exact .pure (.pure (.same _))

theorem choose {s s' : Term} (ht : C.Matches options functions run run' t t')
    (hu : C.Defers run run' u u') (hs : C.Defers run run' s s') :
    C.Matches options functions run run' (.choose t u s) (.choose t' u' s') := by
  rw [Matches, pushed, pushed]
  refine Relates.bind ht fun x x' hx => Relates.bind hx fun v v' hv => .value ?_
  rw [hv.isTruthy_eq]
  split
  · exact hu
  · exact hs

theorem caseOf {subject subject' : Option Term} {arms arms' : List (Term × Term)}
    {otherwise otherwise' : Option Term}
    (hs : Option.Rel (C.Matches options functions run run') subject subject')
    (ha : C.ArmsDefer run run' arms arms')
    (ho : Option.Rel (C.Defers run run') otherwise otherwise') :
    C.Matches options functions run run' (.caseOf subject arms otherwise)
      (.caseOf subject' arms' otherwise') := by
  have hlast : Option.Rel (C.Stands run run') (otherwise.map fun t => Operand.waiting t.code)
      (otherwise'.map fun t => Operand.waiting t.code) := by
    cases ho with
    | none => exact .none
    | some h => exact .some (stands_waiting h)
  rw [Matches, pushed, pushed]
  cases hs with
  | none => exact .value (relates_chooseArm .none hlast (stands_armOperands ha))
  | some hs =>
    simp only [pushedSubject, resolveSubject, map_eq_pure_bind, bind_assoc, pure_bind]
    refine Relates.bind hs fun x x' hx => Relates.bind hx fun v v' hv => ?_
    exact .value (relates_chooseArm (.some hv) hlast (stands_armOperands ha))

theorem member (name : String) (ht : C.Matches options functions run run' t t') :
    C.Matches options functions run run' (.member t name) (.member t' name) := by
  rw [Matches, pushed, pushed]
  refine Relates.bind ht fun x x' hx => ?_
  split
  · exact Relates.bind hx fun v v' hv => .value (.lift (like_member hv name))
  · exact .fail _

theorem index (ht : C.Matches options functions run run' t t')
    (hu : C.Matches options functions run run' u u') :
    C.Matches options functions run run' (.index t u) (.index t' u') := by
  rw [Matches, pushed, pushed]
  refine Relates.bind ht fun x x' hx => Relates.bind hu fun y y' hy => ?_
  split
  · refine Relates.bind hx fun v v' hv => Relates.bind hy fun w w' hw => ?_
    exact .value (.lift (like_index hv hw))
  · exact .fail _

theorem call {arguments arguments' : List Term}
    (hcall : ∀ f g xs ys, Like C.bodies f g → List.Forall₂ (Like C.bodies) xs ys →
      C.Relates (Like C.bodies) (Evaluation.call functions run f xs)
        (Evaluation.call functions run' g ys))
    (ht : C.Matches options functions run run' t t')
    (ha : List.Forall₂ (C.Matches options functions run run') arguments arguments') :
    C.Matches options functions run run' (.call t arguments) (.call t' arguments') := by
  rw [Matches, pushed, pushed]
  refine Relates.bind ht fun x x' hx => (relates_pushedAll ha).bind fun ys ys' hys => ?_
  refine Relates.bind hx fun f g hfg => ?_
  refine (Relates.mapM (stands_operands hys) fun _ _ => Stands.resolve).bind fun vs ws hvs => ?_
  exact .value (hcall f g vs ws hfg hvs)

theorem array {items items' : List Term}
    (h : List.Forall₂ (C.Matches options functions run run') items items') :
    C.Matches options functions run run' (.array items) (.array items') := by
  rw [Matches, pushed, pushed]
  refine (relates_pushedAll h).bind fun xs xs' hxs => ?_
  exact (Relates.mapM (stands_operands hxs) fun _ _ => Stands.resolve).bind fun vs ws hvs =>
    .pure (.pure (.array hvs))

theorem object {fields fields' : List (String × Term)}
    (h : C.FieldsMatch options functions run run' fields fields') :
    C.Matches options functions run run' (.object fields) (.object fields') := by
  rw [Matches, pushed, pushed]
  refine (relates_pushedEntries h).bind fun xs xs' hxs => ?_
  exact (relates_fields hxs .nil).bind fun fs gs hfields => .pure (.pure (.object hfields))

theorem assign {root : String} {path : List String}
    (hassign : ∀ v w, Like C.bodies v w → C.Relates (fun _ _ => True)
      (Evaluation.assign options (targetName root path) v)
      (Evaluation.assign options (targetName root path) w))
    (ht : C.Defers run run' t t') :
    C.Matches options functions run run' (.assign root path t) (.assign root path t') := by
  rw [Matches, pushed, pushed]
  refine Relates.bind ht fun v w hvw => (hassign v w hvw).bind fun _ _ _ => ?_
  exact .pure (.pure hvw)

theorem define {name : String} {params : List String}
    (h : C.Relates (Like C.bodies) (makeFunction name params t.code)
      (makeFunction name params t'.code)) :
    C.Matches options functions run run' (.define name params t) (.define name params t') := by
  rw [Matches, pushed, pushed]
  exact h.value

theorem sequence {first first' : Term} {rest rest' : List Term}
    (h : C.Relates (Like C.bodies) (run (first.code ++ statementsCode rest))
      (run' (first'.code ++ statementsCode rest'))) :
    C.Matches options functions run run' (.sequence first rest) (.sequence first' rest') := by
  rw [Matches, pushed, pushed]
  exact .pure h

end Matches

/-! ## Statements -/

theorem relates_settled {t u : Term} (h : C.Matches options functions run run' t u) :
    C.Relates (Like C.bodies) (settled options functions run t)
      (settled options functions run' u) :=
  Relates.bind h fun _ _ hx => hx

theorem relates_settledLast {first first' : Term} {rest rest' : List Term}
    (hfirst : C.Matches options functions run run' first first')
    (hrest : List.Forall₂ (C.Matches options functions run run') rest rest') :
    C.Relates (Like C.bodies) (settledLast options functions run first rest)
      (settledLast options functions run' first' rest') := by
  induction hrest generalizing first first' with
  | nil => exact relates_settled hfirst
  | cons hnext _ ih => exact (relates_settled hfirst).bind fun _ _ _ => ih hnext

end
end Comparison
end Evaluation
end Formula
