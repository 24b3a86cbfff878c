import Formula.Proofs.Ceiling
import Formula.Proofs.Matching

/-! # Terms that change nothing

A term without assignments, definitions and calls only reads variables and computes.  It leaves
every scope as it was, and what it answers is settled by the variables that it reads: if it has a
value in one scope, it has the same value in every scope where its variables have the values they
had in the first, however deep it stands there, unless it stops at the ceiling
(`settled_elsewhere`).
-/
namespace Formula

/-- The term itself, leaving its parts aside, stores nothing and calls nothing. -/
def Term.Passive : Term → Prop
  | .assign _ _ _ | .define _ _ _ | .call _ _ => False
  | _ => True

/-- The term changes nothing, and its variables have in the scope `u` the values that they have in
the scope `s`. -/
def Term.Carries (s u : Scope) (t : Term) : Prop :=
  t.Everywhere fun part =>
    part.Passive ∧ ∀ name, part = .var name → ∀ v, s.get? name = some v → u.get? name = some v

namespace Evaluation

/-- The comparison of a run in the scope `s`, which may fail, with one in the scope `u`, which may
stop at the ceiling.  Neither scope changes. -/
def elsewhere (s u : Scope) : Comparison where
  bodies := fun c body => body = c.body
  scopes := fun a b => a = s ∧ b = u
  excusesLeft := fun _ => True
  excusesRight := Error.AtCeiling

section
variable {options : Options} {functions : Registry} {s u : Scope}

/-- A variable has in the other scope the value that it has in the first, if it has one. -/
theorem relates_lookup_elsewhere {name : String}
    (h : ∀ v, s.get? name = some v → u.get? name = some v) :
    (elsewhere s u).Relates (Like (elsewhere s u).bodies) (lookup options functions name)
      (lookup options functions name) := by
  refine (Comparison.Relates.lift (OutcomeRel.refl (R := Eq) (fun _ => rfl) _)).bind
    fun _ _ _ => ?_
  split
  · exact .pure (.same _)
  · split
    · exact .pure (.same _)
    · rintro _ _ ⟨rfl, rfl⟩
      rw [get_bind, get_bind]
      cases hv : Scope.get? _ name with
      | none => exact .left trivial _ _
      | some v =>
        rw [h v hv]
        exact .ok (.same v) ⟨rfl, rfl⟩

section
variable {run run' : Program → Evaluation Value}

/-- At one level, if the programs inside do the same. -/
theorem matches_elsewhere
    (hrun : ∀ first rest, Term.Carries s u first → (∀ t ∈ rest, Term.Carries s u t) →
      (elsewhere s u).Relates (Like (elsewhere s u).bodies)
        (run (first.code ++ statementsCode rest)) (run' (first.code ++ statementsCode rest)))
    {t : Term} (ht : t.Carries s u) : (elsewhere s u).Matches options functions run run' t t := by
  have hdefer : ∀ t : Term, t.Carries s u → (elsewhere s u).Defers run run' t t := by
    intro t ht
    have h := hrun t [] ht (by simp)
    rwa [statementsCode, List.append_nil] at h
  induction t with
  | literal v => exact .literal v
  | undefined => exact .undefined
  | var name => exact .var (relates_lookup_elsewhere (ht.here.2 name rfl))
  | unary op operand ih => exact .unary op (ih (ht.child (.head _)))
  | binary op left right ihl ihr =>
    exact .binary op (ihl (ht.child (.head _))) (ihr (ht.child (.tail _ (.head _))))
  | and left right ihl _ =>
    exact .and (ihl (ht.child (.head _))) (hdefer _ (ht.child (.tail _ (.head _))))
  | or left right ihl _ =>
    exact .or (ihl (ht.child (.head _))) (hdefer _ (ht.child (.tail _ (.head _))))
  | choose condition yes no ihc _ _ =>
    exact .choose (ihc (ht.child (.head _))) (hdefer _ (ht.child (.tail _ (.head _))))
      (hdefer _ (ht.child (.tail _ (.tail _ (.head _)))))
  | caseOf subject arms otherwise ihs _ _ =>
    refine .caseOf ?_ (List.forall₂_same.mpr fun arm harm => ?_) ?_
    · cases subject with
      | none => exact .none
      | some t => exact .some (ihs t rfl (ht.child (subject_mem_children rfl)))
    · obtain ⟨hcondition, hresult⟩ := mem_children_of_arm harm
      exact ⟨hdefer _ (ht.child hcondition), hdefer _ (ht.child hresult)⟩
    · cases otherwise with
      | none => exact .none
      | some t => exact .some (hdefer _ (ht.child (otherwise_mem_children rfl)))
  | member target name ih => exact .member name (ih (ht.child (.head _)))
  | index target key iht ihk =>
    exact .index (iht (ht.child (.head _))) (ihk (ht.child (.tail _ (.head _))))
  | call callee arguments _ _ => exact ht.here.1.elim
  | array items ih => exact .array (List.forall₂_same.mpr fun t hmem => ih t hmem (ht.child hmem))
  | object fields ih =>
    refine .object (List.forall₂_same.mpr fun field hmem => ⟨rfl, ?_⟩)
    exact ih field hmem (ht.child (List.mem_map_of_mem hmem))
  | assign root path value _ => exact ht.here.1.elim
  | define name params body _ => exact ht.here.1.elim
  | sequence first rest _ _ =>
    exact .sequence (hrun first rest (ht.child (.head _)) fun t hmem => ht.child (.tail _ hmem))

end

variable (options functions)

/-- At every depth on either side. -/
theorem relates_elsewhere (depth depth' : Nat) {first : Term} {rest : List Term}
    (hfirst : first.Carries s u) (hrest : ∀ t ∈ rest, Term.Carries s u t) :
    (elsewhere s u).Relates (Like (elsewhere s u).bodies)
      (run options functions depth (first.code ++ statementsCode rest))
      (run options functions depth' (first.code ++ statementsCode rest)) := by
  induction depth generalizing depth' first rest with
  | zero => exact fun s _ _ => .left trivial s _
  | succ depth ih =>
    cases depth' with
    | zero =>
      intro s s' _
      have hceiling : Error.AtCeiling (.ofFault (.evaluation (.tooDeep options.maxDepth))) :=
        ⟨options.maxDepth, rfl⟩
      exact .right hceiling _ s'
    | succ depth' =>
      rw [run, run, execute_statements, execute_statements]
      have hmatches : ∀ t : Term, t.Carries s u → (elsewhere s u).Matches options functions
          (run options functions depth) (run options functions depth') t t := fun t =>
        matches_elsewhere fun first rest hfirst hrest => ih depth' hfirst hrest
      exact Comparison.relates_settledLast (hmatches first hfirst)
        (List.forall₂_same.mpr fun t hmem => hmatches t (hrest t hmem))

variable {options functions}

/-- **A term that changes nothing has its value wherever its variables have theirs**, and leaves the
scope as it was, unless it stops at the ceiling. -/
theorem settled_elsewhere {t : Term} (ht : t.Carries s u) {depth : Nat} {v : Value} {s' : Scope}
    (hvalue : run options functions depth t.code s = .ok v s') (depth' : Nat) :
    (∃ e u', settled options functions (run options functions depth') t u = .error e u' ∧
        e.AtCeiling) ∨
      settled options functions (run options functions depth') t u = .ok v u := by
  have hnone : ∀ t ∈ ([] : List Term), t.Carries s u := fun _ h => nomatch h
  have hrelates := relates_elsewhere options functions depth (depth' + 1) ht hnone s u ⟨rfl, rfl⟩
  rw [statementsCode, List.append_nil, run_code, hvalue] at hrelates
  generalize settled options functions (run options functions depth') t u = y at hrelates
  cases hrelates with
  | ok h hs =>
    obtain ⟨-, rfl⟩ := hs
    exact .inr (by rw [Like.eq h])
  | right h x s' => exact .inl ⟨_, _, rfl, h⟩

end
end Evaluation
end Formula
