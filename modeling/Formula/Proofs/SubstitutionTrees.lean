import Formula.Program.Substitution
import Formula.Proofs.Trees
import Mathlib.Data.List.Forall2

/-! # Substituting in trees

Substitution puts a program where the reference to a variable stood.  On the code of a term, with
the code of a term put in, that is the code of the term with every reference replaced
(`substitute_code`): the references are the variables of the term, and no name that is stored to,
no parameter and no name of a function is one.
-/
namespace Formula

section
variable (name : String) (replacement : Term)

mutual

/-- A term with every reference to the variable replaced, at every depth. -/
def Term.substitute : Term → Term
  | .literal v => .literal v
  | .undefined => .undefined
  | .var other => if other = name then replacement else .var other
  | .unary op operand => .unary op operand.substitute
  | .binary op left right => .binary op left.substitute right.substitute
  | .and left right => .and left.substitute right.substitute
  | .or left right => .or left.substitute right.substitute
  | .choose condition yes no => .choose condition.substitute yes.substitute no.substitute
  | .caseOf subject arms otherwise =>
    .caseOf (substituteOption subject) (substituteArms arms) (substituteOption otherwise)
  | .member target field => .member target.substitute field
  | .index target key => .index target.substitute key.substitute
  | .call callee arguments => .call callee.substitute (substituteTerms arguments)
  | .array items => .array (substituteTerms items)
  | .object fields => .object (substituteFields fields)
  | .assign root path value => .assign root path value.substitute
  | .define function params body => .define function params body.substitute
  | .sequence first rest => .sequence first.substitute (substituteTerms rest)

/-- Substitutes in a term if there is one. -/
def substituteOption : Option Term → Option Term
  | none => none
  | some t => some t.substitute

/-- Substitutes in terms in a row. -/
def substituteTerms : List Term → List Term
  | [] => []
  | t :: rest => t.substitute :: substituteTerms rest

/-- Substitutes in conditions and results. -/
def substituteArms : List (Term × Term) → List (Term × Term)
  | [] => []
  | (condition, result) :: rest => (condition.substitute, result.substitute) :: substituteArms rest

/-- Substitutes in the fields of an object. -/
def substituteFields : List (String × Term) → List (String × Term)
  | [] => []
  | (key, t) :: rest => (key, t.substitute) :: substituteFields rest

end

/-- Substituting in the code of a term makes the code of the term with the references replaced. -/
def Substitutes (t : Term) : Prop :=
  t.code.substitute name replacement.code = (Term.substitute name replacement t).code

variable {name replacement}

theorem substitute_operandsCode {terms : List Term}
    (h : ∀ t ∈ terms, Substitutes name replacement t) :
    (operandsCode terms).substitute name replacement.code
        = operandsCode (substituteTerms name replacement terms)
      ∧ terms.length = (substituteTerms name replacement terms).length := by
  induction terms with
  | nil => simp [operandsCode, substituteTerms]
  | cons t terms ih =>
    obtain ⟨ht, hterms⟩ := List.forall_mem_cons.mp h
    obtain ⟨hcode, hlen⟩ := ih hterms
    rw [Substitutes] at ht
    simp [operandsCode, substituteTerms, ht, hcode, hlen]

theorem substitute_statementsCode {terms : List Term}
    (h : ∀ t ∈ terms, Substitutes name replacement t) :
    (statementsCode terms).substitute name replacement.code
      = statementsCode (substituteTerms name replacement terms) := by
  induction terms with
  | nil => simp [statementsCode, substituteTerms]
  | cons t terms ih =>
    obtain ⟨ht, hterms⟩ := List.forall_mem_cons.mp h
    rw [Substitutes] at ht
    simp [statementsCode, substituteTerms, Instr.substitute, ht, ih hterms]

theorem substitute_fieldsCode {fields : List (String × Term)}
    (h : ∀ field ∈ fields, Substitutes name replacement field.2) :
    (fieldsCode fields).substitute name replacement.code
      = fieldsCode (substituteFields name replacement fields) := by
  induction fields with
  | nil => simp [fieldsCode, substituteFields]
  | cons field fields ih =>
    obtain ⟨key, t⟩ := field
    obtain ⟨ht, hterms⟩ := List.forall_mem_cons.mp h
    simp only [Substitutes] at ht
    simp [fieldsCode, substituteFields, Instr.substitute, ht, ih hterms]

theorem substitute_armsCode {arms : List (Term × Term)}
    (h : ∀ arm ∈ arms, Substitutes name replacement arm.1 ∧ Substitutes name replacement arm.2) :
    (armsCode arms).substitute name replacement.code
        = armsCode (substituteArms name replacement arms)
      ∧ arms.length = (substituteArms name replacement arms).length := by
  induction arms with
  | nil => simp [armsCode, substituteArms]
  | cons arm arms ih =>
    obtain ⟨condition, result⟩ := arm
    obtain ⟨⟨hc, hr⟩, harms⟩ := List.forall_mem_cons.mp h
    obtain ⟨hcode, hlen⟩ := ih harms
    rw [Substitutes] at hc hr
    simp [armsCode, substituteArms, Instr.substitute, hc, hr, hcode, hlen]

theorem substitute_names (names : List String) (program : Program) :
    Program.substitute (names.map .name) name program = names.map .name := by
  induction names with
  | nil => simp
  | cons other names ih => simp [Instr.substitute, ih]

theorem substitute_subjectCode {subject : Option Term}
    (h : ∀ t ∈ subject, Substitutes name replacement t) :
    (subjectCode subject).substitute name replacement.code
        = subjectCode (substituteOption name replacement subject)
      ∧ subject.isSome = (substituteOption name replacement subject).isSome := by
  cases subject with
  | none => simp [subjectCode, substituteOption]
  | some t => exact ⟨h t rfl, rfl⟩

theorem substitute_otherwiseCode {otherwise : Option Term}
    (h : ∀ t ∈ otherwise, Substitutes name replacement t) :
    (otherwiseCode otherwise).substitute name replacement.code
        = otherwiseCode (substituteOption name replacement otherwise)
      ∧ otherwise.isSome = (substituteOption name replacement otherwise).isSome := by
  cases otherwise with
  | none => simp [otherwiseCode, substituteOption]
  | some t =>
    have ht := h t rfl
    rw [Substitutes] at ht
    simp [otherwiseCode, substituteOption, Instr.substitute, ht]

end

/-- **Substitution in the code of a term is substitution in the term.** -/
theorem substitute_code (name : String) (replacement t : Term) :
    t.code.substitute name replacement.code = (Term.substitute name replacement t).code := by
  change Substitutes name replacement t
  induction t with
  | literal v => simp [Substitutes, Term.code, Term.substitute, Instr.substitute]
  | undefined => simp [Substitutes, Term.code, Term.substitute, Instr.substitute]
  | var other =>
    by_cases h : other = name <;>
      simp [Substitutes, Term.code, Term.substitute, Instr.substitute, h]
  | unary op operand ih =>
    rw [Substitutes] at ih ⊢
    simp [Term.code, Term.substitute, Instr.substitute, ih]
  | binary op left right ihl ihr =>
    rw [Substitutes] at ihl ihr ⊢
    simp [Term.code, Term.substitute, Instr.substitute, ihl, ihr]
  | and left right ihl ihr =>
    rw [Substitutes] at ihl ihr ⊢
    simp [Term.code, Term.substitute, Instr.substitute, ihl, ihr]
  | or left right ihl ihr =>
    rw [Substitutes] at ihl ihr ⊢
    simp [Term.code, Term.substitute, Instr.substitute, ihl, ihr]
  | choose condition yes no ihc ihy ihn =>
    rw [Substitutes] at ihc ihy ihn ⊢
    simp [Term.code, Term.substitute, Instr.substitute, ihc, ihy, ihn]
  | caseOf subject arms otherwise ihs iha iho =>
    obtain ⟨hs, hsome⟩ := substitute_subjectCode ihs
    obtain ⟨ha, hlen⟩ := substitute_armsCode iha
    obtain ⟨ho, hlast⟩ := substitute_otherwiseCode iho
    rw [Substitutes]
    simp only [Term.code, Term.substitute, Program.substitute_append, hs, ha, ho, ← hsome, ← hlen,
      ← hlast]
    simp [Instr.substitute]
  | member target field ih =>
    rw [Substitutes] at ih ⊢
    simp [Term.code, Term.substitute, Instr.substitute, ih]
  | index target key iht ihk =>
    rw [Substitutes] at iht ihk ⊢
    simp [Term.code, Term.substitute, Instr.substitute, iht, ihk]
  | call callee arguments ihc iha =>
    obtain ⟨ha, hlen⟩ := substitute_operandsCode iha
    rw [Substitutes] at ihc ⊢
    simp [Term.code, Term.substitute, Instr.substitute, ihc, ha, ← hlen]
  | array items ih =>
    obtain ⟨hi, hlen⟩ := substitute_operandsCode ih
    rw [Substitutes]
    simp [Term.code, Term.substitute, Instr.substitute, hi, ← hlen]
  | object fields ih =>
    rw [Substitutes]
    simp [Term.code, Term.substitute, Instr.substitute, substitute_fieldsCode ih]
  | assign root path value ih =>
    rw [Substitutes] at ih ⊢
    simp [Term.code, Term.substitute, Instr.substitute, ih]
  | define function params body ih =>
    rw [Substitutes] at ih ⊢
    simp [Term.code, Term.substitute, Instr.substitute, ih, substitute_names]
  | sequence first rest ihf ihr =>
    rw [Substitutes] at ihf ⊢
    simp [Term.code, Term.substitute, Instr.substitute, ihf, substitute_statementsCode ihr]

/-! ## Parts in rows -/

section
variable (name : String) (replacement : Term)

theorem substituteTerms_eq_map (terms : List Term) :
    substituteTerms name replacement terms = terms.map (Term.substitute name replacement) := by
  induction terms with
  | nil => rfl
  | cons t terms ih => rw [substituteTerms, ih, List.map_cons]

theorem substituteOption_eq_map (t : Option Term) :
    substituteOption name replacement t = t.map (Term.substitute name replacement) := by
  cases t <;> rfl

theorem substituteArms_eq_map (arms : List (Term × Term)) :
    substituteArms name replacement arms
      = arms.map (Prod.map (Term.substitute name replacement)
        (Term.substitute name replacement)) := by
  induction arms with
  | nil => rfl
  | cons arm arms ih => rw [substituteArms, ih, List.map_cons, Prod.map]

theorem substituteFields_eq_map (fields : List (String × Term)) :
    substituteFields name replacement fields
      = fields.map (Prod.map id (Term.substitute name replacement)) := by
  induction fields with
  | nil => rfl
  | cons field fields ih => rw [substituteFields, ih, List.map_cons, Prod.map, id]

end

/-! ## Terms in rows, one by one -/

section
variable {name : String} {replacement : Term} {R : Term → Term → Prop}

theorem forall₂_substituteTerms {terms : List Term}
    (h : ∀ t ∈ terms, R (Term.substitute name replacement t) t) :
    List.Forall₂ R (substituteTerms name replacement terms) terms := by
  induction terms with
  | nil => exact .nil
  | cons t terms ih =>
    obtain ⟨ht, hterms⟩ := List.forall_mem_cons.mp h
    exact .cons ht (ih hterms)

theorem optionRel_substituteOption {t : Option Term}
    (h : ∀ u ∈ t, R (Term.substitute name replacement u) u) :
    Option.Rel R (substituteOption name replacement t) t := by
  cases t with
  | none => exact .none
  | some t => exact .some (h t rfl)

theorem forall₂_substituteArms {arms : List (Term × Term)}
    (h : ∀ arm ∈ arms, R (Term.substitute name replacement arm.1) arm.1 ∧
      R (Term.substitute name replacement arm.2) arm.2) :
    List.Forall₂ (fun arm arm' => R arm.1 arm'.1 ∧ R arm.2 arm'.2)
      (substituteArms name replacement arms) arms := by
  induction arms with
  | nil => exact .nil
  | cons arm arms ih =>
    obtain ⟨harm, harms⟩ := List.forall_mem_cons.mp h
    exact .cons harm (ih harms)

theorem forall₂_substituteFields {fields : List (String × Term)}
    (h : ∀ field ∈ fields, R (Term.substitute name replacement field.2) field.2) :
    List.Forall₂ (fun field field' => field.1 = field'.1 ∧ R field.2 field'.2)
      (substituteFields name replacement fields) fields := by
  induction fields with
  | nil => exact .nil
  | cons field fields ih =>
    obtain ⟨hfield, hfields⟩ := List.forall_mem_cons.mp h
    exact .cons ⟨rfl, hfield⟩ (ih hfields)

end

end Formula
