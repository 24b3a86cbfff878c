import Formula.Proofs.Gating
import Formula.Proofs.SubstitutionTrees

/-! # Constants are substituted

Where one more name stands for a value, a text compiles to what it compiles to without, with the
value in place of the variable at every depth; and it compiles if it does so without and gives the
name no other meaning: no assignment to it or to a path from it, no function and no parameter of
that name (`compile_defineConstant`).

This is reading with the same switches and with one constant less, where a term is translated by
putting the value in place of the variable (`Grammar.translation_insert`).
-/
namespace Formula

/-- The instruction stores to nothing that begins with the name, and the name is no parameter and
no function of it. -/
def Instr.LeavesFree (name : String) : Instr → Prop
  | .name path => pathRoot path ≠ name
  | _ => True

/-- A construct gives no meaning to a name if its instructions leave it free. -/
theorem Term.leavesFree_own {name : String} {t : Term} (hwords : t.Worded IsName) :
    (∀ instr ∈ t.own, Instr.LeavesFree name instr) ↔ t.BindsFree (· ≠ name) := by
  cases t with
  | assign root path value =>
    simp [Term.own, Instr.LeavesFree, Term.BindsFree, pathRoot_targetName hwords.1]
  | define function params body =>
    obtain ⟨hfunction, hparams⟩ := List.forall_mem_cons.mp hwords
    simp only [Term.own, List.cons_append, List.forall_mem_cons, List.forall_mem_append,
      List.forall_mem_map, List.not_mem_nil, false_implies, implies_true, and_true,
      Instr.LeavesFree, Term.BindsFree]
    rw [pathRoot_of_isName hfunction]
    refine and_congr_right fun _ => forall₂_congr fun param hparam => ?_
    rw [pathRoot_of_isName (hparams param hparam)]
  | object fields =>
    refine iff_of_true ?_ trivial
    simp only [Term.own, List.cons_append, List.forall_mem_cons, List.forall_mem_append,
      List.forall_mem_map, List.not_mem_nil, false_implies, implies_true, and_true]
    exact ⟨trivial, fun _ _ => trivial, trivial⟩
  | _ => simp [Term.own, Instr.LeavesFree, Term.BindsFree]

/-- No construct of a term gives a meaning to a name if the code of the term leaves it free. -/
theorem Term.leavesFree_code {name : String} {t : Term}
    (hwords : t.Everywhere (Term.Worded IsName)) :
    Program.Everywhere (Instr.LeavesFree name) t.code
      ↔ t.Everywhere (Term.BindsFree (· ≠ name)) :=
  everywhere_code.trans (forall₂_congr fun s hs => Term.leavesFree_own (hwords s hs))

namespace Grammar

/-- A value in place of a variable. -/
theorem translation_substitute (name : String) (v : Value) :
    Term.Translation (· ≠ name) (Term.substitute name (.literal v)) where
  literal _ := rfl
  undefined := rfl
  kept other h := if_neg h
  replaced other h := ⟨v, if_pos (not_not.mp h)⟩
  unary _ _ := rfl
  binary _ _ _ := rfl
  and _ _ := rfl
  or _ _ := rfl
  choose _ _ _ := rfl
  caseOf _ _ _ := by
    rw [Term.substitute, substituteOption_eq_map, substituteArms_eq_map, substituteOption_eq_map]
  member _ _ := rfl
  index _ _ := rfl
  call _ _ := by rw [Term.substitute, substituteTerms_eq_map]
  array _ := by rw [Term.substitute, substituteTerms_eq_map]
  object _ := by rw [Term.substitute, substituteFields_eq_map]
  assign _ _ _ := rfl
  define _ _ _ := rfl
  sequence _ _ := by rw [Term.substitute, substituteTerms_eq_map]

/-- One more name stands for a value on the left; no gate is shut. -/
theorem translation_insert {constants : Dict Value} {name : String}
    (hnew : constants.get? name = none) (v : Value) (options : Options) (finish : PlacedToken) :
    (Grammar.mk options (constants.insert name v) finish).Translation options constants
      options.ungated (· ≠ name) (Term.substitute name (.literal v)) where
  term := translation_substitute name v
  word n := by
    unfold word under
    dsimp only
    rw [Dict.get?_insert]
    by_cases hn : name = n
    · subst hn
      simp [hnew, Term.substitute]
    · rw [if_neg hn]
      cases constants.get? n with
      | none => exact (if_neg fun h => hn h.symm).symm
      | some w => rfl
  allows symbol fixity := by rw [options.ungated_allows, Bool.and_true]
  definition := (Bool.and_true _).symm
  array := (Bool.and_true _).symm
  access := (Bool.and_true _).symm
  conditional := rfl
  namedOp := rfl
  named op := options.ungated_allows _ _
  and := options.ungated_allows _ _
  or := options.ungated_allows _ _
  choose := options.ungated_allows _ _

end Grammar

/-- With one more constant a text is read as a term if it is read without it as a term that gives
the name no meaning, and then the value stands in place of the variable. -/
theorem Term.parse_insert {options : Options} {constants : Dict Value} {name : String}
    (hnew : constants.get? name = none) {v : Value} {source : String} {t : Term} :
    Term.parse options (constants.insert name v) source = .ok t ↔
      ∃ plain, Term.parse options constants source = .ok plain ∧
        plain.Everywhere (Term.BindsFree (· ≠ name)) ∧
        Term.substitute name (.literal v) plain = t := by
  have hpasses : ∀ u : Term, Grammar.Passes options.ungated (· ≠ name) u
      ↔ u.Everywhere (Term.BindsFree (· ≠ name)) := by
    intro u
    refine forall₂_congr fun part _ => and_iff_right ?_
    cases part with
    | assign root path value => exact ⟨options.ungated_allows _ _, fun _ => rfl⟩
    | unary op t => exact options.ungated_allows _ _
    | binary op left right => exact options.ungated_allows _ _
    | _ => trivial
  rw [Term.parse_translated (Grammar.translation_insert hnew v _ _) rfl]
  simp only [hpasses]

namespace Compiler

/-- **Constants are substituted.**  Let a name stand for nothing so far.  With the name standing for
a value, a source text compiles to a program if it compiles without that to a program in which, at
every depth, nothing that begins with the name is stored to and no function and no parameter has
it; and then the program is that one with the value in place of the variable. -/
theorem compile_defineConstant {c : Compiler} {name : String} (hnew : c.constants.get? name = none)
    (v : Value) (source : String) (program : Program) :
    ((c.defineConstant name v).compile source).map Expression.program = .ok program ↔
      ∃ plain, (c.compile source).map Expression.program = .ok plain ∧
        Program.Everywhere (Instr.LeavesFree name) plain ∧
        program = plain.substitute name [.literal v] := by
  rw [compile_program_eq_ok]
  constructor
  · rintro ⟨_, hparse, rfl⟩
    obtain ⟨plain, hplain, hfree, rfl⟩ := (Term.parse_insert hnew).mp hparse
    refine ⟨plain.code, compile_program_eq_ok.mpr ⟨plain, hplain, rfl⟩, ?_, ?_⟩
    · exact (Term.leavesFree_code (Term.worded_of_parse hplain)).mpr hfree
    · exact (substitute_code name (.literal v) plain).symm
  · rintro ⟨_, hcompile, hfree, rfl⟩
    obtain ⟨plain, hplain, rfl⟩ := compile_program_eq_ok.mp hcompile
    refine ⟨Term.substitute name (.literal v) plain, ?_, (substitute_code _ _ plain).symm⟩
    have hleaves := (Term.leavesFree_code (Term.worded_of_parse hplain)).mp hfree
    exact (Term.parse_insert hnew).mpr ⟨plain, hplain, hleaves, rfl⟩

/-- A constant stands for its value in the body of a function and in a call of it, and it can be no
parameter. -/
theorem compile_defineConstant_in_body :
    let c : Compiler := {}
    let known := c.defineConstant "flag" (.bool true)
    let definition := Term.define "f" ["x"] (.and (.var "x") (.var "flag"))
    let plain := (Term.sequence definition [.call (.var "f") [.var "flag"]]).code
    let hidden := (Term.define "f" ["flag"] (.var "flag")).code
    c.constants.get? "flag" = none ∧
      (c.compile "f(x) = x and flag; f(flag)").map Expression.program = .ok plain ∧
      (known.compile "f(x) = x and flag; f(flag)").map Expression.program
        = .ok (plain.substitute "flag" [.literal (.bool true)]) ∧
      (c.compile "f(flag) = flag").map Expression.program = .ok hidden ∧
      ∀ program, (known.compile "f(flag) = flag").map Expression.program ≠ .ok program := by
  intro c known definition plain hidden
  have hnew : c.constants.get? "flag" = none := rfl
  have hplain : (c.compile "f(x) = x and flag; f(flag)").map Expression.program = .ok plain := rfl
  have hhidden : (c.compile "f(flag) = flag").map Expression.program = .ok hidden := rfl
  have hfree : Program.Everywhere (Instr.LeavesFree "flag") plain := by
    have hf : pathRoot "f" ≠ "flag" := by decide
    have hx : pathRoot "x" ≠ "flag" := by decide
    simp [plain, definition, Term.code, statementsCode, operandsCode, Instr.Everywhere,
      Instr.LeavesFree, hf, hx]
  refine ⟨hnew, hplain, ?_, hhidden, fun program hcompile => ?_⟩
  · exact (compile_defineConstant hnew _ _ _).mpr ⟨plain, hplain, hfree, rfl⟩
  · obtain ⟨found, hfound, hleaves, -⟩ := (compile_defineConstant hnew _ _ _).mp hcompile
    obtain rfl := Except.ok.inj (hhidden.symm.trans hfound)
    have hroot : pathRoot "flag" = "flag" := by decide
    exact hleaves.2.1 hroot

end Compiler
end Formula
