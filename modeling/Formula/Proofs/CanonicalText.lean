import Formula.Proofs.Names
import Formula.Proofs.Rereading

/-! # Canonical text means what the expression means

Texts can spell all names and operators of the terms that are parsed from them
(`Term.spelled_of_parse`).  So if canonical text shows what every construct of a parsed term is, it
compiles to the program that it was made from (`compile_text`).

Where it shows too little it may mean something else (`compile_text_member_of_group`).
-/
namespace Formula

/-! ## Parsed terms are spelled -/

theorem Term.Spelled.worded {constants : Dict Value} {t : Term} (h : t.Spelled constants) :
    t.Worded (VariableName constants) := by
  cases t <;> first | exact h | trivial

/-- The constructs of the grammar are spelled, if everything is on, so that the words of `case`
blocks are no variables. -/
theorem spelled_keepsHere {g : Grammar} (hon : g.options.AllOn)
    (hfinish : g.finish.token = .finish) :
    g.KeepsHere Token.Worded (Term.Spelled g.constants) where
  finish := by
    rw [hfinish]
    rintro _ ⟨⟩
  literal _ := trivial
  undefined := trivial
  var n hn hcase hword hconstant := by
    -- the words of blocks are names where conditions are off, but everything is on
    obtain ⟨hletters, hkeyword⟩ := hn n rfl
    have hconditional : g.options.allowsConditional = true := hon.operators _
    exact ⟨⟨fun h => hcase ⟨hconditional, h⟩, fun h => hword ⟨hconditional, h⟩, hconstant⟩,
      hletters, hkeyword⟩
  unary _ _ hop := hop
  binary _ _ _ hop := hop
  and _ _ := trivial
  or _ _ := trivial
  choose _ _ _ := trivial
  caseOf _ _ _ hsome := hsome
  member _ _ _ hk hname := isWord_of_memberName? hk hname
  index _ _ := trivial
  call _ _ := trivial
  array _ := trivial
  object _ h := h
  assign _ _ _ _ hpath htarget :=
    Term.worded_of_pathOf? hpath fun s hs => (htarget s hs).worded
  define _ _ _ _ _ hname hparams hhead :=
    Term.worded_of_head hname hparams fun s hs => (hhead s hs).worded
  sequence _ _ := trivial

/-- **Texts can spell the names and operators of parsed terms.** -/
theorem Term.spelled_of_parse {options : Options} {constants : Dict Value} (hon : options.AllOn)
    {source : String} {t : Term} (h : Term.parse options constants source = .ok t) :
    t.Everywhere (Term.Spelled constants) :=
  Term.of_parse (Grammar.everywhere_keeps (spelled_keepsHere hon rfl))
    (holds_lexemesFrom (fun _ _ _ => Token.worded_of_scan) 0 0 source.toList) h

/-! ## The meaning of canonical text -/

theorem Value.ReadsBack.literalText_eq {v : Value} (h : v.ReadsBack) :
    v.literalText = String.ofList (spelled v.pieces) := by
  cases v with
  | bool b => cases b <;> rfl
  | number x => simp [literalText, pieces, Binary64.not_lt_zero h.1 h.2]
  | string s => simp [literalText, pieces]
  | _ => exact h.elim

theorem Term.Shown.written {constants : Dict Value} {t : Term} (h : t.Shown constants) :
    t.Written := by
  cases t with
  | literal v => exact (h.legible.literal v rfl).literalText_eq
  | unary op operand => exact h.spelled
  | _ => trivial

/-- The error, whatever text it names. -/
def Error.unnamed (e : Error) : Error := { e with source := none }

/-- The text of an expression shows only in the errors of a run. -/
theorem Expression.evaluate_source (e : Expression) (source : Option String) (context : Context) :
    (({ e with source } : Expression).evaluate context).1.mapError Error.unnamed
        = (e.evaluate context).1.mapError Error.unnamed ∧
      (({ e with source } : Expression).evaluate context).2 = (e.evaluate context).2 := by
  simp only [evaluate]
  obtain ⟨result, after⟩ := e.program.evaluate e.options e.functions context
  cases result with
  | ok v => exact ⟨rfl, rfl⟩
  | error error => cases source <;> cases e.source <;> exact ⟨rfl, rfl⟩

/-- **Canonical text means what the expression means**, where it shows what the constructs of the
expression are.  Let everything be on and the limit of nesting be high enough.  Then the canonical
text of a compiled expression compiles, to the same program, and in every context the two answer the
same value or the same error, and leave the same variables and the same calls of the host. -/
theorem compile_text {c : Compiler} (hon : c.options.AllOn) {source : String} {t : Term}
    (hparse : Term.parse c.options c.constants source = .ok t)
    (hlegible : t.Everywhere Term.Legible) (hdepth : 9 * t.height + 3 ≤ c.options.maxDepth) :
    ∃ e reread : Expression, c.compile source = .ok e ∧ c.compile e.text = .ok reread ∧
      reread.program = e.program ∧ ∀ context,
        (reread.evaluate context).1.mapError Error.unnamed
            = (e.evaluate context).1.mapError Error.unnamed ∧
          (reread.evaluate context).2 = (e.evaluate context).2 := by
  have hshown : t.Everywhere (Term.Shown c.constants) := fun s hs =>
    ⟨Term.spelled_of_parse hon hparse s hs, hlegible s hs⟩
  have htext : Program.text t.code = t.text :=
    Term.text_code fun s hs => (hshown s hs).written
  -- the two expressions differ only in the text that they remember
  let e : Expression := ⟨t.code, c.options, c.functions, some source⟩
  have hcompile : c.compile source = .ok e := by rw [Compiler.compile, hparse]; rfl
  have hreread : c.compile e.text = .ok { e with source := some e.text } := by
    have hagain := Term.parse_text hon hshown hdepth
    rw [← htext] at hagain
    rw [Compiler.compile, Expression.text, hagain]
    rfl
  exact ⟨e, _, hcompile, hreread, rfl, e.evaluate_source _⟩

theorem compile_text_call :
    let t : Term := .and (.call (.var "f") [.var "a", .literal (.number 1.5)])
      (.unary (.named .not) (.member (.var "b") "c"))
    let c : Compiler := { constants := [] }
    c.options.AllOn ∧ Term.parse c.options c.constants "f(a, 1.5) and not b.c" = .ok t ∧
      t.Everywhere Term.Legible ∧ 9 * t.height + 3 ≤ c.options.maxDepth ∧
      ∃ e reread : Expression, c.compile "f(a, 1.5) and not b.c" = .ok e ∧
        e.text = "(f(a, 1.5) and ((not b.c)))" ∧ c.compile e.text = .ok reread ∧
        reread.program = e.program := by
  intro t c
  have hon : c.options.AllOn := ⟨rfl, fun _ => rfl⟩
  have hscanned : (1.5 : Float) = Number.ofDecimalText ['1'] ['5'] 0 := by decide +kernel
  have hparse : Term.parse c.options c.constants "f(a, 1.5) and not b.c" = .ok t := by
    simp only [t, hscanned]
    rfl
  have hoperator : (NamedOp.ofName? "f").isSome = false ∧ (NamedOp.ofName? "b").isSome = false := by
    decide
  have hvar : ∀ name, (Term.var name).Everywhere Term.Legible := fun name =>
    Term.everywhere_of_children (by constructor <;> simp [Term.exposed]) (by simp [Term.children])
  have hread : (Value.number 1.5).ReadsBack := ⟨by decide +kernel, by decide +kernel⟩
  have hnumber : (Term.literal (.number 1.5)).Everywhere Term.Legible := by
    refine Term.everywhere_of_children ?_ (by simp [Term.children])
    constructor <;> simp [Term.exposed, hread]
  have hcall :
      (Term.call (.var "f") [.var "a", .literal (.number 1.5)]).Everywhere Term.Legible := by
    refine Term.everywhere_of_children ?_ (by simp [Term.children, hvar, hnumber])
    constructor <;> simp [Term.exposed, Term.namesOperator, hoperator]
  have hmember : (Term.member (.var "b") "c").Everywhere Term.Legible := by
    refine Term.everywhere_of_children ?_ (by simp [Term.children, hvar])
    constructor <;> simp [Term.exposed, Term.namesOperator, hoperator]
  have hnot : (Term.unary (.named .not) (.member (.var "b") "c")).Everywhere Term.Legible := by
    refine Term.everywhere_of_children ?_ (by simp [Term.children, hmember])
    constructor <;> simp [Term.exposed, Term.namesOperator, Term.head, Term.isGroup]
  have hlegible : t.Everywhere Term.Legible := by
    refine Term.everywhere_of_children ?_ (by simp [t, Term.children, hcall, hnot])
    constructor <;> simp [t, Term.exposed, Term.namesOperator]
  have hdepth : 9 * t.height + 3 ≤ c.options.maxDepth := by decide
  obtain ⟨e, reread, he, hreread, hprogram, -⟩ := compile_text hon hparse hlegible hdepth
  let compiled : Expression := ⟨t.code, c.options, c.functions, some "f(a, 1.5) and not b.c"⟩
  have hcompiled : c.compile "f(a, 1.5) and not b.c" = .ok compiled := by
    rw [Compiler.compile, hparse]
    rfl
  have htext : compiled.text = "(f(a, 1.5) and ((not b.c)))" := by decide +kernel
  obtain rfl : compiled = e := Except.ok.inj (hcompiled.symm.trans he)
  exact ⟨hon, hparse, hlegible, hdepth, compiled, reread, he, htext, hreread, hprogram⟩

set_option maxRecDepth 4096 in
/-- Canonical text does not show that the operand of an operator is a member of a group: read again,
the operator takes the group alone. -/
theorem compile_text_member_of_group : ∃ e reread : Expression,
    ({} : Compiler).compile "not ((true ? \x7ba: true\x7d : \x7b\x7d).a)" = .ok e ∧
      ({} : Compiler).compile e.text = .ok reread ∧ (e.evaluate {}).1 = .ok (.bool false) ∧
      (reread.evaluate {}).1 = .ok .undefined := by
  let c : Compiler := {}
  let group : Program := [.literal (.bool true), .sub [.objectStart, .property "a",
    .literal (.bool true), .objectEnd], .sub [.objectStart, .objectEnd], .choose]
  let e : Expression := ⟨group ++ [Instr.member "a", .unary (.named .not)], c.options, c.functions,
    some "not ((true ? \x7ba: true\x7d : \x7b\x7d).a)"⟩
  let reread : Expression := ⟨group ++ [Instr.unary (.named .not), .member "a"], c.options,
    c.functions, some "(not (true ? (\x7ba: true\x7d) : (\x7b\x7d)).a)"⟩
  have he : c.compile "not ((true ? \x7ba: true\x7d : \x7b\x7d).a)" = .ok e := rfl
  have htext : e.text = "(not (true ? (\x7ba: true\x7d) : (\x7b\x7d)).a)" := rfl
  have hreread : c.compile "(not (true ? (\x7ba: true\x7d) : (\x7b\x7d)).a)" = .ok reread := rfl
  exact ⟨e, reread, he, htext ▸ hreread, rfl, rfl⟩

end Formula
