import Formula.Expression
import Formula.Proofs.Families

/-! # Where programs and functions come from

Every program of the library has been compiled from a text, simplified, or made by substitution,
and every function that a program defined was defined by one of these.  `Built` and `Stems` say
that: of expressions, and of values, whose functions come from such expressions.

The program of a built expression is the code of a term all of whose operators exist and whose
literals stem from such expressions (`Built.exists_term`), so to have been built is all that
evaluation needs.
-/
namespace Formula

mutual

/-- The expression was compiled, with constants that stem from built expressions, or it was
simplified with such values or made by substitution, out of built expressions. -/
inductive Built : Expression → Prop
  | compile {c : Compiler} {source : String} {e : Expression}
      (constants : ∀ entry ∈ c.constants, Stems entry.2) (h : c.compile source = .ok e) : Built e
  | simplify {e : Expression} {known : Dict Value} (h : Built e)
      (values : ∀ entry ∈ known, Stems entry.2) : Built (e.simplify known)
  | substitute {e replacement : Expression} (name : String) (h : Built e)
      (hr : Built replacement) : Built (e.substitute name replacement)

/-- The functions in the value are operators, functions of the host, and functions that built
expressions define. -/
inductive Stems : Value → Prop
  | undefined : Stems .undefined
  | null : Stems .null
  | bool (b : Bool) : Stems (.bool b)
  | number (x : Float) : Stems (.number x)
  | string (s : String) : Stems (.string s)
  | array {items : List Value} (h : ∀ v ∈ items, Stems v) : Stems (.array items)
  | object {fields : List (String × Value)} (h : ∀ field ∈ fields, Stems field.2) :
      Stems (.object fields)
  | named (op : NamedOp) : Stems (.function (.named op))
  | host (id : Nat) (name : String) : Stems (.function (.host id name))
  | closure {e : Expression} {t body : Term} {c : Closure} (h : Built e)
      (program : e.program = t.code) (defined : Term.Within (.define c.name c.params body) t)
      (hbody : c.body = body.code)
      (captured : ∀ locals ∈ c.captured, ∀ entry ∈ locals, Stems entry.2) :
      Stems (.function (.closure c))

end

/-- All values of a table stem from built expressions. -/
def AllStem (entries : Dict Value) : Prop := ∀ entry ∈ entries, Stems entry.2

/-- The term stands in the program of a built expression. -/
def Compiled (t : Term) : Prop :=
  ∃ e top, Built e ∧ e.program = top.code ∧ Term.Within t top

theorem Term.Within.trans {r s t : Term} (hr : Term.Within r s) (hs : Term.Within s t) :
    Term.Within r t := by
  induction hs with
  | self => exact hr
  | deeper hc _ ih => exact .deeper hc ih

theorem Compiled.child {t child : Term} (h : Compiled t) (hc : child ∈ t.children) :
    Compiled child := by
  obtain ⟨e, top, he, hp, ht⟩ := h
  exact ⟨e, top, he, hp, Term.Within.trans (.deeper hc (.self child)) ht⟩

/-- Values that stem from built expressions contain only such values. -/
theorem stems_family : Family Stems where
  undefined := .undefined
  bool := .bool
  number := .number
  string := .string
  array := .array
  items h := by
    cases h with
    | array h => exact h
  fields h := by
    cases h with
    | object h => exact h

/-! ## Built expressions -/

theorem exists_of_compile {c : Compiler} {source : String} {e : Expression}
    (h : c.compile source = .ok e) :
    ∃ t, Term.parse c.options c.constants source = .ok t ∧ e.program = t.code := by
  obtain ⟨t, ht, rfl⟩ := exists_of_map_eq_ok h
  exact ⟨t, ht, rfl⟩

/-- **A built expression has the code of a term**, whose operators exist and whose literals stem
from built expressions. -/
theorem Built.exists_term {e : Expression} (h : Built e) :
    ∃ t : Term, e.program = t.code ∧ t.Fits Stems := by
  refine @Built.rec (fun e _ => ∃ t : Term, e.program = t.code ∧ t.Fits Stems) (fun _ _ => True)
    ?compile ?simplify ?substitute ?_ ?_ ?_ ?_ ?_ ?_ ?_ ?_ ?_ ?_ e h
  case compile =>
    intro c source e constants h _
    obtain ⟨t, ht, hcode⟩ := exists_of_compile h
    exact ⟨t, hcode, fits_of_parse .number .string .bool
      (fun n v hv => Dict.All.get? constants hv) ht⟩
  case simplify =>
    intro e known h values ih _
    obtain ⟨t, hcode, hfits⟩ := ih
    refine ⟨t.fold e.options known, ?_, stems_family.fits_fold e.options values hfits⟩
    rw [Expression.program_simplify, hcode, fold_code]
  case substitute =>
    intro e replacement name h hr ih ihr
    obtain ⟨t, hcode, hfits⟩ := ih
    obtain ⟨r, hrcode, hrfits⟩ := ihr
    refine ⟨Term.substitute name r t, ?_, ?_⟩
    · rw [Expression.program_substitute, hcode, hrcode, substitute_code]
    · rw [Term.Fits, ← substitute_code]
      exact Program.fits_substitute hrfits t.code hfits
  all_goals intros; trivial

theorem Compiled.fits {t : Term} (h : Compiled t) : t.Fits Stems := by
  obtain ⟨e, top, he, hp, ht⟩ := h
  obtain ⟨other, hcode, hfits⟩ := he.exists_term
  refine Term.Fits.within ht ?_
  rw [Term.Fits, ← hp, hcode]
  exact hfits

/-- A function that a compiled term defines stems from its expression. -/
theorem Compiled.closure {name : String} {params : List String} {body : Term}
    (h : Compiled (.define name params body)) (id : Nat) {captured : Option (Dict Value)}
    (hc : ∀ locals ∈ captured, AllStem locals) :
    Stems (.function (.closure ⟨id, name, params, body.code, captured⟩)) := by
  obtain ⟨e, top, he, hp, ht⟩ := h
  exact .closure he hp ht rfl hc

end Formula
