import Formula.Expression
import Formula.Proofs.Translation

/-! # Switches filter programs

Switching operators off takes programs away and changes none.  With some of the switches of
`Options.gates` off, a text compiles to a program if it compiles to it with everything on and no
construct in the program is switched off, at any depth (`compile_gated`).

What a switch turns off is written down here as a table of instructions (`Instr.Under`), apart from
what readers ask when they meet an operator: that they ask for the switch of the table is a part of
the theorem (`switch?_of_binary`, `switch?_of_unary`).  The rest is reading under other switches and
with the same constants, where no term is changed (`Grammar.translation_gated`).
-/
namespace Formula

namespace Options
variable (options : Options)

/-- The switches that filter programs. -/
def gates : List String :=
  ["add", "subtract", "multiply", "divide", "remainder", "power", "factorial", "comparison",
    "concatenate", "in", "assignment", "fndef", "array"]

/-- The switch is off. -/
def TurnedOff (switch : String) : Prop := options.operators.get? switch = some false

/-- No other switches are off. -/
def OnlyGates : Prop := ∀ switch, options.TurnedOff switch → switch ∈ gates

/-- Everything is on, under the same limit of nesting. -/
def ungated : Options := { maxDepth := options.maxDepth }

theorem ungated_allows (symbol : String) (fixity : Fixity) :
    options.ungated.allows symbol fixity = true := by
  unfold allows
  split <;> rfl

variable {options}

/-- Switches that are not in the table are on. -/
theorem isOn_iff {switch : String} : options.isOn switch = true ↔ ¬ options.TurnedOff switch := by
  unfold isOn TurnedOff
  cases options.operators.get? switch with
  | none => simp
  | some on => cases on <;> simp

theorem OnlyGates.isOn (h : options.OnlyGates) {switch : String} (hswitch : switch ∉ gates) :
    options.isOn switch = true :=
  isOn_iff.mpr fun hoff => hswitch (h switch hoff)

/-- None of the gates governs a named operator. -/
theorem OnlyGates.allows_named (h : options.OnlyGates) (op : NamedOp) :
    options.allows op.name .before = true := by
  have hswitch : ∃ switch, switch? op.name .before = some switch ∧ switch ∉ gates := by
    cases op <;> exact ⟨_, rfl, by decide⟩
  obtain ⟨switch, hsome, hgates⟩ := hswitch
  rw [allows, hsome]
  exact h.isOn hgates

/-- Which names are operators does not depend on the gates. -/
theorem OnlyGates.namedOp?_eq (h : options.OnlyGates) :
    options.namedOp? = options.ungated.namedOp? := by
  funext name
  unfold namedOp?
  rw [if_pos (options.ungated_allows name .before)]
  cases hname : NamedOp.ofName? name with
  | none => rw [ite_self]
  | some op => rw [if_pos (NamedOp.name_of_ofName? hname ▸ h.allows_named op)]

end Options

/-! ## What the switches turn off -/

/-- The instructions that a switch turns off. -/
inductive Instr.Under : String → Instr → Prop
  | add : Under "add" (.binary .add)
  | plus : Under "add" (.unary .plus)
  | subtract : Under "subtract" (.binary .subtract)
  | negate : Under "subtract" (.unary .negate)
  | multiply : Under "multiply" (.binary .multiply)
  | divide : Under "divide" (.binary .divide)
  | remainder : Under "remainder" (.binary .remainder)
  | power : Under "power" (.binary .power)
  | factorial : Under "factorial" (.unary .factorial)
  | equal : Under "comparison" (.binary .equal)
  | notEqual : Under "comparison" (.binary .notEqual)
  | less : Under "comparison" (.binary .less)
  | lessEqual : Under "comparison" (.binary .lessEqual)
  | greater : Under "comparison" (.binary .greater)
  | greaterEqual : Under "comparison" (.binary .greaterEqual)
  | concatenate : Under "concatenate" (.binary .concatenate)
  | isIn : Under "in" (.binary .isIn)
  | assign : Under "assignment" .assign
  /-- A definition stores its function, so it takes assignment as well. -/
  | defineStores (params : Nat) : Under "assignment" (.define params)
  | define (params : Nat) : Under "fndef" (.define params)
  | array (items : Nat) : Under "array" (.array items)

/-- The instructions that reach into values.  A name with a dot is the target of an assignment to a
member. -/
inductive Instr.ReachesIn : Instr → Prop
  | member (name : String) : ReachesIn (.member name)
  | index : ReachesIn .index
  | target {path : String} (h : '.' ∈ path.toList) : ReachesIn (.name path)

/-- The instruction is switched off. -/
def Instr.SwitchedOff (options : Options) (instr : Instr) : Prop :=
  (∃ switch, options.TurnedOff switch ∧ instr.Under switch) ∨
    options.allowMemberAccess = false ∧ instr.ReachesIn

/-- The gates are the switches of the table. -/
theorem mem_gates_iff {switch : String} :
    switch ∈ Options.gates ↔ ∃ instr, Instr.Under switch instr := by
  constructor
  · intro h
    have hrows : ∀ switch ∈ Options.gates, ∃ instr, Instr.Under switch instr := by
      simp only [Options.gates, List.forall_mem_cons]
      exact ⟨⟨_, .add⟩, ⟨_, .subtract⟩, ⟨_, .multiply⟩, ⟨_, .divide⟩, ⟨_, .remainder⟩, ⟨_, .power⟩,
        ⟨_, .factorial⟩, ⟨_, .equal⟩, ⟨_, .concatenate⟩, ⟨_, .isIn⟩, ⟨_, .assign⟩, ⟨_, .define 0⟩,
        ⟨_, .array 0⟩, nofun⟩
    exact hrows switch h
  · rintro ⟨instr, h⟩
    cases h <;> decide

/-- Between two operands, the switch that is asked for is that of the table. -/
theorem switch?_of_binary {op : BinaryOp} (hop : ∀ spelling, op ≠ .unknown spelling) :
    ∃ switch, Options.switch? op.symbol .between = some switch ∧
      ∀ other, Instr.Under other (.binary op) ↔ other = switch := by
  cases op with
  | unknown spelling => exact absurd rfl (hop spelling)
  | _ =>
    refine ⟨_, rfl, fun other => ⟨fun h => ?_, fun h => ?_⟩⟩
    · cases h
      rfl
    · subst h
      constructor

/-- At one operand, the switch that is asked for is that of the table, unless the operator has a
name. -/
theorem switch?_of_unary {op : UnaryOp} (hop : ∀ spelling, op ≠ .unknown spelling)
    (hsign : ∀ named, op ≠ .named named) :
    ∃ switch, Options.switch? op.symbol op.fixity = some switch ∧
      ∀ other, Instr.Under other (.unary op) ↔ other = switch := by
  cases op with
  | unknown spelling => exact absurd rfl (hop spelling)
  | named op => exact absurd rfl (hsign op)
  | _ =>
    refine ⟨_, rfl, fun other => ⟨fun h => ?_, fun h => ?_⟩⟩
    · cases h
      rfl
    · subst h
      constructor

/-- What readers ask for where they meet an instruction. -/
def Instr.Permitted (options : Options) : Instr → Prop
  | .unary op => options.allows op.symbol op.fixity = true
  | .binary op => options.allows op.symbol .between = true
  | .member _ | .index => options.allowMemberAccess = true
  | .array _ => options.allowsArray = true
  | .assign => options.allows "=" .between = true
  | .define _ => options.allowsDefinition = true
  | .name path => '.' ∈ path.toList → options.allowMemberAccess = true
  | _ => True

section
variable {options : Options} {instr : Instr}

theorem not_switchedOff_iff : ¬ instr.SwitchedOff options ↔
    (∀ switch, instr.Under switch → ¬ options.TurnedOff switch) ∧
      (instr.ReachesIn → options.allowMemberAccess = true) := by
  unfold Instr.SwitchedOff
  cases options.allowMemberAccess <;> grind

/-- An operator is asked for if its switch is. -/
theorem allows_iff {symbol : String} {fixity : Fixity} {switch : String}
    (hswitch : Options.switch? symbol fixity = some switch)
    (hunder : ∀ other, instr.Under other ↔ other = switch) :
    options.allows symbol fixity = true ↔
      ∀ switch, instr.Under switch → ¬ options.TurnedOff switch := by
  rw [Options.allows, hswitch]
  simp only [hunder, forall_eq]
  exact Options.isOn_iff

/-- **Readers ask for what the table says**, as long as only gates are off and the operator
exists. -/
theorem permitted_iff (h : options.OnlyGates) (hinstr : ∀ spelling,
    instr ≠ .unary (.unknown spelling) ∧ instr ≠ .binary (.unknown spelling)) :
    instr.Permitted options ↔ ¬ instr.SwitchedOff options := by
  rw [not_switchedOff_iff]
  cases instr with
  | unary op =>
    rw [Instr.Permitted, and_iff_left (by rintro ⟨⟩)]
    cases op with
    | named op => exact iff_of_true (h.allows_named op) (by rintro _ ⟨⟩)
    | _ =>
      obtain ⟨switch, hswitch, hunder⟩ := switch?_of_unary
        (fun spelling heq => (hinstr spelling).1 (congrArg Instr.unary heq)) (by rintro _ ⟨⟩)
      exact allows_iff hswitch hunder
  | binary op =>
    rw [Instr.Permitted, and_iff_left (by rintro ⟨⟩)]
    obtain ⟨switch, hswitch, hunder⟩ := switch?_of_binary
      fun spelling heq => (hinstr spelling).2 (congrArg Instr.binary heq)
    exact allows_iff hswitch hunder
  | member name =>
    exact ⟨fun hmember => ⟨by rintro _ ⟨⟩, fun _ => hmember⟩,
      fun h => h.2 (.member name)⟩
  | index =>
    exact ⟨fun hmember => ⟨by rintro _ ⟨⟩, fun _ => hmember⟩, fun h => h.2 .index⟩
  | name path =>
    refine ⟨fun htarget => ⟨by rintro _ ⟨⟩, fun hreaches => ?_⟩,
      fun h hdot => h.2 (.target hdot)⟩
    cases hreaches with
    | target hdot => exact htarget hdot
  | assign =>
    rw [Instr.Permitted, and_iff_left (by rintro ⟨⟩)]
    refine allows_iff rfl fun other => ⟨?_, ?_⟩
    · rintro ⟨⟩
      rfl
    · rintro rfl
      exact .assign
  | array items =>
    rw [Instr.Permitted, and_iff_left (by rintro ⟨⟩)]
    refine Options.isOn_iff.trans ⟨fun harray => ?_, fun h => h _ (.array items)⟩
    rintro _ ⟨⟩
    exact harray
  | define params =>
    rw [Instr.Permitted, and_iff_left (by rintro ⟨⟩), Options.allowsDefinition, Bool.and_eq_true,
      Options.isOn_iff, Options.isOn_iff]
    constructor
    · rintro ⟨hdefine, hassign⟩ _ ⟨⟩
      · exact hassign
      · exact hdefine
    · exact fun h => ⟨h _ (.define params), h _ (.defineStores params)⟩
  | _ => exact iff_of_true trivial ⟨by rintro _ ⟨⟩, by rintro ⟨⟩⟩

end

namespace Grammar

/-- The term itself is the translation. -/
theorem translation_id : Term.Translation (fun _ => True) id where
  literal _ := rfl
  undefined := rfl
  kept _ _ := rfl
  replaced _ h := absurd trivial h
  unary _ _ := rfl
  binary _ _ _ := rfl
  and _ _ := rfl
  or _ _ := rfl
  choose _ _ _ := rfl
  caseOf _ _ _ := by simp
  member _ _ := rfl
  index _ _ := rfl
  call _ _ := by simp
  array _ := by simp
  object _ := by simp
  assign _ _ _ := rfl
  define _ _ _ := rfl
  sequence _ _ := by simp

/-- Some of the gates are off on the left, and none on the right. -/
theorem translation_gated {options : Options} (h : options.OnlyGates) (constants : Dict Value)
    (finish : PlacedToken) :
    (Grammar.mk options constants finish).Translation options.ungated constants options
      (fun _ => True) id where
  term := translation_id
  word _ := rfl
  allows symbol fixity := by rw [options.ungated_allows, Bool.true_and]
  definition := (Bool.true_and _).symm
  array := (Bool.true_and _).symm
  access := (Bool.true_and _).symm
  conditional := h.isOn (by decide)
  namedOp := h.namedOp?_eq
  named := h.allows_named
  and := h.isOn (by decide)
  or := h.isOn (by decide)
  choose := h.isOn (by decide)

end Grammar

/-! ## Programs -/

/-- With some of the gates off a text is read as a term if it is read so with everything on and
the term has no construct that is switched off. -/
theorem Term.parse_gated {options : Options} (h : options.OnlyGates) {constants : Dict Value}
    {source : String} {t : Term} :
    Term.parse options constants source = .ok t ↔
      Term.parse options.ungated constants source = .ok t ∧
        t.Everywhere (Term.Permitted options) := by
  have hpasses : ∀ u : Term,
      Grammar.Passes options (fun _ => True) u ↔ u.Everywhere (Term.Permitted options) := by
    intro u
    refine forall₂_congr fun part _ => and_iff_left ?_
    cases part <;> simp [Term.BindsFree]
  rw [Term.parse_translated (Grammar.translation_gated h constants _) rfl]
  simp only [hpasses, id_eq]
  constructor
  · rintro ⟨_, hparse, hpermitted, rfl⟩
    exact ⟨hparse, hpermitted⟩
  · rintro ⟨hparse, hpermitted⟩
    exact ⟨t, hparse, hpermitted, rfl⟩

/-- A target has a dot if it has a path. -/
theorem dot_mem_targetName {root : String} {path : List String} (hroot : IsName root) :
    '.' ∈ (targetName root path).toList ↔ path ≠ [] := by
  cases path with
  | nil => simpa [targetName] using hroot.undotted
  | cons member path => simp [targetName, String.toList_intercalate]

/-- The operators of a construct exist. -/
theorem Term.known_of_fits {P : Value → Prop} {t : Term} (h : t.Fits P) :
    ∀ instr ∈ t.own, ∀ spelling,
      instr ≠ .unary (.unknown spelling) ∧ instr ≠ .binary (.unknown spelling) := by
  cases t <;> simp_all [Term.own, Term.Fits, Term.code, Instr.Fits]
  all_goals rintro _ (⟨_, -, rfl⟩ | rfl) <;> simp

/-- A construct is permitted if its instructions are. -/
theorem Term.permitted_own {options : Options} {t : Term} (hwords : t.Worded IsName) :
    (∀ instr ∈ t.own, Instr.Permitted options instr) ↔ t.Permitted options := by
  have hname : ∀ name, IsName name → Instr.Permitted options (.name name) := fun _ hword hdot =>
    absurd hdot hword.undotted
  cases t with
  | assign root path value =>
    simp [Term.own, Instr.Permitted, Term.Permitted, dot_mem_targetName hwords.1, and_comm]
  | define name params body =>
    obtain ⟨hfirst, hparams⟩ := List.forall_mem_cons.mp hwords
    simp only [Term.own, List.cons_append, List.forall_mem_cons, List.forall_mem_append,
      List.forall_mem_map, List.not_mem_nil, false_implies, implies_true, and_true]
    exact (and_iff_right (hname name hfirst)).trans
      (and_iff_right fun param hparam => hname param (hparams param hparam))
  | object fields =>
    refine iff_of_true ?_ trivial
    simp only [Term.own, List.cons_append, List.forall_mem_cons, List.forall_mem_append,
      List.forall_mem_map, List.not_mem_nil, false_implies, implies_true, and_true]
    exact ⟨trivial, fun _ _ => trivial, trivial⟩
  | _ => simp [Term.own, Instr.Permitted, Term.Permitted]

/-- A term has no construct that is switched off if its code has no such instruction. -/
theorem Term.permitted_code {options : Options} (hgates : options.OnlyGates) {P : Value → Prop}
    {t : Term} (hwords : t.Everywhere (Term.Worded IsName)) (hfits : t.Fits P) :
    Program.Everywhere (fun instr => ¬ instr.SwitchedOff options) t.code ↔
      t.Everywhere (Term.Permitted options) := by
  refine everywhere_code.trans (forall₂_congr fun s hs => ?_)
  rw [← Term.permitted_own (hwords s hs)]
  exact forall₂_congr fun instr hinstr =>
    (permitted_iff hgates (Term.known_of_fits (hfits.within hs) instr hinstr)).symm

namespace Compiler

/-- A source text compiles to the code of the term that it is read as. -/
theorem compile_program_eq_ok {c : Compiler} {source : String} {program : Program} :
    (c.compile source).map Expression.program = .ok program ↔
      ∃ t, Term.parse c.options c.constants source = .ok t ∧ t.code = program := by
  unfold compile
  cases Term.parse c.options c.constants source <;> simp [Except.map]

/-- **Switches filter programs.**  With some of the gates off, a source text compiles to a program
if it compiles to that program with everything on, under the same limit of nesting and with the
same constants, and no instruction of the program, at any depth, is switched off. -/
theorem compile_gated {c : Compiler} (h : c.options.OnlyGates) (source : String)
    (program : Program) :
    (c.compile source).map Expression.program = .ok program ↔
      ({ c with options := c.options.ungated }.compile source).map Expression.program
        = .ok program ∧
        Program.Everywhere (fun instr => ¬ instr.SwitchedOff c.options) program := by
  have hfits : ∀ {options : Options} {t : Term}, Term.parse options c.constants source = .ok t →
      t.Fits fun _ => True := fits_of_parse (fun _ => trivial) (fun _ => trivial) (fun _ => trivial)
        fun _ _ _ => trivial
  rw [compile_program_eq_ok, compile_program_eq_ok]
  constructor
  · rintro ⟨t, hparse, rfl⟩
    obtain ⟨hungated, hpermitted⟩ := (Term.parse_gated h).mp hparse
    exact ⟨⟨t, hungated, rfl⟩,
      (Term.permitted_code h (Term.worded_of_parse hparse) (hfits hparse)).mpr hpermitted⟩
  · rintro ⟨⟨t, hungated, rfl⟩, hpermitted⟩
    refine ⟨t, (Term.parse_gated h).mpr ⟨hungated, ?_⟩, rfl⟩
    exact (Term.permitted_code h (Term.worded_of_parse hungated) (hfits hungated)).mp hpermitted

/-- Where members may not be reached, a function can be defined as before, and nothing is stored to
a member. -/
theorem compile_gated_members :
    let c : Compiler := { options := { allowMemberAccess := false, operators := [("in", false)] } }
    let definition := (Term.define "f" ["x"] (.unary (.named .not) (.var "x"))).code
    let toMember := (Term.assign "a" ["b"] (.var "x")).code
    c.options.OnlyGates ∧
      (c.compile "f(x) = not x").map Expression.program = .ok definition ∧
      ({ c with options := c.options.ungated }.compile "a.b = x").map Expression.program
        = .ok toMember ∧
      (c.compile "a.b = x").map Expression.program ≠ .ok toMember := by
  intro c definition toMember
  have hgates : c.options.OnlyGates := by
    intro switch hoff
    by_cases hin : "in" = switch
    · exact hin ▸ by decide
    · simp [c, Options.TurnedOff, Dict.get?, hin] at hoff
  have hkept : Program.Everywhere (fun instr => ¬ instr.SwitchedOff c.options) definition :=
    ⟨(permitted_iff hgates (by simp)).mp fun hdot => absurd hdot (by decide),
      (permitted_iff hgates (by simp)).mp fun hdot => absurd hdot (by decide),
      ⟨(permitted_iff hgates (by simp)).mp trivial, (permitted_iff hgates (by simp)).mp rfl,
        trivial⟩,
      (permitted_iff hgates (by simp)).mp rfl, trivial⟩
  have hnone : ¬ Program.Everywhere (fun instr => ¬ instr.SwitchedOff c.options) toMember := by
    rintro ⟨htarget, -⟩
    exact htarget (.inr ⟨rfl, .target (by decide)⟩)
  refine ⟨hgates, (compile_gated hgates _ _).mpr ⟨rfl, hkept⟩, rfl, fun hcompile => hnone ?_⟩
  exact ((compile_gated hgates _ _).mp hcompile).2

end Compiler
end Formula
