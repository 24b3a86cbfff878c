import Formula.Term

/-! # Induction over syntax trees

A term holds its subterms in lists, options and pairs, so the recursor that Lean makes for it speaks
of seven kinds of trees.  `Term.induct` is the principle that proofs use: one case for each
construct, with the hypothesis for every subterm however deep in a list it stands.

`Term.Within` says that one term stands somewhere in another, at any depth.
-/
namespace Formula

/-- **Induction over terms.**  What holds of a construct as soon as it holds of all its operands,
branches, statements and bodies holds of every term. -/
@[induction_eliminator]
theorem Term.induct {motive : Term → Prop}
    (literal : ∀ v, motive (.literal v))
    (undefined : motive .undefined)
    (var : ∀ name, motive (.var name))
    (unary : ∀ op operand, motive operand → motive (.unary op operand))
    (binary : ∀ op left right, motive left → motive right → motive (.binary op left right))
    (and : ∀ left right, motive left → motive right → motive (.and left right))
    (or : ∀ left right, motive left → motive right → motive (.or left right))
    (choose : ∀ condition yes no, motive condition → motive yes → motive no →
      motive (.choose condition yes no))
    (caseOf : ∀ subject arms otherwise, (∀ t ∈ subject, motive t) →
      (∀ arm ∈ arms, motive arm.1 ∧ motive arm.2) → (∀ t ∈ otherwise, motive t) →
      motive (.caseOf subject arms otherwise))
    (member : ∀ target name, motive target → motive (.member target name))
    (index : ∀ target key, motive target → motive key → motive (.index target key))
    (call : ∀ callee arguments, motive callee → (∀ t ∈ arguments, motive t) →
      motive (.call callee arguments))
    (array : ∀ items, (∀ t ∈ items, motive t) → motive (.array items))
    (object : ∀ fields, (∀ field ∈ fields, motive field.2) → motive (.object fields))
    (assign : ∀ root path value, motive value → motive (.assign root path value))
    (define : ∀ name params body, motive body → motive (.define name params body))
    (sequence : ∀ first rest, motive first → (∀ t ∈ rest, motive t) →
      motive (.sequence first rest))
    (t : Term) : motive t := by
  refine @Term.rec motive (fun o => ∀ t ∈ o, motive t)
    (fun arms => ∀ arm ∈ arms, motive arm.1 ∧ motive arm.2) (fun terms => ∀ t ∈ terms, motive t)
    (fun fields => ∀ field ∈ fields, motive field.2) (fun arm => motive arm.1 ∧ motive arm.2)
    (fun field => motive field.2)
    literal undefined var unary binary and or choose caseOf member index call array object assign
    define sequence ?_ ?_ ?_ ?_ ?_ ?_ ?_ ?_ ?_ ?_ t
  · intro t ht
    cases ht
  · intro t ih u hu
    exact Option.mem_some_iff.mp hu ▸ ih
  · intro arm harm
    cases harm
  · intro head tail hhead htail
    exact List.forall_mem_cons.mpr ⟨hhead, htail⟩
  · intro t ht
    cases ht
  · intro head tail hhead htail
    exact List.forall_mem_cons.mpr ⟨hhead, htail⟩
  · intro field hfield
    cases hfield
  · intro head tail hhead htail
    exact List.forall_mem_cons.mpr ⟨hhead, htail⟩
  · intro condition result hc hr
    exact ⟨hc, hr⟩
  · intro key value hv
    exact hv

/-- The terms of which a term is built. -/
def Term.children : Term → List Term
  | .literal _ | .undefined | .var _ => []
  | .unary _ operand => [operand]
  | .binary _ left right | .and left right | .or left right => [left, right]
  | .choose condition yes no => [condition, yes, no]
  | .caseOf subject arms otherwise =>
    subject.toList ++ arms.flatMap (fun arm => [arm.1, arm.2]) ++ otherwise.toList
  | .member target _ => [target]
  | .index target key => [target, key]
  | .call callee arguments => callee :: arguments
  | .array items => items
  | .object fields => fields.map Prod.snd
  | .assign _ _ value => [value]
  | .define _ _ body => [body]
  | .sequence first rest => first :: rest

section
variable {subject otherwise : Option Term} {arms : List (Term × Term)}

theorem subject_mem_children {t : Term} (h : t ∈ subject) :
    t ∈ (Term.caseOf subject arms otherwise).children := by
  simp [Term.children, Option.mem_def.mp h]

theorem mem_children_of_arm {arm : Term × Term} (h : arm ∈ arms) :
    arm.1 ∈ (Term.caseOf subject arms otherwise).children ∧
      arm.2 ∈ (Term.caseOf subject arms otherwise).children := by
  constructor <;> simp only [Term.children, List.mem_append, List.mem_flatMap] <;>
    exact .inl (.inr ⟨arm, h, by simp⟩)

theorem otherwise_mem_children {t : Term} (h : t ∈ otherwise) :
    t ∈ (Term.caseOf subject arms otherwise).children := by
  simp [Term.children, Option.mem_def.mp h]

theorem forall_children_caseOf {P : Term → Prop} :
    (∀ child ∈ (Term.caseOf subject arms otherwise).children, P child)
      ↔ (∀ t ∈ subject, P t) ∧ (∀ arm ∈ arms, P arm.1 ∧ P arm.2) ∧ ∀ t ∈ otherwise, P t := by
  simp only [Term.children, List.forall_mem_append, List.forall_mem_flatMap, List.forall_mem_cons,
    List.not_mem_nil, false_implies, implies_true, and_true, Option.mem_toList, and_assoc,
    Option.mem_def]

end

/-- Induction over terms where the construct does not matter. -/
theorem Term.induct_children {motive : Term → Prop}
    (h : ∀ t, (∀ child ∈ t.children, motive child) → motive t) (t : Term) : motive t := by
  induction t with
  | literal v => exact h _ nofun
  | undefined => exact h _ nofun
  | var name => exact h _ nofun
  | unary op operand ih => exact h _ (List.forall_mem_singleton.mpr ih)
  | binary op left right ihl ihr =>
    exact h _ (List.forall_mem_cons.mpr ⟨ihl, List.forall_mem_singleton.mpr ihr⟩)
  | and left right ihl ihr =>
    exact h _ (List.forall_mem_cons.mpr ⟨ihl, List.forall_mem_singleton.mpr ihr⟩)
  | or left right ihl ihr =>
    exact h _ (List.forall_mem_cons.mpr ⟨ihl, List.forall_mem_singleton.mpr ihr⟩)
  | choose condition yes no ihc ihy ihn =>
    exact h _ (List.forall_mem_cons.mpr
      ⟨ihc, List.forall_mem_cons.mpr ⟨ihy, List.forall_mem_singleton.mpr ihn⟩⟩)
  | caseOf subject arms otherwise ihs iha iho =>
    exact h _ (forall_children_caseOf.mpr ⟨ihs, iha, iho⟩)
  | member target name ih => exact h _ (List.forall_mem_singleton.mpr ih)
  | index target key iht ihk =>
    exact h _ (List.forall_mem_cons.mpr ⟨iht, List.forall_mem_singleton.mpr ihk⟩)
  | call callee arguments ihc iha => exact h _ (List.forall_mem_cons.mpr ⟨ihc, iha⟩)
  | array items ih => exact h _ ih
  | object fields ih => exact h _ (List.forall_mem_map.mpr ih)
  | assign root path value ih => exact h _ (List.forall_mem_singleton.mpr ih)
  | define name params body ih => exact h _ (List.forall_mem_singleton.mpr ih)
  | sequence first rest ihf ihr => exact h _ (List.forall_mem_cons.mpr ⟨ihf, ihr⟩)

/-- The first term stands in the second, at any depth. -/
inductive Term.Within : Term → Term → Prop
  | self (t : Term) : Within t t
  | deeper {s t child : Term} : child ∈ t.children → Within s child → Within s t

/-- The property holds of the term and of every term in it. -/
def Term.Everywhere (H : Term → Prop) (t : Term) : Prop := ∀ s, Term.Within s t → H s

section
variable {H : Term → Prop} {t : Term}

theorem Term.Everywhere.here (h : t.Everywhere H) : H t := h t (.self t)

theorem Term.Everywhere.child (h : t.Everywhere H) {child : Term} (hc : child ∈ t.children) :
    child.Everywhere H := fun s hs => h s (.deeper hc hs)

theorem Term.everywhere_of_children (h : H t)
    (hchildren : ∀ child ∈ t.children, child.Everywhere H) : t.Everywhere H := by
  intro s hs
  cases hs with
  | self => exact h
  | deeper hc hs => exact hchildren _ hc s hs

theorem Term.everywhere_iff :
    t.Everywhere H ↔ H t ∧ ∀ child ∈ t.children, child.Everywhere H :=
  ⟨fun h => ⟨h.here, fun _ => h.child⟩, fun h => everywhere_of_children h.1 h.2⟩

end

/-! ## Properties of all instructions -/

section
variable (H : Instr → Prop)

mutual

/-- The property holds of the instruction, or of all instructions of the program that it puts
aside. -/
def Instr.Everywhere : Instr → Prop
  | .sub body => Program.Everywhere body
  | instr => H instr

/-- The property holds of every instruction of the program, at any depth. -/
def Program.Everywhere : List Instr → Prop
  | [] => True
  | instr :: rest => instr.Everywhere ∧ Program.Everywhere rest

end

/-- The instructions of a term that do not come from its parts. -/
def Term.own : Term → List Instr
  | .literal v => [.literal v]
  | .undefined => [.undefined]
  | .var name => [.var name]
  | .unary op _ => [.unary op]
  | .binary op _ _ => [.binary op]
  | .and _ _ => [.and]
  | .or _ _ => [.or]
  | .choose _ _ _ => [.choose]
  | .caseOf subject arms otherwise => [.caseOf subject.isSome arms.length otherwise.isSome]
  | .member _ name => [.member name]
  | .index _ _ => [.index]
  | .call _ arguments => [.call arguments.length]
  | .array items => [.array items.length]
  | .object fields => .objectStart :: fields.map (fun field => .property field.1) ++ [Instr.objectEnd]
  | .assign root path _ => [.name (targetName root path), .assign]
  | .define name params _ => .name name :: params.map .name ++ [Instr.define params.length]
  | .sequence _ rest => rest.map fun _ => .endStatement

variable {H}

@[simp] theorem everywhere_nil : Program.Everywhere H [] := trivial

@[simp] theorem everywhere_cons {instr : Instr} {rest : Program} :
    Program.Everywhere H (instr :: rest) ↔ instr.Everywhere H ∧ Program.Everywhere H rest := Iff.rfl

@[simp] theorem everywhere_append {front back : Program} :
    Program.Everywhere H (front ++ back)
      ↔ Program.Everywhere H front ∧ Program.Everywhere H back := by
  induction front with
  | nil => simp
  | cons instr front ih => simp [ih, and_assoc]

theorem everywhere_names (names : List String) :
    Program.Everywhere H (names.map .name) ↔ ∀ name ∈ names, H (.name name) := by
  induction names with
  | nil => simp
  | cons name names ih => simp [ih, Instr.Everywhere]

theorem everywhere_operandsCode {terms : List Term} :
    Program.Everywhere H (operandsCode terms) ↔ ∀ t ∈ terms, Program.Everywhere H t.code := by
  induction terms with
  | nil => simp [operandsCode]
  | cons t terms ih => simp [operandsCode, ih]

theorem everywhere_statementsCode {terms : List Term} :
    Program.Everywhere H (statementsCode terms)
      ↔ (∀ instr ∈ terms.map fun _ => Instr.endStatement, H instr) ∧
        ∀ t ∈ terms, Program.Everywhere H t.code := by
  induction terms with
  | nil => simp [statementsCode]
  | cons t terms ih =>
    simp only [statementsCode, everywhere_cons, everywhere_append, ih, List.map_cons,
      List.forall_mem_cons, Instr.Everywhere]
    exact and_and_and_comm

theorem everywhere_fieldsCode {fields : List (String × Term)} :
    Program.Everywhere H (fieldsCode fields)
      ↔ (∀ field ∈ fields, H (.property field.1)) ∧
        ∀ field ∈ fields, Program.Everywhere H field.2.code := by
  induction fields with
  | nil => simp [fieldsCode]
  | cons field fields ih =>
    simp only [fieldsCode, everywhere_cons, everywhere_append, ih, List.forall_mem_cons,
      Instr.Everywhere]
    exact and_and_and_comm

theorem everywhere_armsCode {arms : List (Term × Term)} :
    Program.Everywhere H (armsCode arms)
      ↔ ∀ arm ∈ arms, Program.Everywhere H arm.1.code ∧ Program.Everywhere H arm.2.code := by
  induction arms with
  | nil => simp [armsCode]
  | cons arm arms ih => simp [armsCode, ih, Instr.Everywhere, and_assoc]

theorem everywhere_subjectCode {subject : Option Term} :
    Program.Everywhere H (subjectCode subject) ↔ ∀ t ∈ subject, Program.Everywhere H t.code := by
  cases subject <;> simp [subjectCode]

theorem everywhere_otherwiseCode {otherwise : Option Term} :
    Program.Everywhere H (otherwiseCode otherwise)
      ↔ ∀ t ∈ otherwise, Program.Everywhere H t.code := by
  cases otherwise <;> simp [otherwiseCode, Instr.Everywhere]

/-- The code of a term consists of its own instructions and of the code of its parts. -/
theorem everywhere_own {t : Term} :
    Program.Everywhere H t.code
      ↔ (∀ instr ∈ t.own, H instr) ∧ ∀ child ∈ t.children, Program.Everywhere H child.code := by
  cases t with
  | caseOf subject arms otherwise =>
    rw [forall_children_caseOf]
    simp [Term.code, Term.own, Instr.Everywhere, everywhere_subjectCode, everywhere_armsCode,
      everywhere_otherwiseCode, and_assoc, and_left_comm, and_comm]
  | object fields =>
    simp only [Term.code, Term.own, Term.children, Instr.Everywhere, everywhere_append,
      everywhere_cons, everywhere_nil, everywhere_fieldsCode, List.forall_mem_append,
      List.forall_mem_cons, List.forall_mem_map, List.not_mem_nil, false_implies, implies_true,
      true_and, and_assoc, and_comm]
  | define name params body =>
    simp only [Term.code, Term.own, Term.children, Instr.Everywhere, everywhere_append,
      everywhere_cons, everywhere_nil, everywhere_names, List.forall_mem_append,
      List.forall_mem_cons, List.forall_mem_map, List.not_mem_nil, false_implies, implies_true,
      true_and, and_assoc, and_left_comm, and_comm]
  | _ =>
    simp [Term.code, Term.own, Term.children, Instr.Everywhere, everywhere_operandsCode,
      everywhere_statementsCode, and_assoc, and_left_comm, and_comm]

/-- **What holds of all instructions of a term's code** holds of the own instructions of every term
in it, and conversely. -/
theorem everywhere_code {t : Term} :
    Program.Everywhere H t.code ↔ t.Everywhere fun s => ∀ instr ∈ s.own, H instr := by
  induction t using Term.induct_children with
  | h t ih =>
    rw [everywhere_own, Term.everywhere_iff]
    exact and_congr_right' (forall₂_congr ih)

end
end Formula
