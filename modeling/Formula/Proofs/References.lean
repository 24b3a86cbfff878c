import Formula.Program.Substitution
import Formula.Proofs.Refolding

/-! # References and what hides them

A reference reads a variable.  In the body of a function the parameters hide the variables of their
names: a reference there reads the parameter.  Programs may be put in place of the references that
nothing hides (`Program.fill`), which is another thing than substitution, for substitution goes into
all bodies alike.

Folding does just that with what is known: a pass with some variables known is a pass with nothing
known over the program with literals in place of the references to them (`fold_eq_fold_fill`), and
that keeps all references that are left (`references_fold`).
-/
namespace Formula

/-! ## References -/

mutual

/-- The variables that an instruction reads, or the program that it puts aside. -/
def Instr.references (instr : Instr) : List String :=
  match instr with
  | .var name => [name]
  | .sub body => Program.references body
  | _ => []

/-- The variables that a program reads, at every depth and in their order. -/
def Program.references (program : Program) : List String :=
  match program with
  | [] => []
  | instr :: rest => instr.references ++ Program.references rest

end

@[simp] theorem references_nil : Program.references [] = [] := by simp [Program.references]

@[simp] theorem references_cons (instr : Instr) (rest : Program) :
    Program.references (instr :: rest) = instr.references ++ Program.references rest := by
  simp [Program.references]

@[simp] theorem references_append (front back : Program) :
    Program.references (front ++ back) = Program.references front ++ Program.references back := by
  induction front with
  | nil => simp
  | cons instr front ih => simp [ih, List.append_assoc]

@[simp] theorem references_toInstr (v : Value) : v.toInstr.references = [] := by
  cases v <;> simp [Value.toInstr, Instr.references]

@[simp] theorem references_literals (held : List Value) :
    Program.references (held.map Value.toInstr) = [] := by
  induction held with
  | nil => simp
  | cons v held ih => simp [ih]

section
variable {x : String} {w : Program}

theorem length_le_substitute (hw : w ≠ []) (p : Program) :
    p.length ≤ (p.substitute x w).length := by
  have hone := List.length_pos_iff.mpr hw
  induction p with
  | nil => simp
  | cons instr p ih =>
    have hinstr : 1 ≤ (instr.substitute x w).length := by
      unfold Instr.substitute
      split
      · split
        · exact hone
        · exact Nat.le_refl _
      · exact Nat.le_refl _
      · exact Nat.le_refl _
    rw [Program.substitute_cons, List.length_append, List.length_cons]
    omega

theorem length_substitute_nil_le (p : Program) :
    (p.substitute x []).length ≤ p.length := by
  induction p with
  | nil => simp
  | cons instr p ih =>
    have hinstr : (instr.substitute x []).length ≤ 1 := by
      unfold Instr.substitute
      split
      · split <;> simp
      · exact Nat.le_refl _
      · exact Nat.le_refl _
    rw [Program.substitute_cons, List.length_append, List.length_cons]
    omega

/-- A reference goes away unless the variable itself is put in its place. -/
theorem substitute_cons_var_ne (hw : w ≠ [.var x]) (rest : Program) :
    Program.substitute (.var x :: rest) x w ≠ .var x :: rest := by
  rw [Program.substitute_cons, Instr.substitute, if_pos rfl]
  intro h
  -- what stands behind the copy would have to be too long or too short
  have hlength := congrArg List.length h
  rw [List.length_append, List.length_cons] at hlength
  cases w with
  | nil =>
    have hle := length_substitute_nil_le (x := x) rest
    simp only [List.length_nil] at hlength
    omega
  | cons instr w =>
    have hle := length_le_substitute (x := x) (List.cons_ne_nil instr w) rest
    rw [List.length_cons] at hlength
    have hnone : w = [] := List.length_eq_zero_iff.mp (by omega)
    subst hnone
    obtain ⟨rfl, -⟩ := List.cons.inj h
    exact hw rfl

theorem substitute_of_not_mem {p : Program} (h : x ∉ p.references) : p.substitute x w = p := by
  induction p using Program.induct with
  | nil => simp
  | cons instr rest hbody hrest =>
    rw [references_cons, List.mem_append, not_or] at h
    obtain ⟨hinstr, hlater⟩ := h
    rw [Program.substitute_cons, hrest hlater]
    cases instr with
    | var name =>
      have hname : name ≠ x := fun heq => hinstr (by simp [Instr.references, heq])
      simp [Instr.substitute, hname]
    | sub body =>
      rw [Instr.references] at hinstr
      simp [Instr.substitute, hbody body rfl hinstr]
    | _ => simp [Instr.substitute]

/-- A variable is gone if no copy reads it. -/
theorem not_mem_references_substitute (hw : x ∉ w.references) (p : Program) :
    x ∉ (p.substitute x w).references := by
  induction p using Program.induct with
  | nil => simp
  | cons instr rest hbody hrest =>
    rw [Program.substitute_cons, references_append, List.mem_append, not_or]
    refine ⟨?_, hrest⟩
    cases instr with
    | var name =>
      by_cases hname : name = x
      · rw [Instr.substitute, if_pos hname]
        exact hw
      · rw [Instr.substitute, if_neg hname]
        simpa [Instr.references] using Ne.symm hname
    | sub body => simpa [Instr.substitute, Instr.references] using hbody body rfl
    | _ => simp [Instr.substitute, Instr.references]

theorem substitute_self (p : Program) : p.substitute x [.var x] = p := by
  induction p using Program.induct with
  | nil => simp
  | cons instr rest hbody hrest =>
    rw [Program.substitute_cons, hrest]
    cases instr with
    | var name => by_cases hname : name = x <;> simp [Instr.substitute, hname]
    | sub body => simp [Instr.substitute, hbody body rfl]
    | _ => simp [Instr.substitute]

theorem not_mem_of_substitute_eq (hw : w ≠ [.var x]) {p : Program} (h : p.substitute x w = p) :
    x ∉ p.references := by
  induction p using Program.induct with
  | nil => simp
  | cons instr rest hbody hrest =>
    rw [references_cons, List.mem_append, not_or]
    cases instr with
    | var name =>
      by_cases hname : name = x
      · subst hname
        exact absurd h (substitute_cons_var_ne hw rest)
      · simp only [Program.substitute_cons, Instr.substitute, if_neg hname,
          List.singleton_append, List.cons.injEq, true_and] at h
        exact ⟨by simp [Instr.references, Ne.symm hname], hrest h⟩
    | sub body =>
      simp only [Program.substitute_cons, Instr.substitute, List.singleton_append,
        List.cons.injEq, Instr.sub.injEq] at h
      rw [Instr.references]
      exact ⟨hbody body rfl h.1, hrest h.2⟩
    | _ =>
      simp only [Program.substitute_cons, Instr.substitute, List.singleton_append,
        List.cons.injEq, true_and] at h
      exact ⟨by simp [Instr.references], hrest h⟩

/-- **Substitution leaves alone a program that does not read the variable, and no other**, unless
the variable itself is put in its place. -/
theorem substitute_eq_self_iff (p : Program) :
    p.substitute x w = p ↔ w = [.var x] ∨ x ∉ p.references := by
  constructor
  · intro h
    by_cases hw : w = [.var x]
    · exact .inl hw
    · exact .inr (not_mem_of_substitute_eq hw h)
  · rintro (rfl | h)
    · exact substitute_self p
    · exact substitute_of_not_mem h

end

/-! ## Copies in place of references -/

/-- The literal of a value; a function has none. -/
def Value.literal? : Value → Option Program
  | .function _ => none
  | v => some [v.toInstr]

theorem literal?_eq_some_iff {v : Value} {copy : Program} :
    v.literal? = some copy ↔ (∀ f, v ≠ .function f) ∧ copy = [v.toInstr] := by
  cases v <;> simp [Value.literal?, eq_comm]

/-- The programs that stand for variables. -/
abbrev Copies := String → Option Program

namespace Copies

/-- What stands for variables in a program between two others: nothing stands for a parameter. -/
def around (copies : Copies) (before after : List Instr) : Copies :=
  match paramsAround? before after with
  | some params => fun name => if name ∈ params then none else copies name
  | none => copies

/-- Literals stand for known variables. -/
def literals (known : Dict Value) : Copies := fun name => (known.get? name).bind Value.literal?

end Copies

mutual

/-- What an instruction becomes.  In the program that it puts aside, `inner` stands for
variables. -/
def Instr.fill (copies inner : Copies) (instr : Instr) : Program :=
  match instr with
  | .var name => (copies name).getD [.var name]
  | .sub body => [.sub (Program.fillFrom inner [] body)]
  | other => [other]

/-- A program with copies in place of references; the instructions `before` it have been read, the
nearest first. -/
def Program.fillFrom (copies : Copies) (before : List Instr) (program : Program) : Program :=
  match program with
  | [] => []
  | instr :: rest =>
    instr.fill copies (copies.around before rest)
      ++ Program.fillFrom copies (instr :: before) rest

end

/-- **A program with copies in place of the references that no parameter hides.** -/
def Program.fill (copies : Copies) (program : Program) : Program := program.fillFrom copies []

@[simp] theorem fillFrom_nil (copies : Copies) (before : List Instr) :
    Program.fillFrom copies before [] = [] := by simp [Program.fillFrom]

@[simp] theorem fillFrom_cons (copies : Copies) (before : List Instr) (instr : Instr)
    (rest : Program) :
    Program.fillFrom copies before (instr :: rest)
      = instr.fill copies (copies.around before rest)
        ++ Program.fillFrom copies (instr :: before) rest := by simp [Program.fillFrom]

theorem fillFrom_none (before : List Instr) (p : Program) :
    Program.fillFrom (fun _ => none) before p = p := by
  have haround : ∀ before after, Copies.around (fun _ => none) before after = fun _ => none := by
    intro before after
    unfold Copies.around
    split
    · funext name
      exact ite_self _
    · rfl
  induction p using Program.induct generalizing before with
  | nil => simp
  | cons instr rest hbody hrest =>
    rw [fillFrom_cons, haround, hrest]
    cases instr with
    | sub body => simp [Instr.fill, hbody body rfl]
    | _ => simp [Instr.fill]

/-! ## References that nothing hides -/

/-- What stands between two programs is the body of a function with a parameter of the name. -/
def Binds (x : String) (before after : List Instr) : Prop :=
  ∃ params, paramsAround? before after = some params ∧ x ∈ params

/-- Somewhere in a program behind the instructions `before`, at any depth, stands a reference to
the variable that no parameter hides. -/
inductive Program.ReadsFrom (x : String) : List Instr → List Instr → Prop
  | here {before after : List Instr} : ReadsFrom x before (.var x :: after)
  | inside {before inner after : List Instr} (hfree : ¬ Binds x before after)
      (h : ReadsFrom x [] inner) : ReadsFrom x before (.sub inner :: after)
  | behind {before after : List Instr} {instr : Instr} (h : ReadsFrom x (instr :: before) after) :
      ReadsFrom x before (instr :: after)

/-- Somewhere in the program stands a reference to the variable that no parameter hides. -/
def Program.Reads (program : Program) (x : String) : Prop := Program.ReadsFrom x [] program

section
variable {copies copies' : Copies} {x : String} {before after : List Instr}

theorem around_of_binds (h : Binds x before after) : copies.around before after x = none := by
  obtain ⟨params, hparams, hx⟩ := h
  rw [Copies.around, hparams]
  exact if_pos hx

theorem around_of_not_binds (h : ¬ Binds x before after) :
    copies.around before after x = copies x := by
  cases hparams : paramsAround? before after with
  | none => rw [Copies.around, hparams]
  | some params =>
    rw [Copies.around, hparams]
    exact if_neg fun hx => h ⟨params, hparams, hx⟩

theorem around_eq_some {w : Program} (h : copies.around before after x = some w) :
    copies x = some w := by
  by_cases hbinds : Binds x before after
  · rw [around_of_binds hbinds] at h
    cases h
  · rwa [around_of_not_binds hbinds] at h

theorem around_eq_none (h : copies x = none) : copies.around before after x = none := by
  by_cases hbinds : Binds x before after
  · exact around_of_binds hbinds
  · rwa [around_of_not_binds hbinds]

/-- How a program is filled depends only on what stands for these references. -/
theorem fillFrom_congr {p : Program}
    (h : ∀ name, Program.ReadsFrom name before p → copies name = copies' name) :
    p.fillFrom copies before = p.fillFrom copies' before := by
  induction p using Program.induct generalizing copies copies' before with
  | nil => simp
  | cons instr rest hbody hrest =>
    rw [fillFrom_cons, fillFrom_cons, hrest fun name hname => h name (.behind hname)]
    congr 1
    cases instr with
    | var name => rw [Instr.fill, Instr.fill, h name .here]
    | sub body =>
      rw [Instr.fill, Instr.fill, hbody body rfl]
      intro name hname
      by_cases hbinds : Binds name before rest
      · rw [around_of_binds hbinds, around_of_binds hbinds]
      · rw [around_of_not_binds hbinds, around_of_not_binds hbinds]
        exact h name (.inside hbinds hname)
    | _ => simp [Instr.fill]

section
variable (hcopies : ∀ name w, copies name = some w → Program.references w = [])
include hcopies

theorem references_around (name : String) (w : Program)
    (h : copies.around before after name = some w) : Program.references w = [] :=
  hcopies name w (around_eq_some h)

theorem references_fill_var (name : String) (inner : Copies) :
    Program.references (Instr.fill copies inner (.var name))
      = if (copies name).isSome then [] else [name] := by
  rw [Instr.fill]
  cases h : copies name with
  | none => simp [Instr.references]
  | some w => simp [hcopies name w h]

theorem count_fill_le {inner : Copies} (instr : Instr)
    (hinner : ∀ body, instr = .sub body →
      (Program.fillFrom inner [] body).references.count x ≤ (Program.references body).count x) :
    (instr.fill copies inner).references.count x ≤ instr.references.count x := by
  cases instr with
  | var name =>
    rw [references_fill_var hcopies, Instr.references]
    split <;> simp
  | sub body => simpa [Instr.fill, Instr.references] using hinner body rfl
  | _ => simp [Instr.fill]

theorem count_fillFrom_le (p : Program) :
    (p.fillFrom copies before).references.count x ≤ p.references.count x := by
  induction p using Program.induct generalizing copies before with
  | nil => simp
  | cons instr rest hbody hrest =>
    rw [fillFrom_cons, references_append, List.count_append, references_cons, List.count_append]
    exact Nat.add_le_add
      (count_fill_le hcopies instr fun body hinstr => hbody body hinstr (references_around hcopies))
      (hrest hcopies)

/-- All references to a variable that nothing stands for stay. -/
theorem count_fillFrom_of_none (hx : copies x = none) (p : Program) :
    (p.fillFrom copies before).references.count x = p.references.count x := by
  induction p using Program.induct generalizing copies before with
  | nil => simp
  | cons instr rest hbody hrest =>
    rw [fillFrom_cons, references_append, List.count_append, references_cons, List.count_append,
      hrest hcopies hx]
    congr 1
    cases instr with
    | var name =>
      rw [references_fill_var hcopies, Instr.references]
      by_cases hname : name = x
      · simp [hname, hx]
      · split <;> simp [hname]
    | sub body =>
      simpa [Instr.fill, Instr.references]
        using hbody body rfl (references_around hcopies) (around_eq_none hx)
    | _ => simp [Instr.fill]

/-- A reference that nothing hides goes away if something stands for the variable. -/
theorem count_fillFrom_lt (hx : (copies x).isSome) {p : Program}
    (h : Program.ReadsFrom x before p) :
    (p.fillFrom copies before).references.count x < p.references.count x := by
  induction h generalizing copies with
  | here =>
    rw [fillFrom_cons, references_append, List.count_append, references_cons, List.count_append,
      references_fill_var hcopies, if_pos hx, Instr.references]
    exact Nat.add_lt_add_of_lt_of_le (by simp) (count_fillFrom_le hcopies _)
  | inside hfree _ ih =>
    rw [fillFrom_cons, references_append, List.count_append, references_cons, List.count_append]
    refine Nat.add_lt_add_of_lt_of_le ?_ (count_fillFrom_le hcopies _)
    simpa [Instr.fill, Instr.references]
      using ih (references_around hcopies) (by rwa [around_of_not_binds hfree])
  | behind _ ih =>
    rw [fillFrom_cons, references_append, List.count_append, references_cons, List.count_append]
    exact Nat.add_lt_add_of_le_of_lt
      (count_fill_le hcopies _ fun body _ => count_fillFrom_le (references_around hcopies) body)
      (ih hcopies hx)

end

end

/-! ## Folding -/

section
variable {options : Options} {known : Dict Value}

/-- A literal stands for a variable if its value is known and no function. -/
theorem literals_eq_some_iff {name : String} {copy : Program} :
    Copies.literals known name = some copy ↔
      ∃ v, known.get? name = some v ∧ (∀ f, v ≠ .function f) ∧ copy = [v.toInstr] := by
  rw [Copies.literals, Option.bind_eq_some_iff]
  exact exists_congr fun v => and_congr_right fun _ => literal?_eq_some_iff

/-- What stands for variables in a program inside the program is what is known there. -/
theorem around_literals (before after : List Instr) : (Copies.literals known).around before after
    = Copies.literals (knownAround known before after) := by
  unfold Copies.around knownAround
  cases paramsAround? before after with
  | none => rfl
  | some params =>
    funext name
    dsimp only
    rw [Copies.literals, Copies.literals, Dict.get?_eraseAll]
    by_cases hname : name ∈ params <;> simp [hname]

theorem knownAround_nil (before after : List Instr) : knownAround [] before after = [] := by
  unfold knownAround
  cases paramsAround? before after with
  | none => rfl
  | some params =>
    dsimp only
    induction params with
    | nil => rfl
    | cons param params ih => exact ih

/-- What is known concerns references only. -/
theorem step_of_ne_var {instr : Instr} (hvar : ∀ name, instr ≠ .var name) (known' : Dict Value)
    (s : FoldState) : s.step options known instr = s.step options known' instr := by
  obtain ⟨written, held⟩ := s
  cases instr with
  | var name => exact absurd rfl (hvar name)
  | _ => rcases held with _ | ⟨top, _ | ⟨next, held⟩⟩ <;> rfl

theorem step_var_of_none {name : String} (h : Copies.literals known name = none)
    (s : FoldState) : s.step options known (.var name) = s.emit (.var name) := by
  rw [Copies.literals] at h
  unfold FoldState.step
  cases hv : known.get? name with
  | none => simp only [hv]
  | some v =>
    rw [hv, Option.bind_some] at h
    cases v with
    | function f => simp only [hv]
    | _ => cases h

theorem step_var_of_some {name : String} {v : Value} (hv : known.get? name = some v)
    (hfunction : ∀ f, v ≠ .function f) (s : FoldState) :
    s.step options known (.var name) = s.hold v := by
  unfold FoldState.step
  cases v with
  | function f => exact absurd rfl (hfunction f)
  | _ => simp only [hv]

theorem fold_toInstr (v : Value) (known inner : Dict Value) (s : FoldState) :
    v.toInstr.fold options known inner s = s.hold v := by
  cases v <;> rfl

/-- A pass with nothing known goes over the literals as one goes over the known variables. -/
theorem foldFrom_fillFrom (program : Program) (known : Dict Value) (before before' : List Instr)
    (s : FoldState) :
    Program.foldFrom options [] before' s (program.fillFrom (.literals known) before)
      = Program.foldFrom options known before s program := by
  induction program using Program.induct generalizing known before before' s with
  | nil => simp [Program.foldFrom]
  | cons instr rest hbody hrest =>
    rw [fillFrom_cons, Program.foldFrom]
    cases instr with
    | var name =>
      cases hcopy : Copies.literals known name with
      | none =>
        rw [Instr.fill, hcopy, Option.getD_none, List.singleton_append, Program.foldFrom,
          hrest known (.var name :: before), Instr.fold, Instr.fold, step_var_of_none hcopy]
        · rfl
        all_goals rintro _ ⟨⟩
      | some copy =>
        obtain ⟨v, hv, hfunction, rfl⟩ := literals_eq_some_iff.mp hcopy
        rw [Instr.fill, hcopy, Option.getD_some, List.singleton_append, Program.foldFrom,
          hrest known (.var name :: before), fold_toInstr, Instr.fold,
          step_var_of_some hv hfunction]
        rintro _ ⟨⟩
    | sub body =>
      rw [Instr.fill, List.singleton_append, Program.foldFrom, knownAround_nil, around_literals,
        hrest known (.sub body :: before), Instr.fold, Instr.fold, hbody body rfl]
    | _ =>
      rw [Instr.fill, List.singleton_append, Program.foldFrom, hrest known (_ :: before),
        Instr.fold, Instr.fold, step_of_ne_var _ known]
      all_goals rintro _ ⟨⟩

/-- **Folding with known variables is folding the program with literals in place of the references
to them that no parameter hides.** -/
theorem fold_eq_fold_fill (options : Options) (known : Dict Value) (program : Program) :
    program.fold options known = (program.fill (.literals known)).fold options [] := by
  rw [Program.fold, Program.fold, Program.fill, foldFrom_fillFrom]

theorem references_program (s : FoldState) : s.program.references = s.written.references := by
  rw [FoldState.program, references_append, references_literals, List.append_nil]

theorem references_emit (s : FoldState) (instr : Instr) :
    (s.emit instr).program.references = s.program.references ++ instr.references := by
  simp [FoldState.emit, FoldState.program]

/-- An instruction that holds no program is written out as it is, or a value takes its place. -/
theorem references_fold_of_plain {instr : Instr} (hvar : ∀ name, instr ≠ .var name)
    (hsub : ∀ body, instr ≠ .sub body) (inner : Dict Value) (s : FoldState) :
    (instr.fold options known inner s).program.references
      = s.program.references ++ instr.references := by
  obtain ⟨written, held⟩ := s
  have hnone : instr.references = [] := by
    cases instr with
    | var name => exact absurd rfl (hvar name)
    | sub body => exact absurd rfl (hsub body)
    | _ => simp [Instr.references]
  rw [hnone, List.append_nil]
  cases instr.turns options known inner held with
  | holds v rest plain fold_eq =>
    rw [fold_eq, references_program, references_program]
  | emits fold_eq =>
    have hfolded : instr.folded options inner = instr := by
      cases instr with
      | sub body => exact absurd rfl (hsub body)
      | _ => rfl
    rw [fold_eq, hfolded, references_emit, hnone, List.append_nil]

/-- A pass with nothing known keeps every reference. -/
theorem references_foldFrom (program : Program) (before : List Instr) (s : FoldState) :
    (Program.foldFrom options [] before s program).program.references
      = s.program.references ++ program.references := by
  induction program using Program.induct generalizing before s with
  | nil => simp [Program.foldFrom]
  | cons instr rest hbody hrest =>
    have hinstr : (instr.fold options [] (knownAround [] before rest) s).program.references
        = s.program.references ++ instr.references := by
      cases instr with
      | var name => exact references_emit s _
      | sub body =>
        rw [Instr.fold, knownAround_nil, references_emit, Instr.references, Instr.references,
          hbody body rfl]
        simp [FoldState.program]
      | _ =>
        apply references_fold_of_plain
        all_goals rintro _ ⟨⟩
    rw [Program.foldFrom, hrest, hinstr, references_cons, List.append_assoc]

theorem references_fold_nil (options : Options) (program : Program) :
    (program.fold options []).references = program.references := by
  rw [Program.fold, references_foldFrom, references_program, references_nil, List.nil_append]

/-- **Folding keeps every reference but those that literals take the place of**, in their order. -/
theorem references_fold (options : Options) (known : Dict Value) (program : Program) :
    (program.fold options known).references = (program.fill (.literals known)).references := by
  rw [fold_eq_fold_fill, references_fold_nil]

end

end Formula
