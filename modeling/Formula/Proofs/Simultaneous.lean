import Formula.Proofs.References

/-! # Substituting for all variables at once

To substitute for one variable is to put a program in place of every reference, where the references
to all other variables are their own replacements (`substitute_eq_fillAll`).  Replacements in a row
are one replacement of everything at once (`fillAll_fillAll`), at every depth, although the second
goes through programs that the first has put there.  So two substitutions in a row can be compared
by what each variable becomes in the end.

In another order they agree as soon as the second replacement does not read the first variable
(`substitute_substitute`), and otherwise only where nothing comes of it
(`substitute_substitute_iff`).
-/
namespace Formula

/-- What stands for the variables. -/
abbrev Fillings := String → Program

mutual

/-- What an instruction becomes when something stands for every variable. -/
def Instr.fillAll (instr : Instr) (fillings : Fillings) : Program :=
  match instr with
  | .var name => fillings name
  | .sub body => [.sub (Program.fillAll body fillings)]
  | other => [other]

/-- A program with every reference replaced, at every depth. -/
def Program.fillAll (program : Program) (fillings : Fillings) : Program :=
  match program with
  | [] => []
  | instr :: rest => instr.fillAll fillings ++ Program.fillAll rest fillings

end

/-- The program stands for the variable, and all other variables stand for themselves. -/
def Fillings.one (x : String) (w : Program) : Fillings := fun n => if n = x then w else [.var n]

section
variable {x y : String} {w v : Program} {fillings fillings' : Fillings}

@[simp] theorem one_self (x : String) (w : Program) : Fillings.one x w x = w := if_pos rfl

theorem one_of_ne (h : y ≠ x) (w : Program) : Fillings.one x w y = [.var y] := if_neg h

@[simp] theorem fillAll_nil (fillings : Fillings) : Program.fillAll [] fillings = [] := by
  simp [Program.fillAll]

@[simp] theorem fillAll_cons (instr : Instr) (rest : Program) (fillings : Fillings) :
    Program.fillAll (instr :: rest) fillings
      = instr.fillAll fillings ++ Program.fillAll rest fillings := by
  simp [Program.fillAll]

@[simp] theorem fillAll_append (front back : Program) (fillings : Fillings) :
    Program.fillAll (front ++ back) fillings
      = front.fillAll fillings ++ back.fillAll fillings := by
  induction front with
  | nil => simp
  | cons instr front ih => simp [ih, List.append_assoc]

/-- Substituting for one variable leaves all others. -/
theorem substitute_eq_fillAll (p : Program) : p.substitute x w = p.fillAll (.one x w) := by
  induction p using Program.induct with
  | nil => simp
  | cons instr rest hbody hrest =>
    rw [Program.substitute_cons, fillAll_cons, hrest]
    congr 1
    cases instr with
    | var name => simp [Instr.substitute, Instr.fillAll, Fillings.one]
    | sub body => simp [Instr.substitute, Instr.fillAll, hbody body rfl]
    | _ => simp [Instr.substitute, Instr.fillAll]

theorem fillAll_var (name : String) (fillings : Fillings) :
    Program.fillAll [.var name] fillings = fillings name := by
  simp [Instr.fillAll]

/-- **Replacing in a row is replacing once**, by what the replacements become. -/
theorem fillAll_fillAll (p : Program) (fillings fillings' : Fillings) :
    (p.fillAll fillings).fillAll fillings' = p.fillAll fun n => (fillings n).fillAll fillings' := by
  induction p using Program.induct with
  | nil => simp
  | cons instr rest hbody hrest =>
    rw [fillAll_cons, fillAll_append, hrest, fillAll_cons]
    congr 1
    cases instr with
    | var name => simp [Instr.fillAll]
    | sub body => simp [Instr.fillAll, hbody body rfl]
    | _ => simp [Instr.fillAll]

/-- What a program becomes depends on what stands for the variables that it reads. -/
theorem fillAll_congr {p : Program} (h : ∀ n ∈ p.references, fillings n = fillings' n) :
    p.fillAll fillings = p.fillAll fillings' := by
  induction p using Program.induct with
  | nil => simp
  | cons instr rest hbody hrest =>
    rw [references_cons] at h
    rw [fillAll_cons, fillAll_cons, hrest fun n hn => h n (List.mem_append_right _ hn)]
    have hinstr := fun n hn => h n (List.mem_append_left (Program.references rest) hn)
    congr 1
    cases instr with
    | var name => exact hinstr name (by simp [Instr.references])
    | sub body =>
      rw [Instr.references] at hinstr
      simp [Instr.fillAll, hbody body rfl hinstr]
    | _ => simp [Instr.fillAll]

/-! ## Where replacements differ -/

theorem length_fillAll_le (h : ∀ n, (fillings n).length ≤ (fillings' n).length) (p : Program) :
    (p.fillAll fillings).length ≤ (p.fillAll fillings').length := by
  induction p with
  | nil => simp
  | cons instr rest ih =>
    have hinstr : (instr.fillAll fillings).length ≤ (instr.fillAll fillings').length := by
      cases instr with
      | var name => simpa [Instr.fillAll] using h name
      | _ => simp [Instr.fillAll]
    rw [fillAll_cons, fillAll_cons, List.length_append, List.length_append]
    omega

/-- Of two replacements that differ, the longer one shows where the variable is read. -/
theorem eq_of_fillAll_eq (hle : ∀ n, (fillings n).length ≤ (fillings' n).length) {p : Program}
    (h : p.fillAll fillings = p.fillAll fillings') :
    ∀ n ∈ p.references, fillings n = fillings' n := by
  induction p using Program.induct with
  | nil => simp
  | cons instr rest hbody hrest =>
    rw [fillAll_cons, fillAll_cons] at h
    -- neither part can make up for what the other is too short
    have hlength := congrArg List.length h
    rw [List.length_append, List.length_append] at hlength
    have hfirst := length_fillAll_le hle [instr]
    rw [fillAll_cons, fillAll_cons, fillAll_nil, fillAll_nil, List.append_nil,
      List.append_nil] at hfirst
    have hlater := length_fillAll_le hle rest
    obtain ⟨hinstr, htail⟩ := List.append_inj h (by omega)
    rw [references_cons]
    intro n hn
    rcases List.mem_append.mp hn with hn | hn
    · cases instr with
      | var name =>
        obtain rfl : n = name := by simpa [Instr.references] using hn
        simpa [Instr.fillAll] using hinstr
      | sub body =>
        rw [Instr.references] at hn
        exact hbody body rfl (by simpa [Instr.fillAll] using hinstr) n hn
      | _ => simp [Instr.references] at hn
    · exact hrest htail n hn

/-- Where replacements differ at one variable only, they come to the same only in programs that do
not read it. -/
theorem fillAll_eq_iff_of_ne (h : ∀ n, n ≠ y → fillings n = fillings' n) (p : Program) :
    p.fillAll fillings = p.fillAll fillings' ↔ (y ∈ p.references → fillings y = fillings' y) := by
  constructor
  · intro heq hy
    have hle : ∀ {f f' : Fillings}, (∀ n, n ≠ y → f n = f' n) → (f y).length ≤ (f' y).length →
        ∀ n, (f n).length ≤ (f' n).length := by
      intro f f' hoff hhere n
      by_cases hn : n = y
      · rw [hn]
        exact hhere
      · exact Nat.le_of_eq (congrArg List.length (hoff n hn))
    rcases Nat.le_total (fillings y).length (fillings' y).length with hshort | hshort
    · exact eq_of_fillAll_eq (hle h hshort) heq y hy
    · exact (eq_of_fillAll_eq (hle (fun n hn => (h n hn).symm) hshort) heq.symm y hy).symm
  · intro hy
    refine fillAll_congr fun n hn => ?_
    by_cases hname : n = y
    · rw [hname]
      exact hy (hname ▸ hn)
    · exact h n hname

/-! ## Two substitutions -/

theorem substitute_substitute_eq (p : Program) : (p.substitute x w).substitute y v
    = p.fillAll fun n => (Fillings.one x w n).fillAll (.one y v) := by
  rw [substitute_eq_fillAll, substitute_eq_fillAll, fillAll_fillAll]

/-- **In another order substitutions come to the same exactly where the second replacement does not
read the first variable**, or nothing comes of it: the second variable is not read at all, or the
first one stands for itself. -/
theorem substitute_substitute_iff (hne : x ≠ y) (p : Program) :
    (p.substitute x w).substitute y v = (p.substitute y v).substitute x (w.substitute y v) ↔
      (y ∈ p.references → x ∈ v.references → w.substitute y v = [.var x]) := by
  have hself : v = v.substitute x (w.substitute y v) ↔
      (x ∈ v.references → w.substitute y v = [.var x]) := by
    rw [eq_comm, substitute_eq_self_iff, or_comm, ← Decidable.imp_iff_not_or]
  rw [substitute_substitute_eq, substitute_substitute_eq, fillAll_eq_iff_of_ne (y := y)]
  · -- at `y` itself the one order leaves its replacement, the other goes through it once more
    rw [one_of_ne hne.symm, fillAll_var, one_self, ← substitute_eq_fillAll, hself]
  · intro n hn
    by_cases hx : n = x
    · rw [hx, one_self, one_of_ne hne, fillAll_var, one_self, substitute_eq_fillAll]
    · rw [one_of_ne hx, one_of_ne hn, fillAll_var, fillAll_var, one_of_ne hn, one_of_ne hx]

/-- **Substitutions compose.**  In any instructions, at any depth, substituting for one variable and
then for another comes to substituting for the other first, in the instructions and in what is put
in place of the one.  The second replacement must not read the variable that goes first. -/
theorem substitute_substitute (hne : x ≠ y) (hv : x ∉ v.references) (p w : Program) :
    (p.substitute x w).substitute y v = (p.substitute y v).substitute x (w.substitute y v) :=
  (substitute_substitute_iff hne p).mpr fun _ hx => absurd hx hv

end

/-- What is put in place of `x` reads both variables, at the top and inside, and the second
replacement stores to a name that it does not read. -/
theorem substitute_substitute_nested :
    let p : Program := [.var "x", .sub [.var "y", .sub [.var "x"]], .and, .endStatement]
    let w : Program := [.sub [.var "x", .var "y"], .var "y"]
    let v : Program := [.name "x", .sub [.var "z"], .assign]
    "x" ≠ "y" ∧ "x" ∉ v.references ∧
      (p.substitute "x" w).substitute "y" v
        = (p.substitute "y" v).substitute "x" (w.substitute "y" v) ∧
      (p.substitute "x" w).substitute "y" v = (Instr.sub (.var "x" :: v) :: v) ++
        [Instr.sub (v ++ [Instr.sub (.sub (.var "x" :: v) :: v)]), .and, .endStatement] := by
  intro p w v
  have hne : "x" ≠ "y" := by decide
  have hv : "x" ∉ v.references := by simp [v, Instr.references]
  exact ⟨hne, hv, substitute_substitute hne hv p w, by simp [p, w, v, Instr.substitute]⟩

end Formula
