import Formula.Proofs.Constants
import Formula.Proofs.Listings
import Formula.Proofs.RemainingNames

/-! # The names of an expression with another in place of a variable

Putting a program in place of a variable takes the variable off the list of names and puts the names
of the program on it, if the variable is read at all (`substitute_symbols`).  Of the paths with
members, those that do not begin with the variable stay as they are.  The members behind the
variable come to stand behind the replacement: where that ends in a path, they make it longer, and
otherwise they belong to no path (`mem_pathsFrom_substitute`).
-/
namespace Formula

/-! ## Paths in parts -/

/-- What stands behind the root of a path: nothing, or the members with their dots. -/
def pathMembers (path : String) : String := String.ofList (path.toList.dropWhile (· ≠ '.'))

theorem pathRoot_append_pathMembers (path : String) : pathRoot path ++ pathMembers path = path := by
  rw [pathRoot, pathMembers, ← String.ofList_append, List.takeWhile_append_dropWhile,
    String.ofList_toList]

theorem pathMembers_member (path name : String) :
    pathMembers (path ++ "." ++ name) = pathMembers path ++ "." ++ name := by
  have hwhole := pathRoot_append_pathMembers (path ++ "." ++ name)
  rw [pathRoot_member] at hwhole
  refine String.append_right_inj (pathRoot path) |>.mp ?_
  rw [hwhole, ← String.append_assoc, ← String.append_assoc, pathRoot_append_pathMembers]

theorem pathMembers_of_root {name : String} (h : pathRoot name = name) : pathMembers name = "" := by
  have hwhole := pathRoot_append_pathMembers name
  rw [h] at hwhole
  exact String.append_eq_left_iff.mp hwhole

/-- The path with `last?` in place of the root `x`; without it there is no such path. -/
def regrow (x : String) (last? : Option String) (path : String) : Option String :=
  if pathRoot path = x then last?.map fun last => last ++ pathMembers path else some path

section
variable {x : String} {last? : Option String}

theorem regrow_member (path name : String) : regrow x last? (path ++ "." ++ name)
    = (regrow x last? path).map fun path => path ++ "." ++ name := by
  unfold regrow
  rw [pathRoot_member, pathMembers_member]
  split
  · cases last? <;> simp [String.append_assoc]
  · rfl

theorem regrow_self (h : pathRoot x = x) : regrow x last? x = last? := by
  rw [regrow, if_pos h, pathMembers_of_root h]
  cases last? <;> simp

theorem regrow_of_ne {path : String} (h : pathRoot path ≠ x) : regrow x last? path = some path :=
  if_neg h

end

/-! ## Programs in a row -/

/-- The path that may still grow behind a program. -/
def Program.openFrom (program : Program) (open? : Option String) : Option String :=
  program.foldl (fun open? instr => instr.grows open?) open?

/-- The paths that come to their end before the end of a program. -/
def Program.closedFrom (program : Program) (open? : Option String) : List String :=
  match program with
  | [] => []
  | instr :: rest => instr.pathsFrom open? ++ closedFrom rest (instr.grows open?)

/-- The program begins with an instruction that no path in front of it goes on with. -/
def Program.BeginsAnew (program : Program) : Prop :=
  ∃ instr rest, program = instr :: rest ∧ ∀ name, instr ≠ .member name

theorem pathsFrom_append (front back : Program) (open? : Option String) :
    Program.pathsFrom (front ++ back) open?
      = front.closedFrom open? ++ back.pathsFrom (front.openFrom open?) := by
  induction front generalizing open? with
  | nil => rfl
  | cons instr front ih =>
    rw [List.cons_append, pathsFrom_cons, ih, Program.closedFrom, List.append_assoc]
    rfl

/-- A program that begins anew brings the path in front of it to its end. -/
theorem Program.BeginsAnew.append {front : Program} (h : front.BeginsAnew) (back : Program)
    (open? : Option String) : Program.pathsFrom (front ++ back) open?
      = open?.toList ++ (front.closedFrom none ++ back.pathsFrom (front.openFrom none)) := by
  obtain ⟨instr, rest, rfl, hinstr⟩ := h
  have hends : instr.pathsFrom open? = open?.toList ++ instr.pathsFrom none ∧
      instr.grows open? = instr.grows none := by
    cases instr with
    | member name => exact absurd rfl (hinstr name)
    | _ => simp [Instr.pathsFrom, Instr.grows]
  rw [← pathsFrom_append, List.cons_append, pathsFrom_cons, pathsFrom_cons, hends.1, hends.2,
    List.append_assoc]

theorem beginsAnew_append {front : Program} (h : front.BeginsAnew) (back : Program) :
    (front ++ back).BeginsAnew := by
  obtain ⟨instr, rest, rfl, hinstr⟩ := h
  exact ⟨instr, rest ++ back, rfl, hinstr⟩

/-- The code of a term begins anew: a member stands behind what it is taken of. -/
theorem beginsAnew_code (t : Term) : t.code.BeginsAnew := by
  induction t with
  | unary op operand ih | member operand name ih => exact beginsAnew_append ih _
  | and left right ih _ | or left right ih _ | choose left _ _ ih _ _ =>
    exact beginsAnew_append ih _
  | binary op left right ih _ | index left right ih _ =>
    exact beginsAnew_append (beginsAnew_append ih _) _
  | call callee arguments ih _ => exact beginsAnew_append (beginsAnew_append ih _) _
  | array items ih =>
    cases items with
    | nil => exact ⟨_, _, rfl, nofun⟩
    | cons item items => exact beginsAnew_append (beginsAnew_append (ih item (.head _)) _) _
  | caseOf subject arms otherwise ih _ _ =>
    cases subject with
    | some subject =>
      exact beginsAnew_append (beginsAnew_append (beginsAnew_append (ih subject rfl) _) _) _
    | none =>
      cases arms with
      | cons arm arms => exact ⟨_, _, rfl, nofun⟩
      | nil => cases otherwise <;> exact ⟨_, _, rfl, nofun⟩
  | _ => exact ⟨_, _, rfl, nofun⟩

/-! ## Substitution -/

section
variable {x : String} {w : Program}

/-- The roots of what is mentioned with the program in place of the variable: all that were, but the
variable, and those of the program if the variable is read. -/
theorem mem_roots_substitute {p : Program} (hstores : Program.Everywhere (Instr.LeavesFree x) p)
    (hreads : ∀ n ∈ p.references, pathRoot n = n) {n : String} :
    n ∈ (p.substitute x w).mentions.map pathRoot ↔
      n ∈ p.mentions.map pathRoot ∧ n ≠ x ∨ x ∈ p.references ∧ n ∈ w.mentions.map pathRoot := by
  induction p using Program.induct with
  | nil => simp
  | cons instr rest hbody hrest =>
    obtain ⟨hhere, hlater⟩ := everywhere_cons.mp hstores
    rw [references_cons] at hreads
    obtain ⟨hread, hreads⟩ := List.forall_mem_append.mp hreads
    have hinstr : n ∈ (instr.substitute x w).mentions.map pathRoot ↔
        n ∈ instr.mentions.map pathRoot ∧ n ≠ x ∨
          x ∈ instr.references ∧ n ∈ w.mentions.map pathRoot := by
      cases instr with
      | var name =>
        have hroot : pathRoot name = name := hread name (.head _)
        by_cases hname : name = x
        · subst hname
          simp [Instr.substitute, Instr.mentions, Instr.references, hroot]
        · have hne : n = name → n ≠ x := fun heq => heq ▸ hname
          simpa [Instr.substitute, Instr.mentions, Instr.references, hroot, hname, Ne.symm hname]
            using hne
      | name path =>
        have hne : n = pathRoot path → n ≠ x := fun heq => heq ▸ hhere
        simpa [Instr.substitute, Instr.mentions, Instr.references] using hne
      | sub body =>
        simpa [Instr.substitute, Instr.mentions, Instr.references] using hbody body rfl hhere hread
      | _ => simp [Instr.substitute, Instr.mentions, Instr.references]
    rw [Program.substitute_cons, mentions_append, List.map_append, List.mem_append, hinstr,
      hrest hlater hreads, mentions_cons, references_cons, List.map_append, List.mem_append,
      List.mem_append]
    tauto

theorem toList_bind (f : String → Option String) (open? : Option String) :
    (open?.bind f).toList = open?.toList.filterMap f := by
  cases open? with
  | none => rfl
  | some path => cases hpath : f path <;> simp [hpath]

/-- **The paths with the program in place of the variable**: those that come to their end in the
program, if the variable is read, and all paths that were, with the open path of the program in
place of the variable. -/
theorem mem_pathsFrom_substitute (hw : w.BeginsAnew) {p : Program}
    (hstores : Program.Everywhere (Instr.LeavesFree x) p)
    (hreads : ∀ n ∈ p.references, pathRoot n = n) (open? : Option String) {q : String} :
    q ∈ (p.substitute x w).pathsFrom (open?.bind (regrow x (w.openFrom none))) ↔
      x ∈ p.references ∧ q ∈ w.closedFrom none ∨
        q ∈ (p.pathsFrom open?).filterMap (regrow x (w.openFrom none)) := by
  generalize hf : regrow x (w.openFrom none) = f
  induction p using Program.induct generalizing open? with
  | nil => simp [toList_bind]
  | cons instr rest hbody hrest =>
    obtain ⟨hhere, hlater⟩ := everywhere_cons.mp hstores
    rw [references_cons] at hreads
    obtain ⟨hread, hreads⟩ := List.forall_mem_append.mp hreads
    -- what comes to its end at the instruction, and what may grow behind it
    have hinstr : ∃ ended, (∀ back : Program, (instr.substitute x w ++ back).pathsFrom
          (open?.bind f) = ended ++ back.pathsFrom ((instr.grows open?).bind f)) ∧
        (q ∈ ended ↔ x ∈ instr.references ∧ q ∈ w.closedFrom none ∨
          q ∈ (instr.pathsFrom open?).filterMap f) := by
      cases instr with
      | var name =>
        have hroot : pathRoot name = name := hread name (.head _)
        by_cases hname : name = x
        · subst hname
          refine ⟨(open?.bind f).toList ++ w.closedFrom none, fun back => ?_, ?_⟩
          · have hgrows : ((Instr.var name).grows open?).bind f = w.openFrom none := by
              rw [← hf]
              exact regrow_self hroot
            rw [hgrows, Instr.substitute, if_pos rfl, hw.append, List.append_assoc]
          · rw [List.mem_append, toList_bind, or_comm]
            simp [Instr.references, Instr.pathsFrom]
        · refine ⟨(open?.bind f).toList, fun back => ?_, ?_⟩
          · have hgrows : ((Instr.var name).grows open?).bind f = some name := by
              rw [← hf]
              exact regrow_of_ne (by rwa [hroot])
            rw [hgrows, Instr.substitute, if_neg hname, List.singleton_append, pathsFrom_cons]
            rfl
          · simp [Instr.references, Instr.pathsFrom, toList_bind, Ne.symm hname]
      | name path =>
        have hgrows : ((Instr.name path).grows open?).bind f = some path := by
          rw [← hf]
          exact regrow_of_ne hhere
        refine ⟨(open?.bind f).toList, fun back => ?_, ?_⟩
        · rw [hgrows]
          exact pathsFrom_cons _ _ back
        · simp [Instr.references, Instr.pathsFrom, toList_bind]
      | member field =>
        have hgrows : ((Instr.member field).grows open?).bind f
            = (Instr.member field).grows (open?.bind f) := by
          rw [← hf]
          cases open? with
          | none => rfl
          | some path => exact regrow_member path field
        refine ⟨[], fun back => ?_, by simp [Instr.references, Instr.pathsFrom]⟩
        rw [hgrows]
        exact pathsFrom_cons _ _ back
      | sub body =>
        have hinner : q ∈ (Program.substitute body x w).pathsFrom none ↔
            x ∈ Program.references body ∧ q ∈ w.closedFrom none ∨
              q ∈ (Program.pathsFrom body none).filterMap f := hbody body rfl hhere hread none
        refine ⟨(open?.bind f).toList ++ (Program.substitute body x w).pathsFrom none, fun back => ?_, ?_⟩
        · exact pathsFrom_cons _ _ back
        · rw [List.mem_append, toList_bind]
          simp only [Instr.references, Instr.pathsFrom, List.filterMap_append, List.mem_append]
          rw [hinner]
          exact or_left_comm
      | _ =>
        exact ⟨(open?.bind f).toList, fun back => pathsFrom_cons _ _ back,
          by simp [Instr.references, Instr.pathsFrom, toList_bind]⟩
    obtain ⟨ended, hends, hended⟩ := hinstr
    rw [Program.substitute_cons, hends, List.mem_append, hended, hrest hlater hreads,
      pathsFrom_cons, references_cons, List.filterMap_append, List.mem_append, List.mem_append]
    tauto

/-- The names with the program in place of the variable. -/
theorem mem_names_substitute {p : Program} (hstores : Program.Everywhere (Instr.LeavesFree x) p)
    (hreads : ∀ n ∈ p.references, pathRoot n = n) {n : String} :
    n ∈ (p.substitute x w).names false ↔
      n ∈ p.names false ∧ n ≠ x ∨ x ∈ p.references ∧ n ∈ w.names false := by
  simp only [names_eq_eraseDups, List.mem_eraseDups]
  exact mem_roots_substitute hstores hreads

/-- The names with members, with the program in place of the variable. -/
theorem mem_paths_substitute (hw : w.BeginsAnew) {p : Program}
    (hstores : Program.Everywhere (Instr.LeavesFree x) p)
    (hreads : ∀ n ∈ p.references, pathRoot n = n) {q : String} :
    q ∈ (p.substitute x w).names true ↔
      x ∈ p.references ∧ q ∈ w.closedFrom none ∨
        ∃ path ∈ p.names true, regrow x (w.openFrom none) path = some q := by
  simp only [names_eq_eraseDups_paths, List.mem_eraseDups, ← List.mem_filterMap]
  exact mem_pathsFrom_substitute hw hstores hreads none

end

theorem mem_map_pathRoot_names {p : Program} {n : String} :
    n ∈ (p.names true).map pathRoot ↔ n ∈ p.names false := by
  rw [← eraseDups_map_names, List.mem_eraseDups]

/-- **Substitution takes the variable off the names and puts the names of the replacement on them.**
A name is listed without members, with a compiled expression in place of a variable that the
expression gives no meaning to, if it was listed and is not the variable, or if the variable is read
and the replacement lists it; so the variable itself is listed only if the replacement lists it.  The
same is true of the roots of the names with members.  These are the paths that come to their end in
the replacement, if the variable is read, and the paths that were, with the path that is open at the
end of the replacement, if there is one, in place of the variable. -/
theorem substitute_symbols {c c' : Compiler} {source source' : String} {e w : Expression}
    (he : c.compile source = .ok e) (hw : c'.compile source' = .ok w) {x : String}
    (hx : Program.Everywhere (Instr.LeavesFree x) e.program) :
    (∀ n, n ∈ (e.substitute x w).symbols false ↔
        n ∈ e.symbols false ∧ n ≠ x ∨ x ∈ e.program.references ∧ n ∈ w.symbols false) ∧
      (x ∈ (e.substitute x w).symbols false → x ∈ w.symbols false) ∧
      (∀ n, n ∈ ((e.substitute x w).symbols true).map pathRoot ↔
        n ∈ (e.symbols true).map pathRoot ∧ n ≠ x ∨
          x ∈ e.program.references ∧ n ∈ (w.symbols true).map pathRoot) ∧
      (x ∈ ((e.substitute x w).symbols true).map pathRoot → x ∈ (w.symbols true).map pathRoot) ∧
      ∀ path, path ∈ (e.substitute x w).symbols true ↔
        x ∈ e.program.references ∧ path ∈ w.program.closedFrom none ∨
          ∃ old ∈ e.symbols true, regrow x (w.program.openFrom none) old = some path := by
  obtain ⟨t, hparse, rfl⟩ := exists_of_map_eq_ok he
  obtain ⟨s, -, rfl⟩ := exists_of_map_eq_ok hw
  have hreads : ∀ n ∈ t.code.references, pathRoot n = n := fun n hn =>
    pathRoot_of_isName (Term.worded_of_parse hparse _
      (Term.has_var_iff.mp (mem_references_code.mp hn)))
  have hnames : ∀ n, n ∈ (t.code.substitute x s.code).names false ↔
      n ∈ t.code.names false ∧ n ≠ x ∨ x ∈ t.code.references ∧ n ∈ s.code.names false :=
    fun n => mem_names_substitute hx hreads
  have hself : x ∈ (t.code.substitute x s.code).names false → x ∈ s.code.names false := fun h =>
    ((hnames x).mp h).elim (fun h => absurd rfl h.2) And.right
  refine ⟨hnames, hself, fun n => ?_, fun h => ?_,
    fun path => mem_paths_substitute (beginsAnew_code s) hx hreads⟩
  · simp only [Expression.symbols, mem_map_pathRoot_names]
    exact hnames n
  · exact mem_map_pathRoot_names.mpr (hself (mem_map_pathRoot_names.mp h))

/-- With `u.v` in place of `x`, the path `u.v` grows by the member that followed `x`, and ends where
`x` ended.  The member `x` of `b` is no variable. -/
theorem substitute_symbols_growing_path :
    let e : Expression := ⟨(Term.binary .add (.member (.var "x") "p")
      (.choose (.var "a") (.member (.var "b") "x") (.var "x"))).code, {}, {},
      some "x.p + (a ? b.x : x)"⟩
    let w : Expression := ⟨(Term.member (.var "u") "v").code, {}, {}, some "u.v"⟩
    Compiler.compile {} "x.p + (a ? b.x : x)" = .ok e ∧ Compiler.compile {} "u.v" = .ok w ∧
      e.symbols true = ["x.p", "a", "b.x", "x"] ∧ w.program.closedFrom none = [] ∧
      w.program.openFrom none = some "u.v" ∧
      (∀ path, path ∈ (e.substitute "x" w).symbols true ↔
        "x" ∈ e.program.references ∧ path ∈ ([] : List String) ∨
          ∃ old ∈ ["x.p", "a", "b.x", "x"], regrow "x" (some "u.v") old = some path) ∧
      (e.substitute "x" w).symbols true = ["u.v.p", "a", "b.x", "u.v"] := by
  intro e w
  have he : Compiler.compile {} "x.p + (a ? b.x : x)" = .ok e := rfl
  have hw : Compiler.compile {} "u.v" = .ok w := rfl
  have hfree : Program.Everywhere (Instr.LeavesFree "x") e.program := by
    simp [e, Term.code, Instr.Everywhere, Instr.LeavesFree]
  obtain ⟨-, -, -, -, hpaths⟩ := substitute_symbols he hw hfree
  have hsymbols : e.symbols true = ["x.p", "a", "b.x", "x"] := by decide +kernel
  have hclosed : w.program.closedFrom none = [] := by decide +kernel
  have hopen : w.program.openFrom none = some "u.v" := by decide +kernel
  rw [hsymbols, hclosed, hopen] at hpaths
  exact ⟨he, hw, hsymbols, hclosed, hopen, hpaths, by decide +kernel⟩

end Formula
