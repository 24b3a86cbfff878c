import Formula.Program.Names
import Formula.Proofs.References
import Mathlib.Logic.Basic

/-! # The names that a program mentions

A program mentions a name where it reads a variable, and where it says what to store to.  The names
that are listed without members are the roots of what is mentioned, each once and in that order
(`names_eq_eraseDups`).

In the code of a term a name is mentioned by the instruction of a construct that stands somewhere in
the term (`Term.Has`).
-/
namespace Formula

mutual

/-- The names that an instruction reads or stores to, or the program that it puts aside. -/
def Instr.mentions (instr : Instr) : List String :=
  match instr with
  | .var name | .name name => [name]
  | .sub body => Program.mentions body
  | _ => []

/-- The names that a program reads or stores to, at every depth and in their order. -/
def Program.mentions (program : Program) : List String :=
  match program with
  | [] => []
  | instr :: rest => instr.mentions ++ Program.mentions rest

end

@[simp] theorem mentions_nil : Program.mentions [] = [] := by simp [Program.mentions]

@[simp] theorem mentions_cons (instr : Instr) (rest : Program) :
    Program.mentions (instr :: rest) = instr.mentions ++ Program.mentions rest := by
  simp [Program.mentions]

@[simp] theorem mentions_append (front back : Program) :
    Program.mentions (front ++ back) = Program.mentions front ++ Program.mentions back := by
  induction front with
  | nil => simp
  | cons instr front ih => simp [ih, List.append_assoc]

/-! ## The list of names -/

namespace NameScan
variable (s : NameScan)

@[simp] theorem growing?_list (name : String) : (s.list name).growing? = s.growing? := by
  unfold list
  split <;> rfl

variable {s} in
theorem close_of_none (h : s.growing? = none) : s.close = s := by
  rw [close, h]

/-- Names are listed behind those that have been found, if they are not among them. -/
theorem found_foldl_list (names : List String) : (names.foldl list s).found
    = s.found ++ (names.removeAll s.found).eraseDups := by
  induction names generalizing s with
  | nil => simp [List.removeAll]
  | cons name names ih =>
    rw [List.foldl_cons, ih]
    by_cases hname : name ∈ s.found
    · simp [list, hname, List.removeAll]
    · have hremove : names.removeAll (s.found ++ [name])
          = (names.removeAll s.found).filter fun other => !other == name := by
        simp [List.removeAll, List.filter_filter, beq_eq_decide, Bool.and_comm]
      simp [list, hname, hremove, List.cons_removeAll, List.eraseDups_cons]

theorem growing?_foldl_list (names : List String) :
    (names.foldl list s).growing? = s.growing? := by
  induction names generalizing s with
  | nil => rfl
  | cons name names ih => rw [List.foldl_cons, ih, growing?_list]

end NameScan

/-- Without members every name is listed as soon as it is mentioned. -/
theorem noteNames_eq_foldl (p : Program) {s : NameScan} (h : s.growing? = none) :
    Program.noteNames false s p = (p.mentions.map pathRoot).foldl NameScan.list s := by
  induction p using Program.induct generalizing s with
  | nil => rw [mentions_nil, Program.noteNames]; rfl
  | cons instr rest hbody hrest =>
    have hinstr : instr.noteNames false s
        = (instr.mentions.map pathRoot).foldl NameScan.list s := by
      cases instr with
      | var name | name name =>
        simp [Instr.noteNames, NameScan.mention, NameScan.close_of_none h, Instr.mentions]
      | member name => simp [Instr.noteNames, h, Instr.mentions]
      | sub body =>
        rw [Instr.noteNames, NameScan.close_of_none h, hbody body rfl h, Instr.mentions,
          NameScan.close_of_none]
        rw [NameScan.growing?_foldl_list, h]
      | _ => simp [Instr.noteNames, NameScan.close_of_none h, Instr.mentions]
    have hafter : (instr.noteNames false s).growing? = none := by
      rw [hinstr, NameScan.growing?_foldl_list, h]
    rw [Program.noteNames, hrest hafter, hinstr, mentions_cons, List.map_append, List.foldl_append]

/-- **Without members the names are the roots of what is mentioned**, each where it comes first. -/
theorem names_eq_eraseDups (p : Program) :
    p.names false = (p.mentions.map pathRoot).eraseDups := by
  have hgrowing : ((p.mentions.map pathRoot).foldl NameScan.list {}).growing? = none :=
    NameScan.growing?_foldl_list _ _
  rw [Program.names, noteNames_eq_foldl p rfl, NameScan.close_of_none hgrowing,
    NameScan.found_foldl_list]
  simp [List.removeAll, List.filter_eq_self.mpr]

theorem mem_names_iff {p : Program} {n : String} :
    n ∈ p.names false ↔ ∃ mention ∈ p.mentions, pathRoot mention = n := by
  rw [names_eq_eraseDups, List.mem_eraseDups, List.mem_map]

/-! ## Instructions in the code of a term -/

/-- A construct that stands in the term has the instruction for its own. -/
def Term.Has (t : Term) (instr : Instr) : Prop := ∃ s, Term.Within s t ∧ instr ∈ s.own

section
variable {t : Term} {instr : Instr} {n : String}

theorem Term.has_iff : t.Has instr ↔ instr ∈ t.own ∨ ∃ child ∈ t.children, child.Has instr := by
  constructor
  · rintro ⟨s, hs, hown⟩
    cases hs with
    | self => exact .inl hown
    | deeper hc hs => exact .inr ⟨_, hc, s, hs, hown⟩
  · rintro (hown | ⟨child, hc, s, hs, hown⟩)
    · exact ⟨t, .self t, hown⟩
    · exact ⟨s, .deeper hc hs, hown⟩

/-- An instruction is one of a construct of the term if not all of the code is different. -/
theorem Term.has_iff_not_everywhere :
    t.Has instr ↔ ¬ Program.Everywhere (· ≠ instr) t.code := by
  rw [everywhere_code]
  constructor
  · rintro ⟨s, hs, hown⟩ hall
    exact hall s hs instr hown rfl
  · intro h
    refine Classical.not_not.mp fun hnone => h fun s hs other hown heq => ?_
    exact hnone ⟨s, hs, heq ▸ hown⟩

theorem not_mem_references_iff (p : Program) :
    n ∉ p.references ↔ Program.Everywhere (· ≠ .var n) p := by
  induction p using Program.induct with
  | nil => simp
  | cons instr rest hbody hrest =>
    rw [references_cons, List.mem_append, not_or, hrest, everywhere_cons]
    refine and_congr_left' ?_
    cases instr with
    | var name => simp [Instr.references, Instr.Everywhere, eq_comm]
    | sub body => rw [Instr.references, Instr.Everywhere, hbody body rfl]
    | _ => simp [Instr.references, Instr.Everywhere]

theorem not_mem_mentions_iff (p : Program) : n ∉ p.mentions ↔
    Program.Everywhere (· ≠ .var n) p ∧ Program.Everywhere (· ≠ .name n) p := by
  induction p using Program.induct with
  | nil => simp
  | cons instr rest hbody hrest =>
    rw [mentions_cons, List.mem_append, not_or, hrest, everywhere_cons, everywhere_cons,
      and_and_and_comm]
    refine and_congr_left' ?_
    cases instr with
    | var name | name name => simp [Instr.mentions, Instr.Everywhere, eq_comm]
    | sub body => rw [Instr.mentions, Instr.Everywhere, Instr.Everywhere, hbody body rfl]
    | _ => simp [Instr.mentions, Instr.Everywhere]

/-- **The variables that the code of a term reads are those that the term reads.** -/
theorem mem_references_code : n ∈ t.code.references ↔ t.Has (.var n) := by
  rw [Term.has_iff_not_everywhere, ← not_mem_references_iff, not_not]

/-- **The code of a term mentions the names of its variables and of its targets.** -/
theorem mem_mentions_code : n ∈ t.code.mentions ↔ t.Has (.var n) ∨ t.Has (.name n) := by
  rw [Term.has_iff_not_everywhere, Term.has_iff_not_everywhere, ← not_and_or,
    ← not_mem_mentions_iff, not_not]

/-- **Every name is listed**, however deep in the term it stands. -/
theorem mem_names_of_has (h : t.Has (.var n) ∨ t.Has (.name n)) :
    pathRoot n ∈ t.code.names false :=
  mem_names_iff.mpr ⟨n, mem_mentions_code.mpr h, rfl⟩

end
end Formula
