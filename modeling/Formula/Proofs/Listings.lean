import Formula.Host
import Formula.Proofs.Mentions
import Formula.Proofs.Spelling
import Mathlib.Data.List.Induction
import Mathlib.Data.List.Nodup
import Mathlib.Data.List.TakeWhile

/-! # The two listings of names

Without members a name is listed where it is mentioned.  With members it is held back as a path that
may still grow, and listed where the path comes to its end: at a later instruction, at a program
inside, or at the end of the program.  Both listings come from one row, the paths of the program in
the order in which they end (`names_eq_eraseDups_paths`): a path never overtakes another, and
members never change where it begins.  So the roots of the paths are the names
(`listings_agree`).
-/
namespace Formula

/-! ## Dropping repetitions -/

section
variable {α β : Type} [DecidableEq α] [DecidableEq β]

/-- An item at the end stays if it is new. -/
theorem eraseDups_concat (l : List α) (x : α) :
    (l ++ [x]).eraseDups = if x ∈ l then l.eraseDups else l.eraseDups ++ [x] := by
  rw [List.eraseDups_append]
  by_cases hx : x ∈ l <;> simp [List.removeAll, hx, List.eraseDups_cons]

theorem nodup_eraseDups (l : List α) : l.eraseDups.Nodup := by
  induction l using List.reverseRecOn with
  | nil => simp
  | append_singleton l x ih =>
    rw [eraseDups_concat]
    split
    · exact ih
    · rename_i hx
      exact List.nodup_append.mpr ⟨ih, List.nodup_singleton x, by
        rintro y hy _ (_ | ⟨_, ⟨⟩⟩) rfl
        exact hx (List.mem_eraseDups.mp hy)⟩

/-- It makes no difference whether repetitions are dropped once or before as well. -/
theorem eraseDups_map_eraseDups (f : α → β) (l : List α) :
    (l.eraseDups.map f).eraseDups = (l.map f).eraseDups := by
  induction l using List.reverseRecOn with
  | nil => simp
  | append_singleton l x ih =>
    have hold : f x ∈ l.eraseDups.map f ↔ f x ∈ l.map f := by simp [List.mem_eraseDups]
    rw [eraseDups_concat, List.map_append, List.map_singleton, eraseDups_concat]
    split
    · rename_i hx
      rw [ih, if_pos (List.mem_map_of_mem hx)]
    · rw [List.map_append, List.map_singleton, eraseDups_concat, ih]
      simp only [hold]

theorem eraseDups_filter (keep : α → Bool) (l : List α) :
    (l.filter keep).eraseDups = l.eraseDups.filter keep := by
  induction l using List.reverseRecOn with
  | nil => simp
  | append_singleton l x ih =>
    rw [List.filter_append, eraseDups_concat]
    cases hkeep : keep x with
    | false =>
      rw [List.filter_cons_of_neg (by simp [hkeep]), List.filter_nil, List.append_nil, ih]
      split
      · rfl
      · simp [hkeep]
    | true =>
      rw [List.filter_cons_of_pos hkeep, List.filter_nil, eraseDups_concat, ih]
      by_cases hx : x ∈ l <;> simp [hx, hkeep]

end

/-! ## Roots -/

/-- A member behind a path leaves it its root. -/
theorem pathRoot_member (path name : String) : pathRoot (path ++ "." ++ name) = pathRoot path := by
  unfold pathRoot
  rw [String.toList_append, String.toList_append, List.append_assoc, takeWhile_append_of_head]
  simp

theorem pathRoot_pathRoot (path : String) : pathRoot (pathRoot path) = pathRoot path := by
  unfold pathRoot
  rw [String.toList_ofList, List.takeWhile_idem]

/-! ## The paths of a program -/

/-- The path that may still grow behind an instruction, if `open?` may in front of it. -/
def Instr.grows (open? : Option String) : Instr → Option String
  | .var path | .name path => some path
  | .member field => open?.map fun path => path ++ "." ++ field
  | _ => none

mutual

/-- The paths that come to their end at an instruction, the open one first. -/
def Instr.pathsFrom (instr : Instr) (open? : Option String) : List String :=
  match instr with
  | .member _ => []
  | .sub body => open?.toList ++ Program.pathsFrom body none
  | _ => open?.toList

/-- The paths that come to their end in a program, the open one first, and repeated as they are. -/
def Program.pathsFrom (program : Program) (open? : Option String) : List String :=
  match program with
  | [] => open?.toList
  | instr :: rest => instr.pathsFrom open? ++ Program.pathsFrom rest (instr.grows open?)

end

@[simp] theorem pathsFrom_nil (open? : Option String) :
    Program.pathsFrom [] open? = open?.toList := by
  simp [Program.pathsFrom]

@[simp] theorem pathsFrom_cons (open? : Option String) (instr : Instr) (rest : Program) :
    Program.pathsFrom (instr :: rest) open?
      = instr.pathsFrom open? ++ Program.pathsFrom rest (instr.grows open?) := by
  simp [Program.pathsFrom]

/-- The paths of a program. -/
def Program.paths (program : Program) : List String := program.pathsFrom none

namespace NameScan

/-- What has been found, with nothing that may grow. -/
def closed (s : NameScan) : NameScan := { s with growing? := none }

theorem close_eq_foldl (s : NameScan) : s.close = s.growing?.toList.foldl list s.closed := by
  obtain ⟨found, growing?⟩ := s
  cases growing? <;> rfl

theorem closed_foldl_list (s : NameScan) (names : List String) :
    (names.foldl list s.closed).closed = names.foldl list s.closed := by
  have hnone : (names.foldl list s.closed).growing? = none := growing?_foldl_list _ _
  rw [closed, ← hnone]

end NameScan

/-- With members every path is listed where it comes to its end. -/
theorem close_noteNames (p : Program) (s : NameScan) :
    (Program.noteNames true s p).close
      = (p.pathsFrom s.growing?).foldl NameScan.list s.closed := by
  induction p using Program.induct generalizing s with
  | nil => rw [Program.noteNames, pathsFrom_nil, NameScan.close_eq_foldl]
  | cons instr rest hbody hrest =>
    have hinstr : (instr.noteNames true s).growing? = instr.grows s.growing? ∧
        (instr.noteNames true s).closed
          = (instr.pathsFrom s.growing?).foldl NameScan.list s.closed := by
      have hclose : s.close.growing? = none ∧
          s.close.closed = s.growing?.toList.foldl NameScan.list s.closed := by
        rw [NameScan.close_eq_foldl, NameScan.closed_foldl_list]
        exact ⟨NameScan.growing?_foldl_list _ _, rfl⟩
      cases instr with
      | var name | name name => exact ⟨rfl, hclose.2⟩
      | member name =>
        rw [Instr.noteNames]
        cases hgrowing : s.growing? with
        | none => exact ⟨by simp [hgrowing, Instr.grows], rfl⟩
        | some path => exact ⟨rfl, rfl⟩
      | sub body =>
        have hinner := hbody body rfl s.close
        rw [hclose.1, hclose.2] at hinner
        rw [Instr.noteNames, hinner, ← List.foldl_append]
        exact ⟨NameScan.growing?_foldl_list _ _, NameScan.closed_foldl_list _ _⟩
      | _ => exact hclose
    rw [Program.noteNames, hrest, hinstr.1, hinstr.2, pathsFrom_cons, List.foldl_append]

/-- **With members the names are the paths of the program**, each where it ends first. -/
theorem names_eq_eraseDups_paths (p : Program) : p.names true = p.paths.eraseDups := by
  rw [Program.names, close_noteNames, NameScan.found_foldl_list]
  simp [NameScan.closed, List.removeAll, List.filter_eq_self.mpr, Program.paths]

/-- The paths of a program begin with what it mentions, in that order. -/
theorem map_pathRoot_pathsFrom (p : Program) (open? : Option String) :
    (p.pathsFrom open?).map pathRoot
      = open?.toList.map pathRoot ++ p.mentions.map pathRoot := by
  induction p using Program.induct generalizing open? with
  | nil => simp
  | cons instr rest hbody hrest =>
    rw [pathsFrom_cons, mentions_cons, List.map_append, List.map_append, hrest]
    cases instr with
    | var name | name name => simp [Instr.pathsFrom, Instr.grows, Instr.mentions]
    | member name =>
      cases open? <;> simp [Instr.pathsFrom, Instr.grows, Instr.mentions, pathRoot_member]
    | sub body => simp [Instr.pathsFrom, Instr.grows, Instr.mentions, hbody body rfl]
    | _ => simp [Instr.pathsFrom, Instr.grows, Instr.mentions]

/-- The roots of the names with members are the names without. -/
theorem eraseDups_map_names (p : Program) :
    ((p.names true).map pathRoot).eraseDups = p.names false := by
  rw [names_eq_eraseDups_paths, eraseDups_map_eraseDups, Program.paths, map_pathRoot_pathsFrom,
    names_eq_eraseDups]
  rfl

theorem nodup_names (p : Program) (withMembers : Bool) : (p.names withMembers).Nodup := by
  cases withMembers with
  | false => exact names_eq_eraseDups p ▸ nodup_eraseDups _
  | true => exact names_eq_eraseDups_paths p ▸ nodup_eraseDups _

/-- What is left out depends on the root, so the listings agree without it as well. -/
theorem eraseDups_map_namesBut (isKnown : String → Bool) (p : Program) :
    ((p.namesBut isKnown true).map pathRoot).eraseDups = p.namesBut isKnown false := by
  have hmap : (p.namesBut isKnown true).map pathRoot
      = ((p.names true).map pathRoot).filter fun name => !isKnown name := by
    rw [List.filter_map]
    rfl
  have hroots : ∀ name ∈ p.names false, pathRoot name = name := by
    intro name hname
    obtain ⟨mention, -, rfl⟩ := mem_names_iff.mp hname
    exact pathRoot_pathRoot mention
  rw [hmap, eraseDups_filter, eraseDups_map_names]
  exact List.filter_congr fun name hname => by rw [hroots name hname]

/-- **The two listings of names agree.**  In any program, whatever is nested in it, the roots of the
names with members, in their order and without repetitions, are the names without members, and no
listing repeats a name.  The same is true of what is left of the listings without the names of
registered functions. -/
theorem listings_agree (p : Program) :
    ((p.names true).map pathRoot).eraseDups = p.names false ∧
      (p.names true).Nodup ∧ (p.names false).Nodup ∧
      ∀ functions : Registry,
        ((p.namesBut functions.contains true).map pathRoot).eraseDups
            = p.namesBut functions.contains false ∧
          (p.namesBut functions.contains true).Nodup ∧
          (p.namesBut functions.contains false).Nodup :=
  ⟨eraseDups_map_names p, nodup_names p true, nodup_names p false, fun functions =>
    ⟨eraseDups_map_namesBut functions.contains p, (nodup_names p true).filter _,
      (nodup_names p false).filter _⟩⟩

/-- `o.p = o.q; o.p + u.w`, with the path `u.w` held back to the end of the program. -/
example : Program.names true [.sub [.name "o.p", .sub [.var "o", .member "q"], .assign,
    .endStatement, .var "o", .member "p", .var "u", .member "w"]] = ["o.p", "o.q", "u.w"] := by
  decide +kernel

end Formula
