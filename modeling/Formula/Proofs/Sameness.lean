import Formula.Expression
import Formula.Proofs.References
import Formula.Proofs.Trees
import Mathlib

/-! # Programs that are the same

The equality of the language is no equality of programs: a literal that holds `NaN` is not the same
as itself, the zeros are the same, and functions are if they have one identity
(`sameProgram_self_iff`).  But where folding or substitution makes a program that is the same as the
one it was made of, it has made no change (`fold_eq_of_same`, `substitute_eq_of_same`).  For what is
folded into a value is shorter then, and a value that is written for a variable is no variable.
-/
namespace Formula

/-! ## What is the same as itself -/

/-- The value is `NaN`, or holds it somewhere outside of functions. -/
inductive Value.HoldsNaN : Value → Prop
  | number {x : Float} (h : x.isNaN = true) : HoldsNaN (.number x)
  | item {items : List Value} {v : Value} (hv : v ∈ items) (h : HoldsNaN v) :
      HoldsNaN (.array items)
  | field {fields : List (String × Value)} {entry : String × Value} (hentry : entry ∈ fields)
      (h : HoldsNaN entry.2) : HoldsNaN (.object fields)

theorem number_beq_self_iff {x : Float} : (x == x) = true ↔ x.isNaN = false := by
  simp [Float.beq_self_iff, Float.isNaN_eq_decide_eq_nan]

theorem sameItems_self_iff {items : List Value} :
    sameItems items items = true ↔ ∀ v ∈ items, v.same v = true := by
  induction items with
  | nil => simp [sameItems]
  | cons v items ih => simp [sameItems, ih]

theorem sameFields_self_iff {fields : List (String × Value)} :
    sameFields fields fields = true ↔ ∀ entry ∈ fields, entry.2.same entry.2 = true := by
  induction fields with
  | nil => simp [sameFields]
  | cons entry fields ih => simp [sameFields, ih]

theorem Callable.same_self (f : Callable) : f.same f = true := by
  cases f <;> simp [Callable.same]

theorem Value.HoldsNaN.not_same {v : Value} (h : v.HoldsNaN) : ¬ v.same v = true := by
  induction h with
  | number h =>
    rw [Value.same, number_beq_self_iff, h]
    simp
  | item hv _ ih =>
    rw [Value.same, sameItems_self_iff]
    exact fun hall => ih (hall _ hv)
  | field hentry _ ih =>
    rw [Value.same, sameFields_self_iff]
    exact fun hall => ih (hall _ hentry)

theorem Value.same_self : ∀ {v : Value}, ¬ v.HoldsNaN → v.same v = true
  | .undefined, _ | .null, _ => by simp [Value.same]
  | .bool _, _ | .string _, _ => by simp [Value.same]
  | .number x, h => by
    rw [Value.same, number_beq_self_iff]
    exact Bool.eq_false_iff.mpr fun hx => h (.number hx)
  | .array items, h => by
    rw [Value.same, sameItems_self_iff]
    exact fun v hv => Value.same_self fun hnan => h (.item hv hnan)
  | .object fields, h => by
    rw [Value.same, sameFields_self_iff]
    exact fun entry hentry => Value.same_self fun hnan => h (.field hentry hnan)
  | .function f, _ => by
    rw [Value.same]
    exact f.same_self
termination_by v => v
decreasing_by
  · have := List.sizeOf_lt_of_mem hv
    simp only [Value.array.sizeOf_spec]
    omega
  · have := List.sizeOf_lt_of_mem hentry
    have : sizeOf entry.2 < sizeOf entry := by
      obtain ⟨key, v⟩ := entry
      simp
    simp only [Value.object.sizeOf_spec]
    omega

/-- **A value is the same as itself if it holds no `NaN`, and only then.** -/
theorem Value.same_self_iff {v : Value} : v.same v = true ↔ ¬ v.HoldsNaN :=
  ⟨fun h hnan => hnan.not_same h, Value.same_self⟩

/-- The instruction is no literal that holds `NaN`. -/
def Instr.NaNFree : Instr → Prop
  | .literal v => ¬ v.HoldsNaN
  | _ => True

/-- **A program is the same as itself if no literal in it holds `NaN`, and only then.** -/
theorem sameProgram_self_iff {p : Program} :
    sameProgram p p = true ↔ Program.Everywhere Instr.NaNFree p := by
  induction p using Program.induct with
  | nil => simp [sameProgram]
  | cons instr rest hbody hrest =>
    have hinstr : instr.same instr = true ↔ Instr.Everywhere Instr.NaNFree instr := by
      cases instr with
      | literal v => exact Value.same_self_iff
      | sub body =>
        rw [Instr.same]
        exact hbody body rfl
      | _ => simp [Instr.same, Instr.Everywhere, Instr.NaNFree]
    rw [sameProgram, Bool.and_eq_true, hinstr, hrest, everywhere_cons]

/-! ## Rows of instructions -/

theorem length_eq_of_same {p q : Program} (h : sameProgram p q = true) : p.length = q.length := by
  induction p generalizing q with
  | nil =>
    cases q with
    | nil => rfl
    | cons => simp [sameProgram] at h
  | cons instr p ih =>
    cases q with
    | nil => simp [sameProgram] at h
    | cons other q =>
      rw [sameProgram, Bool.and_eq_true] at h
      rw [List.length_cons, List.length_cons, ih h.2]

theorem eq_var_of_same {instr : Instr} {name : String} (h : instr.same (.var name) = true) :
    instr = .var name := by
  cases instr with
  | var other => simpa [Instr.same] using h
  | _ => simp [Instr.same] at h

theorem same_of_same_append {p p' q q' : Program} (hlength : p.length = q.length)
    (h : sameProgram (p ++ p') (q ++ q') = true) :
    sameProgram p q = true ∧ sameProgram p' q' = true := by
  induction p generalizing q with
  | nil =>
    obtain rfl := List.length_eq_zero_iff.mp hlength.symm
    exact ⟨by simp [sameProgram], h⟩
  | cons instr p ih =>
    cases q with
    | nil => simp at hlength
    | cons other q =>
      simp only [List.cons_append, sameProgram, Bool.and_eq_true] at h ⊢
      obtain ⟨hp, hq⟩ := ih (by simpa using hlength) h.2
      exact ⟨⟨h.1, hp⟩, hq⟩

/-- What a pass makes of a program behind another one: the whole is too short to be the same, or
there is a program as long behind the other one, which is that program if it is the same. -/
def Reworks (front program whole : Program) : Prop :=
  whole.length < front.length + program.length ∨
    ∃ back, whole = front ++ back ∧ back.length = program.length ∧
      (sameProgram back program = true → back = program)

namespace Reworks
variable {front program whole : Program}

theorem nil (front : Program) : Reworks front [] front := .inr ⟨[], by simp⟩

theorem length_le (h : Reworks front program whole) :
    whole.length ≤ front.length + program.length := by
  obtain hshort | ⟨back, rfl, hlength, -⟩ := h
  · omega
  · rw [List.length_append, hlength]

/-- A pass goes on behind what it has made. -/
theorem append {further whole' : Program} (h : Reworks front program whole)
    (h' : Reworks whole further whole') : Reworks front (program ++ further) whole' := by
  have hle := h.length_le
  obtain hshort | ⟨back', rfl, hlength', hsame'⟩ := h'
  · left
    rw [List.length_append]
    omega
  · obtain hshort | ⟨back, rfl, hlength, hsame⟩ := h
    · left
      rw [List.length_append, List.length_append]
      omega
    · refine .inr ⟨back ++ back', List.append_assoc _ _ _, by simp [hlength, hlength'], fun h => ?_⟩
      obtain ⟨hback, hback'⟩ := same_of_same_append hlength h
      rw [hsame hback, hsame' hback']

theorem eq_of_same (h : Reworks [] program whole) (hsame : sameProgram whole program = true) :
    whole = program := by
  obtain hshort | ⟨back, rfl, -, hback⟩ := h
  · have hlength := length_eq_of_same hsame
    rw [List.length_nil] at hshort
    omega
  · exact hback hsame

end Reworks

/-! ## Folding -/

section
variable {options : Options} {known inner : Dict Value} {s : FoldState} {instr : Instr}

theorem length_program (s : FoldState) : s.program.length = s.written.length + s.held.length := by
  simp [FoldState.program]

/-- One instruction is put behind what there is. -/
theorem reworks_put {put : Instr} (h : put.same instr = true → put = instr) :
    Reworks s.program [instr] (s.program ++ [put]) := by
  refine .inr ⟨[put], rfl, rfl, fun hsame => ?_⟩
  rw [sameProgram, Bool.and_eq_true] at hsame
  rw [h hsame.1]

theorem reworks_emit {put : Instr} (h : put.same instr = true → put = instr) :
    Reworks s.program [instr] (s.emit put).program := by
  rw [FoldState.program_emit]
  exact reworks_put h

theorem reworks_hold {v : Value} (h : v.toInstr.same instr = true → v.toInstr = instr) :
    Reworks s.program [instr] (s.hold v).program := by
  rw [FoldState.program_hold]
  exact reworks_put h

/-- The result of an operation stands in place of one operand at least. -/
theorem reworks_replace {rest : List Value} (hrest : rest.length < s.held.length)
    (result : Except Fault Value) : Reworks s.program [instr] (s.replace instr rest result).program := by
  cases result with
  | ok v =>
    left
    rw [length_program, length_program]
    simp only [FoldState.replace, List.length_cons, List.length_nil]
    omega
  | error _ => exact reworks_emit fun _ => rfl

variable (options known inner s) in
/-- **An instruction is written as it is, or as one that is not the same, or it makes the program
shorter**, if that is so of the program that it puts aside. -/
theorem reworks_fold (instr : Instr) (hbody : ∀ body, instr = .sub body →
      Reworks [] body (Program.foldFrom options inner [] {} body).program) :
    Reworks s.program [instr] (instr.fold options known inner s).program := by
  obtain ⟨written, held⟩ := s
  cases instr with
  | literal v =>
    refine reworks_hold fun hsame => ?_
    cases v with
    | undefined => simp [Value.toInstr, Instr.same] at hsame
    | _ => rfl
  | undefined => exact reworks_hold fun _ => rfl
  | var name =>
    simp only [Instr.fold, FoldState.step]
    split
    · exact reworks_emit fun _ => rfl
    · exact reworks_emit fun _ => rfl
    · exact reworks_hold eq_var_of_same
  | unary op =>
    cases held with
    | nil => exact reworks_emit fun _ => rfl
    | cons x held => exact reworks_replace (by simp) _
  | binary op =>
    obtain _ | ⟨right, _ | ⟨left, held⟩⟩ := held
    · exact reworks_emit fun _ => rfl
    · exact reworks_emit fun _ => rfl
    · exact reworks_replace (by simp) _
  | index =>
    obtain _ | ⟨key, _ | ⟨target, held⟩⟩ := held
    · exact reworks_emit fun _ => rfl
    · exact reworks_emit fun _ => rfl
    · simp only [Instr.fold, FoldState.step]
      split
      · exact reworks_replace (by simp) _
      · exact reworks_emit fun _ => rfl
  | member name =>
    cases held with
    | nil => exact reworks_emit fun _ => rfl
    | cons target held =>
      simp only [Instr.fold, FoldState.step]
      split
      · exact reworks_replace (by simp) _
      · exact reworks_emit fun _ => rfl
  | array n =>
    simp only [Instr.fold, FoldState.step]
    split
    · rename_i hn
      cases n with
      | zero => exact reworks_hold fun hsame => by simp [Value.toInstr, Instr.same] at hsame
      | succ n =>
        left
        rw [length_program, length_program]
        simp only [List.length_cons, List.length_nil, List.length_drop]
        omega
    · exact reworks_emit fun _ => rfl
  | sub body =>
    refine reworks_emit fun hsame => ?_
    rw [Instr.same] at hsame
    rw [(hbody body rfl).eq_of_same hsame]
  | _ => exact reworks_emit fun _ => rfl

theorem reworks_foldFrom (known : Dict Value) (before : List Instr) (s : FoldState)
    (program : Program) :
    Reworks s.program program (Program.foldFrom options known before s program).program := by
  induction program using Program.induct generalizing known before s with
  | nil => exact .nil _
  | cons instr rest hbody hrest =>
    rw [Program.foldFrom]
    exact (reworks_fold options known _ s instr fun body h => hbody body h _ [] {}).append
      (hrest known (instr :: before) _)

/-- **Where folding makes the same program, it makes no change.** -/
theorem fold_eq_of_same {program : Program}
    (h : sameProgram (program.fold options known) program = true) :
    program.fold options known = program :=
  (reworks_foldFrom known [] {} program).eq_of_same h

end

/-! ## Substitution -/

/-- **Where substitution makes the same program, it makes no change.**  The copies are as long as
the reference then, so each instruction is compared with what has become of it. -/
theorem substitute_eq_of_same {x : String} {w p : Program}
    (h : sameProgram (p.substitute x w) p = true) : p.substitute x w = p := by
  induction p using Program.induct with
  | nil => simp
  | cons instr rest hbody hrest =>
    rw [Program.substitute_cons] at h ⊢
    have hlength := length_eq_of_same h
    rw [List.length_append, List.length_cons] at hlength
    have hone : (instr.substitute x w).length = 1 := by
      cases instr with
      | var name =>
        by_cases hname : name = x
        · rw [Instr.substitute, if_pos hname] at hlength ⊢
          cases w with
          | nil =>
            have hle := length_substitute_nil_le (x := x) rest
            rw [List.length_nil] at hlength
            omega
          | cons first w =>
            have hle := length_le_substitute (x := x) (List.cons_ne_nil first w) rest
            rw [List.length_cons] at hlength ⊢
            omega
        · simp [Instr.substitute, hname]
      | _ => simp [Instr.substitute]
    obtain ⟨put, hput⟩ := List.length_eq_one_iff.mp hone
    rw [hput, List.singleton_append, sameProgram, Bool.and_eq_true] at h
    have hinstr : put = instr := by
      cases instr with
      | var name => exact eq_var_of_same h.1
      | sub body =>
        obtain rfl : Instr.sub (Program.substitute body x w) = put := by
          simpa [Instr.substitute] using hput
        rw [Instr.same] at h
        rw [hbody body rfl h.1]
      | _ => simpa [Instr.substitute, eq_comm] using hput
    rw [hput, hinstr, List.singleton_append, hrest h.2]

end Formula
