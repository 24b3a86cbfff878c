import Formula.Proofs.FoldingTrees

/-! # Folding again

A program that was folded does not change when it is folded again with the same variables known
(`Program.fold_fold`), whether or not it is the code of a term.  The second pass sees other
instructions at other places, but it takes the same turns: whatever the first pass wrote out, it
wrote out behind values that the second pass holds again, and the program of a function's body
still stands between the names of the same parameters and the same definition.
-/
namespace Formula

/-- **Induction over programs** and the programs inside them. -/
theorem Program.induct {motive : List Instr → Prop} (nil : motive [])
    (cons : ∀ instr rest, (∀ body, instr = .sub body → motive body) → motive rest →
      motive (instr :: rest)) : ∀ program, motive program
  | [] => nil
  | instr :: rest =>
    cons instr rest (fun body _ => Program.induct nil cons body) (Program.induct nil cons rest)
termination_by program => sizeOf program
decreasing_by
  · rename_i h
    subst h
    simp only [List.cons.sizeOf_spec, Instr.sub.sizeOf_spec]
    omega
  · simp only [List.cons.sizeOf_spec]
    omega

/-! ## What a pass knows of its surroundings -/

/-- The names right before a place in a program, the nearest first. -/
def namesBefore : List Instr → List String
  | .name n :: rest => n :: namesBefore rest
  | _ => []

/-- The number of parameters of the function that is defined right behind a place. -/
def paramsBehind? : List Instr → Option Nat
  | .define params :: _ => some params
  | _ => none

theorem namesOnly?_take (n : Nat) (before : List Instr) :
    (if n ≤ before.length then namesOnly? (before.take n) else none)
      = if n ≤ (namesBefore before).length then some ((namesBefore before).take n) else none := by
  induction n generalizing before with
  | zero => simp [namesOnly?]
  | succ n ih =>
    cases before with
    | nil => simp [namesBefore]
    | cons instr before =>
      have hrest := ih before
      cases instr
      case name name =>
        simp only [List.length_cons, Nat.add_le_add_iff_right, List.take_succ_cons, namesOnly?,
          namesBefore]
        by_cases hn : n ≤ before.length
        · rw [if_pos hn] at hrest ⊢
          rw [hrest]
          split <;> rfl
        · rw [if_neg hn] at hrest ⊢
          split at hrest
          · cases hrest
          · rename_i hshort
            rw [if_neg hshort]
      all_goals simp [namesOnly?, namesBefore]

/-- The parameters of a body are names right before it, as many as the definition right behind it
has. -/
theorem paramsAround?_eq (before after : List Instr) : paramsAround? before after
    = (paramsBehind? after).bind fun n =>
        if n ≤ (namesBefore before).length then some ((namesBefore before).take n) else none := by
  cases after with
  | nil => rfl
  | cons instr after =>
    cases instr
    case define n => exact namesOnly?_take n before
    all_goals rfl

/-- What is known in a program inside a program depends on the names right before it and the
definition right behind it, and on nothing else around it. -/
theorem knownAround_congr (known : Dict Value) {before before' after after' : List Instr}
    (hbefore : namesBefore before = namesBefore before')
    (hafter : paramsBehind? after = paramsBehind? after') :
    knownAround known before after = knownAround known before' after' := by
  rw [knownAround, knownAround, paramsAround?_eq, paramsAround?_eq, hbefore, hafter]

theorem namesBefore_map_toInstr (v : Value) (held : List Value) (before : List Instr) :
    namesBefore ((v :: held).map Value.toInstr ++ before) = [] := by
  cases v <;> rfl

/-! ## One step -/

namespace FoldState

/-- A program under way behind another one. -/
def behind (front : Program) (s : FoldState) : FoldState := { s with written := front ++ s.written }

theorem program_behind (front : Program) (s : FoldState) :
    (s.behind front).program = front ++ s.program := by simp [behind, program]

theorem emit_eq_behind (held : List Value) (instr : Instr) :
    emit ⟨[], held⟩ instr = behind (held.reverse.map Value.toInstr ++ [instr]) {} := by
  simp [emit, behind, program]

end FoldState

/-- The instruction that is written out for an instruction. -/
def Instr.folded (options : Options) (inner : Dict Value) : Instr → Instr
  | .sub body => .sub (Program.foldFrom options inner [] {} body).program
  | instr => instr

/-- Neither a name nor the definition of a function: to a program inside the program it does not
matter which of these instructions stands next to it. -/
def Instr.Plain (instr : Instr) : Prop :=
  (∀ before, namesBefore (instr :: before) = []) ∧ ∀ after, paramsBehind? (instr :: after) = none

theorem Value.plain_toInstr (v : Value) : v.toInstr.Plain := by
  cases v <;> exact ⟨fun _ => rfl, fun _ => rfl⟩

/-- What an instruction does to a pass: a value takes the place of values that were held, or all
that is held is written out, and an instruction behind it.  What has been written before does not
matter. -/
inductive Instr.Turns (options : Options) (known inner : Dict Value) (held : List Value)
    (instr : Instr) : Prop
  | holds (v : Value) (rest : List Value) (plain : instr.Plain)
      (fold_eq : ∀ written,
        instr.fold options known inner ⟨written, held⟩ = ⟨written, v :: rest⟩)
  | emits (fold_eq : ∀ written, instr.fold options known inner ⟨written, held⟩
      = FoldState.emit ⟨written, held⟩ (instr.folded options inner))

section
variable {options : Options} {known inner : Dict Value} {held : List Value} {instr : Instr}

/-- An operation on held values is replaced by its result or written out. -/
theorem Instr.Turns.of_replace (rest : List Value) (result : Except Fault Value)
    (plain : instr.Plain)
    (hfolded : instr.folded options inner = instr)
    (h : ∀ written, instr.fold options known inner ⟨written, held⟩
      = FoldState.replace ⟨written, held⟩ instr rest result) :
    instr.Turns options known inner held := by
  cases result with
  | ok v => exact .holds v rest plain h
  | error fault =>
    refine .emits fun written => ?_
    rw [h, hfolded]
    rfl

variable (options known inner held) in
/-- **Every instruction takes one of the two turns, whatever is known and held.** -/
theorem Instr.turns (instr : Instr) : instr.Turns options known inner held := by
  cases instr with
  | literal v => exact .holds v held ⟨fun _ => rfl, fun _ => rfl⟩ fun _ => rfl
  | undefined => exact .holds .undefined held ⟨fun _ => rfl, fun _ => rfl⟩ fun _ => rfl
  | var name =>
    cases hname : known.get? name with
    | none =>
      refine .emits fun written => ?_
      simp only [Instr.fold, Instr.folded, FoldState.step, hname]
    | some v =>
      by_cases hfunction : ∃ f, v = .function f
      · obtain ⟨f, rfl⟩ := hfunction
        refine .emits fun written => ?_
        simp only [Instr.fold, Instr.folded, FoldState.step, hname]
      · refine .holds v held ⟨fun _ => rfl, fun _ => rfl⟩ fun written => ?_
        cases v with
        | function f => exact absurd ⟨f, rfl⟩ hfunction
        | _ => simp only [Instr.fold, FoldState.step, hname, FoldState.hold]
  | unary op =>
    cases held with
    | nil => exact .emits fun _ => rfl
    | cons x held => exact .of_replace _ _ ⟨fun _ => rfl, fun _ => rfl⟩ rfl fun _ => rfl
  | binary op =>
    obtain _ | ⟨right, _ | ⟨left, held⟩⟩ := held
    · exact .emits fun _ => rfl
    · exact .emits fun _ => rfl
    · exact .of_replace _ _ ⟨fun _ => rfl, fun _ => rfl⟩ rfl fun _ => rfl
  | index =>
    obtain _ | ⟨key, _ | ⟨target, held⟩⟩ := held
    · exact .emits fun _ => rfl
    · exact .emits fun _ => rfl
    · by_cases hallow : options.allowMemberAccess
      · refine .of_replace held (target.index key) ⟨fun _ => rfl, fun _ => rfl⟩ rfl
          fun written => ?_
        simp only [Instr.fold, FoldState.step, if_pos hallow]
      · refine .emits fun written => ?_
        simp only [Instr.fold, FoldState.step, if_neg hallow, Instr.folded]
  | member name =>
    cases held with
    | nil => exact .emits fun _ => rfl
    | cons target held =>
      by_cases hallow : options.allowMemberAccess
      · refine .of_replace held (target.member name) ⟨fun _ => rfl, fun _ => rfl⟩ rfl
          fun written => ?_
        simp only [Instr.fold, FoldState.step, if_pos hallow]
      · refine .emits fun written => ?_
        simp only [Instr.fold, FoldState.step, if_neg hallow, Instr.folded]
  | array n =>
    by_cases hn : n ≤ held.length
    · refine .holds (.array (held.take n).reverse) (held.drop n)
        ⟨fun _ => rfl, fun _ => rfl⟩ fun written => ?_
      simp only [Instr.fold, FoldState.step, if_pos hn]
    · refine .emits fun written => ?_
      simp only [Instr.fold, FoldState.step, if_neg hn, Instr.folded]
  | _ => exact .emits fun _ => rfl

/-! ## A whole pass -/

variable {before : List Instr}

/-- What has been written before has no part in what a pass does. -/
theorem foldFrom_behind (front : Program) (s : FoldState) (program : Program) :
    Program.foldFrom options known before (s.behind front) program
      = (Program.foldFrom options known before s program).behind front := by
  induction program generalizing before s with
  | nil => rfl
  | cons instr program ih =>
    have hstep (inner : Dict Value) : instr.fold options known inner (s.behind front)
        = (instr.fold options known inner s).behind front := by
      cases instr.turns options known inner s.held with
      | holds v rest _ fold_eq =>
        exact (fold_eq _).trans (congrArg (FoldState.behind front) (fold_eq s.written)).symm
      | emits fold_eq =>
        refine (fold_eq _).trans
          (Eq.trans ?_ (congrArg (FoldState.behind front) (fold_eq s.written)).symm)
        simp [FoldState.emit, FoldState.behind, FoldState.program]
    rw [Program.foldFrom, hstep, ih, Program.foldFrom]

section
variable (options known before)

/-- Values are held one after the other. -/
theorem foldFrom_values (vs : List Value) (s : FoldState) (program : Program) :
    Program.foldFrom options known before s (vs.map Value.toInstr ++ program)
      = Program.foldFrom options known ((vs.map Value.toInstr).reverse ++ before)
          { s with held := vs.reverse ++ s.held } program := by
  induction vs generalizing before s with
  | nil => rfl
  | cons v vs ih =>
    have hstep (inner : Dict Value) : v.toInstr.fold options known inner s = s.hold v := by
      cases v <;> rfl
    rw [List.map_cons, List.cons_append, Program.foldFrom, hstep, ih]
    simp [FoldState.hold]

/-- The program that comes of a pass that holds a value begins with a value. -/
theorem foldFrom_of_held (v : Value) (held : List Value) (program : Program) :
    ∃ u more, (Program.foldFrom options known before ⟨[], v :: held⟩ program).program
      = Value.toInstr u :: more := by
  induction program generalizing before v held with
  | nil =>
    obtain ⟨u, us, hu⟩ := List.exists_cons_of_ne_nil (l := (v :: held).reverse) (by simp)
    exact ⟨u, us.map Value.toInstr, by simp only [Program.foldFrom, FoldState.program, hu]; rfl⟩
  | cons instr program ih =>
    rw [Program.foldFrom]
    cases instr.turns options known (knownAround known before program) (v :: held) with
    | holds w rest _ fold_eq =>
      rw [fold_eq]
      exact ih (instr :: before) w rest
    | emits fold_eq =>
      obtain ⟨u, us, hu⟩ := List.exists_cons_of_ne_nil (l := (v :: held).reverse) (by simp)
      rw [fold_eq, FoldState.emit_eq_behind, foldFrom_behind, FoldState.program_behind, hu]
      exact ⟨u, _, rfl⟩

/-- A pass leaves the definition of a function at the head of a program, and makes none. -/
theorem paramsBehind?_foldFrom (program : Program) :
    paramsBehind? (Program.foldFrom options known before {} program).program
      = paramsBehind? program := by
  cases program with
  | nil => rfl
  | cons instr program =>
    rw [Program.foldFrom]
    cases instr.turns options known (knownAround known before program) [] with
    | holds v rest plain fold_eq =>
      obtain ⟨u, more, hmore⟩ := foldFrom_of_held options known (instr :: before) v rest program
      rw [fold_eq, hmore, u.plain_toInstr.2, plain.2]
    | emits fold_eq =>
      rw [fold_eq, FoldState.emit_eq_behind, foldFrom_behind, FoldState.program_behind]
      cases instr <;> rfl

end

/-- The names behind which a program inside the program stands are not changed by a pass. -/
theorem namesBefore_folded (instr : Instr) {before' : List Instr}
    (h : namesBefore before' = namesBefore before) :
    namesBefore (instr.folded options inner :: before') = namesBefore (instr :: before) := by
  cases instr with
  | name n => exact congrArg (n :: ·) h
  | _ => rfl

/-- A pass over what a pass has made of a program comes out as that pass did, if the names right
before both are the same. -/
def Refolds (options : Options) (known : Dict Value) (before : List Instr) (held : List Value)
    (program : Program) : Prop :=
  ∀ before', namesBefore (held.map Value.toInstr ++ before') = namesBefore before →
    Program.foldFrom options known before' {}
        (Program.foldFrom options known before ⟨[], held⟩ program).program
      = Program.foldFrom options known before ⟨[], held⟩ program

/-- The instruction that was written out for an instruction is written out again as it is. -/
theorem fold_folded {instr : Instr}
    (hbody : ∀ body, instr = .sub body → Refolds options inner [] [] body)
    (fold_eq : ∀ written, instr.fold options known inner ⟨written, held⟩
      = FoldState.emit ⟨written, held⟩ (instr.folded options inner)) (written : Program) :
    (instr.folded options inner).fold options known inner ⟨written, held⟩
      = FoldState.emit ⟨written, held⟩ (instr.folded options inner) := by
  cases instr with
  | sub body =>
    have h := hbody body rfl [] rfl
    rw [Instr.folded, Instr.fold, h]
  | _ => exact fold_eq written

/-- One more instruction in front: what is held stays what it was, or all of it is written out and
held again by the second pass. -/
theorem Refolds.cons {instr : Instr} {program : Program}
    (hbody : ∀ body, instr = .sub body →
      Refolds options (knownAround known before program) [] [] body)
    (hrest : ∀ held, Refolds options known (instr :: before) held program) :
    Refolds options known before held (instr :: program) := by
  intro before' hbefore
  rw [Program.foldFrom]
  cases instr.turns options known (knownAround known before program) held with
  | holds v rest plain fold_eq =>
    rw [fold_eq]
    refine hrest (v :: rest) before' ?_
    rw [plain.1]
    exact namesBefore_map_toInstr v rest before'
  | emits fold_eq =>
    -- The values that were written out are held again; then the written instruction finds the
    -- same values held, the same names before it and the same definition behind it.
    have hagain := hrest [] (instr.folded options (knownAround known before program)
      :: (held.map Value.toInstr ++ before')) (namesBefore_folded instr hbefore)
    have hknown := knownAround_congr known hbefore
      (paramsBehind?_foldFrom options known (instr :: before) program)
    rw [fold_eq, FoldState.emit_eq_behind, foldFrom_behind, FoldState.program_behind,
      List.append_assoc, foldFrom_values, List.singleton_append, Program.foldFrom]
    simp only [List.map_reverse, List.reverse_reverse, List.append_nil]
    rw [hknown, fold_folded hbody fold_eq, FoldState.emit_eq_behind, foldFrom_behind, hagain,
      List.map_reverse]

/-- A second pass over any program repeats the first. -/
theorem refolds (known : Dict Value) (before : List Instr) (held : List Value)
    (program : Program) : Refolds options known before held program := by
  induction program using Program.induct generalizing known before held with
  | nil =>
    intro before' _
    have h := foldFrom_values options known before' held.reverse {} []
    simpa [Program.foldFrom, FoldState.program] using h
  | cons instr program ihbody ihrest =>
    exact Refolds.cons (fun body h => ihbody body h _ _ _) fun held => ihrest known _ held

end

/-- **Folding a folded program with the same variables known changes nothing**, whatever program
it is. -/
theorem Program.fold_fold (options : Options) (known : Dict Value) (program : Program) :
    (program.fold options known).fold options known = program.fold options known :=
  congrArg FoldState.program (refolds known [] [] program [] rfl)

end Formula
