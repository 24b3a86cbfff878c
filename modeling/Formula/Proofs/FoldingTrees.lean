import Formula.Program.Folding
import Formula.Proofs.Trees

/-! # Folding trees

Folding replays a program and knows a suffix of the stack.  On the code of a term it does what
folding the term itself does: an operation all of whose operands are known becomes its result, all
else is rebuilt of folded parts, and a definition forgets the variables that its parameters hide
(`fold_code`).  So the folded code of a term is the code of a term again, and what is to be said of
folded programs can be said of folded terms.
-/
namespace Formula

theorem Dict.eraseAll_eq_filter {α : Type} (entries : Dict α) (gone : List String) :
    entries.eraseAll gone = entries.filter fun entry => entry.1 ∉ gone := by
  induction gone generalizing entries with
  | nil => exact (List.filter_eq_self.mpr (by simp)).symm
  | cons name gone ih =>
    have herase : entries.erase name = entries.filter fun entry => entry.1 ≠ name := by
      clear ih
      induction entries with
      | nil => rfl
      | cons entry entries ih =>
        obtain ⟨key, v⟩ := entry
        by_cases hk : key = name <;> simp [Dict.erase, hk, ih]
    show (entries.erase name).eraseAll gone = _
    rw [ih, herase, List.filter_filter]
    simp [List.mem_cons, not_or, Bool.and_comm]

theorem Dict.eraseAll_reverse {α : Type} (entries : Dict α) (gone : List String) :
    entries.eraseAll gone.reverse = entries.eraseAll gone := by
  simp [Dict.eraseAll_eq_filter]

/-! ## Folding a term -/

/-- The literal for a value. -/
def Term.ofValue : Value → Term
  | .undefined => .undefined
  | v => .literal v

/-- The value of a term that is the literal for a value. -/
def Term.known? : Term → Option Value
  | .literal .undefined => none
  | .literal v => some v
  | .undefined => some .undefined
  | _ => none

@[simp] theorem Term.known?_ofValue (v : Value) : (Term.ofValue v).known? = some v := by
  cases v <;> rfl

theorem Term.eq_ofValue_of_known? {t : Term} {v : Value} (h : t.known? = some v) :
    t = .ofValue v := by
  unfold Term.known? at h
  split at h
  · cases h
  · obtain rfl := Option.some.inj h
    rename_i hne
    unfold Term.ofValue
    split
    · exact absurd rfl hne
    · rfl
  · obtain rfl := Option.some.inj h
    rfl
  · cases h

theorem Term.code_ofValue (v : Value) : (Term.ofValue v).code = [v.toInstr] := by
  cases v <;> rfl

/-- The values of terms that all are literals. -/
def knownAll? : List Term → Option (List Value)
  | [] => some []
  | t :: rest =>
    match t.known?, knownAll? rest with
    | some v, some vs => some (v :: vs)
    | _, _ => none

/-- The result of an operation, or the operation if it has none. -/
def Term.orResult (t : Term) : Except Fault Value → Term
  | .ok v => .ofValue v
  | .error _ => t

section
variable (options : Options)

mutual

/-- A term with everything computed that the known variables determine. -/
def Term.fold (known : Dict Value) : Term → Term
  | .literal v => .ofValue v
  | .undefined => .undefined
  | .var name =>
    match known.get? name with
    | none | some (.function _) => .var name
    | some v => .ofValue v
  | .unary op operand =>
    let t := operand.fold known
    match t.known? with
    | some x => Term.orResult (.unary op t) (op.apply x)
    | none => .unary op t
  | .binary op left right =>
    let l := left.fold known
    let r := right.fold known
    match l.known?, r.known? with
    | some x, some y => Term.orResult (.binary op l r) (op.apply x y)
    | _, _ => .binary op l r
  | .and left right => .and (left.fold known) (right.fold known)
  | .or left right => .or (left.fold known) (right.fold known)
  | .choose condition yes no => .choose (condition.fold known) (yes.fold known) (no.fold known)
  | .caseOf subject arms otherwise =>
    .caseOf (foldOption known subject) (foldArms known arms) (foldOption known otherwise)
  | .member target name =>
    let t := target.fold known
    match t.known? with
    | some x =>
      if options.allowMemberAccess then Term.orResult (.member t name) (x.member name)
      else .member t name
    | none => .member t name
  | .index target key =>
    let t := target.fold known
    let k := key.fold known
    match t.known?, k.known? with
    | some x, some y =>
      if options.allowMemberAccess then Term.orResult (.index t k) (x.index y) else .index t k
    | _, _ => .index t k
  | .call callee arguments => .call (callee.fold known) (foldTerms known arguments)
  | .array items =>
    let ts := foldTerms known items
    match knownAll? ts with
    | some vs => .literal (.array vs)
    | none => .array ts
  | .object fields => .object (foldFields known fields)
  | .assign root path value => .assign root path (value.fold known)
  | .define name params body => .define name params (body.fold (known.eraseAll params))
  | .sequence first rest => .sequence (first.fold known) (foldTerms known rest)

/-- Folds a term if there is one. -/
def foldOption (known : Dict Value) : Option Term → Option Term
  | none => none
  | some t => some (t.fold known)

/-- Folds terms in a row. -/
def foldTerms (known : Dict Value) : List Term → List Term
  | [] => []
  | t :: rest => t.fold known :: foldTerms known rest

/-- Folds conditions and results. -/
def foldArms (known : Dict Value) : List (Term × Term) → List (Term × Term)
  | [] => []
  | (condition, result) :: rest =>
    (condition.fold known, result.fold known) :: foldArms known rest

/-- Folds the fields of an object. -/
def foldFields (known : Dict Value) : List (String × Term) → List (String × Term)
  | [] => []
  | (key, t) :: rest => (key, t.fold known) :: foldFields known rest

end

attribute [local simp] Term.fold foldTerms foldFields foldArms foldOption

theorem foldTerms_eq_map (known : Dict Value) (terms : List Term) :
    foldTerms options known terms = terms.map (Term.fold options known) := by
  induction terms with
  | nil => rfl
  | cons t terms ih => simp [ih]

theorem foldOption_eq_map (known : Dict Value) (t : Option Term) :
    foldOption options known t = t.map (Term.fold options known) := by
  cases t <;> rfl

theorem foldArms_eq_map (known : Dict Value) (arms : List (Term × Term)) :
    foldArms options known arms
      = arms.map fun arm => (arm.1.fold options known, arm.2.fold options known) := by
  induction arms with
  | nil => rfl
  | cons arm arms ih =>
    obtain ⟨condition, result⟩ := arm
    simp [ih]

theorem foldFields_eq_map (known : Dict Value) (fields : List (String × Term)) :
    foldFields options known fields
      = fields.map fun field => (field.1, field.2.fold options known) := by
  induction fields with
  | nil => rfl
  | cons field fields ih =>
    obtain ⟨key, t⟩ := field
    simp [ih]

end

/-! ## Folding the code of a term -/

namespace FoldState

/-- Goes on with the code of a folded term: a literal is held, all else is written out. -/
def add (s : FoldState) (t : Term) : FoldState :=
  match t.known? with
  | some v => s.hold v
  | none => ⟨s.program ++ t.code, []⟩

/-- Goes on with folded operands in a row. -/
def addAll (s : FoldState) (terms : List Term) : FoldState := terms.foldl add s

/-- Goes on with folded fields of an object. -/
def addFields (s : FoldState) (fields : List (String × Term)) : FoldState :=
  fields.foldl (fun s field => (s.emit (.property field.1)).add field.2) s

/-- Goes on with the folded statements behind the first. -/
def addStatements (s : FoldState) (terms : List Term) : FoldState :=
  terms.foldl (fun s t => (s.emit .endStatement).add t) s

/-- Writes out instructions in a row. -/
def emitAll (s : FoldState) (instrs : Program) : FoldState := instrs.foldl emit s

variable (s : FoldState)

theorem program_hold (v : Value) : (s.hold v).program = s.program ++ [v.toInstr] := by
  simp [program, hold]

theorem program_emit (instr : Instr) : (s.emit instr).program = s.program ++ [instr] := by
  simp [program, emit]

theorem program_emitAll (instrs : Program) : (s.emitAll instrs).program = s.program ++ instrs := by
  induction instrs generalizing s with
  | nil => simp [emitAll]
  | cons instr instrs ih =>
    show ((s.emit instr).emitAll instrs).program = _
    rw [ih, program_emit, List.append_assoc]
    rfl

theorem add_ofValue (v : Value) : s.add (.ofValue v) = s.hold v := by simp [add]

theorem add_of_known? {t : Term} {v : Value} (h : t.known? = some v) : s.add t = s.hold v := by
  simp [add, h]

theorem add_of_unknown {t : Term} (h : t.known? = none) :
    s.add t = ⟨s.program ++ t.code, []⟩ := by simp [add, h]

theorem program_add (t : Term) : (s.add t).program = s.program ++ t.code := by
  cases h : t.known? with
  | some v => rw [add_of_known? s h, program_hold, Term.eq_ofValue_of_known? h, Term.code_ofValue]
  | none => rw [add_of_unknown s h]; simp [program]

theorem program_addAll (terms : List Term) :
    (s.addAll terms).program = s.program ++ operandsCode terms := by
  induction terms generalizing s with
  | nil => simp [addAll, operandsCode]
  | cons t terms ih =>
    show ((s.add t).addAll terms).program = _
    rw [ih, program_add, operandsCode, List.append_assoc]

theorem program_addFields (fields : List (String × Term)) :
    (s.addFields fields).program = s.program ++ fieldsCode fields := by
  induction fields generalizing s with
  | nil => simp [addFields, fieldsCode]
  | cons field fields ih =>
    obtain ⟨key, t⟩ := field
    show (((s.emit (.property key)).add t).addFields fields).program = _
    rw [ih, program_add, program_emit, fieldsCode]
    simp

theorem program_addStatements (terms : List Term) :
    (s.addStatements terms).program = s.program ++ statementsCode terms := by
  induction terms generalizing s with
  | nil => simp [addStatements, statementsCode]
  | cons t terms ih =>
    show (((s.emit .endStatement).add t).addStatements terms).program = _
    rw [ih, program_add, program_emit, statementsCode]
    simp

theorem length_of_knownAll? {terms : List Term} {vs : List Value} (h : knownAll? terms = some vs) :
    vs.length = terms.length := by
  induction terms generalizing vs with
  | nil =>
    obtain rfl := Option.some.inj h
    rfl
  | cons t terms ih =>
    rw [knownAll?] at h
    split at h
    · rename_i v ws hv hws
      obtain rfl := Option.some.inj h
      rw [List.length_cons, ih hws, List.length_cons]
    · cases h

/-- Known operands are all held. -/
theorem addAll_of_known {terms : List Term} {vs : List Value} (h : knownAll? terms = some vs) :
    s.addAll terms = { s with held := vs.reverse ++ s.held } := by
  induction terms generalizing s vs with
  | nil =>
    obtain rfl := Option.some.inj h
    rfl
  | cons t terms ih =>
    rw [knownAll?] at h
    split at h
    · rename_i v ws hv hws
      obtain rfl := Option.some.inj h
      show (s.add t).addAll terms = _
      rw [ih _ hws, add_of_known? s hv]
      simp [hold]
    · cases h

theorem length_held_add_le (t : Term) : (s.add t).held.length ≤ s.held.length + 1 := by
  cases h : t.known? with
  | some v => rw [add_of_known? s h]; exact Nat.le_refl _
  | none => rw [add_of_unknown s h]; exact Nat.zero_le _

theorem length_held_addAll_le (terms : List Term) :
    (s.addAll terms).held.length ≤ s.held.length + terms.length := by
  induction terms generalizing s with
  | nil => exact Nat.le_refl _
  | cons t terms ih =>
    have h := ih (s.add t)
    have ht := length_held_add_le s t
    show ((s.add t).addAll terms).held.length ≤ s.held.length + (terms.length + 1)
    omega

/-- If an operand is unknown, fewer than all of them are held: nothing before it is. -/
theorem length_held_addAll_lt {terms : List Term} (h : knownAll? terms = none) :
    (s.addAll terms).held.length < terms.length := by
  induction terms generalizing s with
  | nil => cases h
  | cons t terms ih =>
    show ((s.add t).addAll terms).held.length < terms.length + 1
    cases ht : t.known? with
    | none =>
      have h := length_held_addAll_le (s.add t) terms
      rw [add_of_unknown s ht] at h ⊢
      simp only [List.length_nil] at h
      omega
    | some v =>
      have hrest : knownAll? terms = none := by
        cases hvs : knownAll? terms with
        | none => rfl
        | some vs => rw [knownAll?, ht, hvs] at h; cases h
      exact Nat.lt_succ_of_lt (ih (s.add t) hrest)

attribute [local simp] step

/-! ### One instruction -/

/-- An instruction that is written out behind its operands makes the term of both. -/
theorem emit_eq_add {s s' : FoldState} {instr : Instr} {t : Term} (ht : t.known? = none)
    (hcode : s'.program ++ [instr] = s.program ++ t.code) : s'.emit instr = s.add t := by
  rw [add_of_unknown s ht, emit, hcode]

/-- An operation on held values makes the term of its result, or is written out. -/
theorem replace_eq_add {s s' : FoldState} {instr : Instr} {t : Term} (ht : t.known? = none)
    (hcode : s'.program ++ [instr] = s.program ++ t.code) (hwritten : s'.written = s.written)
    (result : Except Fault Value) :
    s'.replace instr s.held result = s.add (t.orResult result) := by
  cases result with
  | ok v =>
    show { s' with held := v :: s.held } = s.add (.ofValue v)
    rw [add_ofValue, hold, hwritten]
  | error fault => exact emit_eq_add ht hcode

variable (options : Options) (known : Dict Value)

theorem step_unary (op : UnaryOp) (t : Term) :
    (s.add t).step options known (.unary op)
      = s.add (match t.known? with
          | some x => Term.orResult (.unary op t) (op.apply x)
          | none => .unary op t) := by
  have hcode : (s.add t).program ++ [Instr.unary op] = s.program ++ (Term.unary op t).code := by
    rw [program_add, Term.code, List.append_assoc]
  cases h : t.known? with
  | some x =>
    rw [add_of_known? s h] at hcode ⊢
    exact replace_eq_add rfl hcode rfl _
  | none =>
    rw [add_of_unknown s h] at hcode ⊢
    exact emit_eq_add rfl hcode

theorem step_member (name : String) (t : Term) :
    (s.add t).step options known (.member name)
      = s.add (match t.known? with
          | some x =>
            if options.allowMemberAccess then Term.orResult (.member t name) (x.member name)
            else .member t name
          | none => .member t name) := by
  have hcode : (s.add t).program ++ [Instr.member name]
      = s.program ++ (Term.member t name).code := by
    rw [program_add, Term.code, List.append_assoc]
  cases h : t.known? with
  | some x =>
    rw [add_of_known? s h] at hcode ⊢
    simp only [step, hold]
    split
    · exact replace_eq_add rfl hcode rfl _
    · exact emit_eq_add rfl hcode
  | none =>
    rw [add_of_unknown s h] at hcode ⊢
    exact emit_eq_add rfl hcode

theorem step_binary (op : BinaryOp) (l r : Term) :
    ((s.add l).add r).step options known (.binary op)
      = s.add (match l.known?, r.known? with
          | some x, some y => Term.orResult (.binary op l r) (op.apply x y)
          | _, _ => .binary op l r) := by
  have hcode : ((s.add l).add r).program ++ [Instr.binary op]
      = s.program ++ (Term.binary op l r).code := by
    simp only [program_add, Term.code, List.append_assoc]
  cases hr : r.known? with
  | none =>
    rw [add_of_unknown _ hr] at hcode ⊢
    cases l.known? <;> exact emit_eq_add rfl hcode
  | some y =>
    cases hl : l.known? with
    | none =>
      rw [add_of_known? _ hr, add_of_unknown s hl] at hcode ⊢
      exact emit_eq_add rfl hcode
    | some x =>
      rw [add_of_known? _ hr, add_of_known? s hl] at hcode ⊢
      exact replace_eq_add rfl hcode rfl _

theorem step_index (t k : Term) :
    ((s.add t).add k).step options known .index
      = s.add (match t.known?, k.known? with
          | some x, some y =>
            if options.allowMemberAccess then Term.orResult (.index t k) (x.index y)
            else .index t k
          | _, _ => .index t k) := by
  have hcode : ((s.add t).add k).program ++ [Instr.index] = s.program ++ (Term.index t k).code := by
    simp only [program_add, Term.code, List.append_assoc]
  cases hk : k.known? with
  | none =>
    rw [add_of_unknown _ hk] at hcode ⊢
    cases t.known? <;> exact emit_eq_add rfl hcode
  | some y =>
    cases ht : t.known? with
    | none =>
      rw [add_of_known? _ hk, add_of_unknown s ht] at hcode ⊢
      exact emit_eq_add rfl hcode
    | some x =>
      rw [add_of_known? _ hk, add_of_known? s ht] at hcode ⊢
      simp only [step, hold]
      split
      · exact replace_eq_add rfl hcode rfl _
      · exact emit_eq_add rfl hcode

theorem step_array (terms : List Term) :
    (s.addAll terms).step options known (.array terms.length)
      = s.add (match knownAll? terms with
          | some vs => .literal (.array vs)
          | none => .array terms) := by
  have hcode : (s.addAll terms).program ++ [Instr.array terms.length]
      = s.program ++ (Term.array terms).code := by
    rw [program_addAll, Term.code, List.append_assoc]
  cases h : knownAll? terms with
  | none =>
    have hlt : ¬ terms.length ≤ (s.addAll terms).held.length :=
      Nat.not_le_of_lt (length_held_addAll_lt s h)
    simpa [hlt] using emit_eq_add rfl hcode
  | some vs =>
    have hlen : vs.length = terms.length := length_of_knownAll? h
    simp [addAll_of_known s h, ← hlen, add, Term.known?, hold]

end FoldState

/-- The program does not begin with the definition of a function, so that a program right before it
is no function's body. -/
def NoDefine : Program → Prop
  | .define _ :: _ => False
  | _ => True

theorem noDefine_code (t : Term) (rest : Program) : NoDefine (t.code ++ rest) := by
  induction t generalizing rest with
  | unary op operand ih => simpa [Term.code] using ih _
  | binary op left right ihl ihr => simpa [Term.code] using ihl _
  | and left right ihl ihr => simpa [Term.code] using ihl _
  | or left right ihl ihr => simpa [Term.code] using ihl _
  | choose condition yes no ihc ihy ihn => simpa [Term.code] using ihc _
  | member target name ih => simpa [Term.code] using ih _
  | index target key iht ihk => simpa [Term.code] using iht _
  | call callee arguments ihc iha => simpa [Term.code] using ihc _
  | array items ih =>
    cases items with
    | nil => trivial
    | cons t items => simpa [Term.code, operandsCode] using ih t (.head _) _
  | caseOf subject arms otherwise ihs iha iho =>
    cases subject with
    | some t => simpa [Term.code, subjectCode] using ihs t rfl _
    | none =>
      cases arms with
      | cons arm arms => trivial
      | nil => cases otherwise <;> trivial
  | _ => trivial

section
variable {options : Options} {known : Dict Value} {before rest : Program}

theorem knownAround_of_noDefine (h : NoDefine rest) : knownAround known before rest = known := by
  unfold knownAround paramsAround?
  split
  · rename_i hparams
    split at hparams
    · exact h.elim
    · cases hparams
  · rfl

/-- Folding the code of a term goes on with the folded term, whatever stands around it. -/
def Folds (options : Options) (t : Term) : Prop :=
  ∀ known before s rest, NoDefine rest →
    Program.foldFrom options known before s (t.code ++ rest)
      = Program.foldFrom options known (t.code.reverse ++ before)
          (s.add (t.fold options known)) rest

theorem Folds.program {t : Term} (h : Folds options t) (known : Dict Value) :
    (Program.foldFrom options known [] {} t.code).program = (t.fold options known).code := by
  have hfold := h known [] {} [] trivial
  rw [List.append_nil] at hfold
  rw [hfold, Program.foldFrom, FoldState.program_add]
  rfl

/-- A program that waits is folded on its own. -/
theorem foldFrom_sub {t : Term} (h : Folds options t) (hrest : NoDefine rest) (s : FoldState) :
    Program.foldFrom options known before s (.sub t.code :: rest)
      = Program.foldFrom options known (.sub t.code :: before)
          (s.emit (.sub (t.fold options known).code)) rest := by
  rw [Program.foldFrom, Instr.fold, knownAround_of_noDefine hrest, h.program]

theorem noDefine_operandsCode (terms : List Term) (hrest : NoDefine rest) :
    NoDefine (operandsCode terms ++ rest) := by
  cases terms with
  | nil => exact hrest
  | cons t terms => simpa [operandsCode] using noDefine_code t (operandsCode terms ++ rest)

theorem noDefine_fieldsCode (fields : List (String × Term)) (hrest : NoDefine rest) :
    NoDefine (fieldsCode fields ++ rest) := by
  cases fields with
  | nil => exact hrest
  | cons field fields => trivial

theorem noDefine_armsCode (arms : List (Term × Term)) (hrest : NoDefine rest) :
    NoDefine (armsCode arms ++ rest) := by
  cases arms with
  | nil => exact hrest
  | cons arm arms => trivial

theorem noDefine_statementsCode (terms : List Term) (hrest : NoDefine rest) :
    NoDefine (statementsCode terms ++ rest) := by
  cases terms with
  | nil => exact hrest
  | cons t terms => trivial

theorem foldFrom_operandsCode {terms : List Term} (h : ∀ t ∈ terms, Folds options t)
    (hrest : NoDefine rest) (s : FoldState) :
    Program.foldFrom options known before s (operandsCode terms ++ rest)
      = Program.foldFrom options known ((operandsCode terms).reverse ++ before)
          (s.addAll (foldTerms options known terms)) rest := by
  induction terms generalizing before s with
  | nil => rfl
  | cons t terms ih =>
    obtain ⟨ht, hterms⟩ := List.forall_mem_cons.mp h
    rw [operandsCode, List.append_assoc, ht _ _ _ _ (noDefine_operandsCode terms hrest), ih hterms,
      List.reverse_append, List.append_assoc, foldTerms]
    rfl

theorem foldFrom_fieldsCode {fields : List (String × Term)}
    (h : ∀ field ∈ fields, Folds options field.2) (hrest : NoDefine rest) (s : FoldState) :
    Program.foldFrom options known before s (fieldsCode fields ++ rest)
      = Program.foldFrom options known ((fieldsCode fields).reverse ++ before)
          (s.addFields (foldFields options known fields)) rest := by
  induction fields generalizing before s with
  | nil => rfl
  | cons field fields ih =>
    obtain ⟨key, t⟩ := field
    obtain ⟨ht, hterms⟩ := List.forall_mem_cons.mp h
    simp only [fieldsCode, List.cons_append, List.append_assoc]
    rw [Program.foldFrom, ht _ _ _ _ (noDefine_fieldsCode fields hrest), ih hterms, foldFields]
    simp [FoldState.addFields, Instr.fold, FoldState.step]

theorem foldFrom_armsCode {arms : List (Term × Term)}
    (h : ∀ arm ∈ arms, Folds options arm.1 ∧ Folds options arm.2) (hrest : NoDefine rest)
    (s : FoldState) :
    Program.foldFrom options known before s (armsCode arms ++ rest)
      = Program.foldFrom options known ((armsCode arms).reverse ++ before)
          (s.emitAll (armsCode (foldArms options known arms))) rest := by
  induction arms generalizing before s with
  | nil => rfl
  | cons arm arms ih =>
    obtain ⟨condition, result⟩ := arm
    obtain ⟨⟨hc, hr⟩, harms⟩ := List.forall_mem_cons.mp h
    rw [armsCode, List.cons_append, List.cons_append, foldFrom_sub hc (by trivial),
      foldFrom_sub hr (noDefine_armsCode arms hrest), ih harms, foldArms, armsCode]
    simp [FoldState.emitAll]

theorem foldFrom_names (names : List String) (s : FoldState) :
    Program.foldFrom options known before s (names.map .name ++ rest)
      = Program.foldFrom options known ((names.map .name).reverse ++ before)
          (s.emitAll (names.map .name)) rest := by
  induction names generalizing before s with
  | nil => rfl
  | cons name names ih =>
    rw [List.map_cons, List.cons_append, Program.foldFrom, ih]
    simp [FoldState.emitAll, Instr.fold, FoldState.step]

theorem foldFrom_statementsCode {terms : List Term} (h : ∀ t ∈ terms, Folds options t)
    (hrest : NoDefine rest) (s : FoldState) :
    Program.foldFrom options known before s (statementsCode terms ++ rest)
      = Program.foldFrom options known ((statementsCode terms).reverse ++ before)
          (s.addStatements (foldTerms options known terms)) rest := by
  induction terms generalizing before s with
  | nil => rfl
  | cons t terms ih =>
    obtain ⟨ht, hterms⟩ := List.forall_mem_cons.mp h
    simp only [statementsCode, List.cons_append, List.append_assoc]
    rw [Program.foldFrom, ht _ _ _ _ (noDefine_statementsCode terms hrest), ih hterms, foldTerms]
    simp [FoldState.addStatements, Instr.fold, FoldState.step]

theorem namesOnly?_map (names : List String) : namesOnly? (names.map .name) = some names := by
  induction names with
  | nil => rfl
  | cons name names ih =>
    rw [List.map_cons, namesOnly?, ih]
    rfl

/-- What is known in the body of a function: what its parameters do not hide. -/
theorem knownAround_define (params : List String) :
    knownAround known ((params.map .name).reverse ++ before) (.define params.length :: rest)
      = known.eraseAll params := by
  have htake : ((params.map Instr.name).reverse ++ before).take params.length
      = params.reverse.map .name := by
    rw [List.take_append_of_le_length (by simp), List.map_reverse]
    exact List.take_of_length_le (by simp)
  have hle : params.length ≤ ((params.map Instr.name).reverse ++ before).length := by simp
  simp only [knownAround, paramsAround?, if_pos hle, htake, namesOnly?_map, Dict.eraseAll_reverse]

/-- An instruction that is always written out makes the term of its operands and itself. -/
theorem foldFrom_emit {instr : Instr} {s s' : FoldState} {t : Term} (ht : t.known? = none)
    (hstep : ∀ inner, instr.fold options known inner s' = s'.emit instr)
    (hcode : s'.program ++ [instr] = s.program ++ t.code) :
    Program.foldFrom options known before s' (instr :: rest)
      = Program.foldFrom options known (instr :: before) (s.add t) rest := by
  rw [Program.foldFrom, hstep, FoldState.emit_eq_add ht hcode]

/-- A `case` block behind its subject makes the term of the folded block. -/
theorem foldFrom_caseBlock {arms : List (Term × Term)} {otherwise : Option Term}
    (harms : ∀ arm ∈ arms, Folds options arm.1 ∧ Folds options arm.2)
    (hlast : ∀ t ∈ otherwise, Folds options t) {s s' : FoldState} (subject : Option Term)
    (hs : s'.program = s.program ++ subjectCode (foldOption options known subject)) :
    Program.foldFrom options known before s' (armsCode arms ++ (otherwiseCode otherwise
        ++ .caseOf subject.isSome arms.length otherwise.isSome :: rest))
      = Program.foldFrom options known (.caseOf subject.isSome arms.length otherwise.isSome
          :: ((otherwiseCode otherwise).reverse ++ ((armsCode arms).reverse ++ before)))
          (s.add (Term.fold options known (.caseOf subject arms otherwise))) rest := by
  have htail : NoDefine (otherwiseCode otherwise
      ++ .caseOf subject.isSome arms.length otherwise.isSome :: rest) := by
    cases otherwise <;> trivial
  rw [foldFrom_armsCode harms htail]
  cases otherwise with
  | none =>
    rw [otherwiseCode, List.nil_append, foldFrom_emit (s := s)
      (t := Term.fold options known (.caseOf subject arms none)) rfl (fun _ => rfl)
      (by simp [FoldState.program_emitAll, hs, Term.fold, Term.code, otherwiseCode,
        foldOption_eq_map, foldArms_eq_map])]
    rfl
  | some t =>
    rw [otherwiseCode, List.singleton_append, foldFrom_sub (hlast t rfl) (by trivial),
      foldFrom_emit (s := s)
      (t := Term.fold options known (.caseOf subject arms (some t))) rfl (fun _ => rfl)
      (by simp [FoldState.program_emitAll, FoldState.program_emit, hs, Term.fold, Term.code,
        otherwiseCode, foldOption_eq_map, foldArms_eq_map])]
    rfl

/-- A sequence of statements is folded statement by statement. -/
theorem program_foldFrom_statements {first : Term} {terms : List Term}
    (hfirst : Folds options first) (hterms : ∀ t ∈ terms, Folds options t) :
    (Program.foldFrom options known [] {} (first.code ++ statementsCode terms)).program
      = (first.fold options known).code ++ statementsCode (foldTerms options known terms) := by
  have hnext : NoDefine (statementsCode terms ++ []) := noDefine_statementsCode terms trivial
  rw [← List.append_nil (statementsCode terms), hfirst _ _ _ _ hnext,
    foldFrom_statementsCode hterms (by trivial), Program.foldFrom, FoldState.program_addStatements,
    FoldState.program_add]
  rfl

/-- **Folding the code of a term goes on with the folded term.** -/
theorem folds (t : Term) : Folds options t := by
  -- what is known, written and held differs from one operand to the next, so all of it is general
  induction t with
  | literal v =>
    intro known before s rest _
    simp [Term.code, Term.fold, Program.foldFrom, Instr.fold, FoldState.step,
      FoldState.add_ofValue]
  | undefined =>
    intro known before s rest _
    simp [Term.code, Term.fold, Program.foldFrom, Instr.fold, FoldState.step, FoldState.add,
      Term.known?]
  | var name =>
    intro known before s rest _
    have hadd : s.step options known (.var name) = s.add (Term.fold options known (.var name)) := by
      cases hv : known.get? name with
      | none =>
        rw [FoldState.step, Term.fold]
        simp only [hv]
        exact FoldState.emit_eq_add rfl rfl
      | some v =>
        rw [FoldState.step, Term.fold]
        simp only [hv]
        cases v with
        | function f => exact FoldState.emit_eq_add rfl rfl
        | _ => exact (FoldState.add_ofValue s _).symm
    simp [Term.code, Program.foldFrom, Instr.fold, hadd]
  | unary op operand ih =>
    intro known before s rest _
    rw [Term.code, List.append_assoc, ih _ _ _ _ (by trivial), List.singleton_append,
      Program.foldFrom, Instr.fold, FoldState.step_unary, ← Term.fold]
    · simp
    · simp
  | binary op left right ihl ihr =>
    intro known before s rest _
    rw [Term.code, List.append_assoc, List.append_assoc, ihl _ _ _ _ (noDefine_code right _),
      ihr _ _ _ _ (by trivial), List.singleton_append, Program.foldFrom, Instr.fold,
      FoldState.step_binary, ← Term.fold]
    · simp
    · simp
  | and left right ihl ihr =>
    intro known before s rest _
    rw [Term.code, List.append_assoc, ihl _ _ _ _ (by trivial), List.cons_append,
      List.singleton_append, foldFrom_sub ihr (by trivial)]
    rw [foldFrom_emit (s := s) (t := Term.fold options known (.and left right)) rfl (fun _ => rfl)
      (by simp [FoldState.program_emit, FoldState.program_add, Term.fold, Term.code])]
    simp
  | or left right ihl ihr =>
    intro known before s rest _
    rw [Term.code, List.append_assoc, ihl _ _ _ _ (by trivial), List.cons_append,
      List.singleton_append, foldFrom_sub ihr (by trivial)]
    rw [foldFrom_emit (s := s) (t := Term.fold options known (.or left right)) rfl (fun _ => rfl)
      (by simp [FoldState.program_emit, FoldState.program_add, Term.fold, Term.code])]
    simp
  | choose condition yes no ihc ihy ihn =>
    intro known before s rest _
    rw [Term.code, List.append_assoc, ihc _ _ _ _ (by trivial), List.cons_append,
      List.cons_append, List.singleton_append, foldFrom_sub ihy (by trivial),
      foldFrom_sub ihn (by trivial)]
    rw [foldFrom_emit (s := s) (t := Term.fold options known (.choose condition yes no)) rfl
      (fun _ => rfl)
      (by simp [FoldState.program_emit, FoldState.program_add, Term.fold, Term.code])]
    simp
  | caseOf subject arms otherwise ihs iha iho =>
    intro known before s rest _
    have htail : NoDefine (otherwiseCode otherwise
        ++ .caseOf subject.isSome arms.length otherwise.isSome :: rest) := by
      cases otherwise <;> trivial
    simp only [Term.code, List.append_assoc, List.singleton_append]
    cases subject with
    | none =>
      rw [subjectCode, List.nil_append,
        foldFrom_caseBlock iha iho (s := s) none (by simp [foldOption, subjectCode])]
      simp
    | some t =>
      rw [subjectCode, ihs t rfl _ _ _ _ (noDefine_armsCode arms htail),
        foldFrom_caseBlock iha iho (s := s) (some t)
          (by simp [foldOption, subjectCode, FoldState.program_add])]
      simp
  | member target name ih =>
    intro known before s rest _
    rw [Term.code, List.append_assoc, ih _ _ _ _ (by trivial), List.singleton_append,
      Program.foldFrom, Instr.fold, FoldState.step_member, ← Term.fold]
    · simp
    · simp
  | index target key iht ihk =>
    intro known before s rest _
    rw [Term.code, List.append_assoc, List.append_assoc, iht _ _ _ _ (noDefine_code key _),
      ihk _ _ _ _ (by trivial), List.singleton_append, Program.foldFrom, Instr.fold,
      FoldState.step_index, ← Term.fold]
    · simp
    · simp
  | call callee arguments ihc iha =>
    intro known before s rest _
    have hargs : NoDefine (operandsCode arguments ++ ([Instr.call arguments.length] ++ rest)) :=
      noDefine_operandsCode arguments trivial
    rw [Term.code, List.append_assoc, List.append_assoc, ihc _ _ _ _ hargs,
      foldFrom_operandsCode iha (by trivial), List.singleton_append]
    rw [foldFrom_emit (s := s) (t := Term.fold options known (.call callee arguments)) rfl
      (fun _ => rfl)
      (by simp [FoldState.program_addAll, FoldState.program_add, Term.fold, Term.code,
        foldTerms_eq_map])]
    simp
  | array items ih =>
    intro known before s rest _
    have hlen : items.length = (foldTerms options known items).length := by
      rw [foldTerms_eq_map, List.length_map]
    rw [Term.code, List.append_assoc, foldFrom_operandsCode ih (by trivial),
      List.singleton_append, Program.foldFrom, Instr.fold, hlen, FoldState.step_array,
      ← Term.fold]
    · simp
    · simp
  | object entries ih =>
    intro known before s rest _
    rw [Term.code, List.cons_append, List.cons_append, List.append_assoc, Program.foldFrom,
      foldFrom_fieldsCode ih (by trivial), List.singleton_append]
    rw [foldFrom_emit (s := s) (t := Term.fold options known (.object entries)) rfl (fun _ => rfl)
      (by simp [FoldState.program_addFields, FoldState.program_emit, Instr.fold, FoldState.step,
        Term.fold, Term.code])]
    simp
  | assign root path value ih =>
    intro known before s rest _
    simp only [Term.code, List.cons_append, List.nil_append]
    rw [Program.foldFrom, foldFrom_sub ih (by trivial)]
    rw [foldFrom_emit (s := s) (t := Term.fold options known (.assign root path value)) rfl
      (fun _ => rfl)
      (by simp [FoldState.program_emit, Instr.fold, FoldState.step, Term.fold, Term.code])]
    simp
  | define name params body ih =>
    intro known before s rest _
    simp only [Term.code, List.cons_append, List.append_assoc, List.nil_append]
    rw [Program.foldFrom, foldFrom_names, Program.foldFrom, knownAround_define, Instr.fold,
      ih.program]
    rw [foldFrom_emit (s := s) (t := Term.fold options known (.define name params body)) rfl
      (fun _ => rfl)
      (by simp [FoldState.program_emitAll, FoldState.program_emit, Instr.fold, FoldState.step,
        Term.fold, Term.code])]
    simp
  | sequence first terms ihf ihr =>
    intro known before s rest hrest
    rw [Term.code, List.singleton_append, Program.foldFrom, knownAround_of_noDefine hrest,
      Instr.fold, program_foldFrom_statements ihf ihr,
      FoldState.emit_eq_add (s := s) (t := Term.fold options known (.sequence first terms)) rfl
        (by simp [Term.fold, Term.code])]
    simp

/-- **The folded code of a term is the code of the folded term.** -/
theorem fold_code (options : Options) (known : Dict Value) (t : Term) :
    t.code.fold options known = (t.fold options known).code :=
  (folds t).program known

end
end Formula
