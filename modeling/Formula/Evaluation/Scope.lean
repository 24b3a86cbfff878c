import Formula.Host
import Formula.Options
import Formula.Value.Access

/-! # Variables while a program runs

The caller owns the variables.  While a function body runs, its local variables lie over them: they
are read first, and only they are stored to.  A path into a variable of the caller is stored to in
a local copy of the variable.
-/
namespace Formula

/-- What lasts from one evaluation to the next. -/
structure Context where
  /-- The variables of the caller. -/
  globals : Dict Value := []
  /-- The identity that the next function will get. -/
  nextId : Nat := 1
  /-- The calls of host functions, the earliest first. -/
  calls : List HostCall := []

/-- What running code sees. -/
structure Scope extends Context where
  /-- The local variables of the function body that runs, if one does. -/
  locals : Option (Dict Value) := none

/-- A computation that reads and stores variables and may fail.  What was stored before a failure
stays stored. -/
abbrev Evaluation (α : Type) := EStateM Error Scope α

namespace Scope

/-- The value of a variable. -/
def get? (s : Scope) (name : String) : Option Value :=
  (s.locals.bind fun locals => locals.get? name).or (s.globals.get? name)

/-- Stores to a local variable if a function body runs, to one of the caller otherwise. -/
def set (s : Scope) (name : String) (v : Value) : Scope :=
  match s.locals with
  | some locals => { s with locals := some (locals.insert name v) }
  | none => { s with globals := s.globals.insert name v }

/-- Makes room for a variable that is to be changed in place: while a function body runs, a variable
of the caller is copied to the local ones, and a variable that is missing begins as undefined. -/
def slot (s : Scope) (name : String) : Scope := s.set name ((s.get? name).getD .undefined)

theorem get?_set_self (s : Scope) (name : String) (v : Value) :
    (s.set name v).get? name = some v := by
  unfold Scope.set Scope.get?
  split <;> simp_all [Dict.get?_insert_self]

theorem get?_set_ne (s : Scope) {name other : String} (v : Value) (h : other ≠ name) :
    (s.set name v).get? other = s.get? other := by
  unfold Scope.set Scope.get?
  split <;> simp_all [Dict.get?_insert_ne _ _ (Ne.symm h)]

/-- Of two stores to a variable the later one stays. -/
theorem set_set (s : Scope) (name : String) (v w : Value) :
    (s.set name v).set name w = s.set name w := by
  cases hlocals : s.locals <;> simp [Scope.set, hlocals, Dict.insert_insert]

/-- Room that was made is filled by a store. -/
theorem set_slot (s : Scope) (name : String) (v : Value) :
    (s.slot name).set name v = s.set name v := s.set_set name _ v

end Scope

/-- The fields that a store finds in a value.  Undefined and null become objects. -/
def Value.takenFields? : Value → Option (Dict Value)
  | .object fields => some fields
  | .undefined | .null => some []
  | _ => none

/-- Stores `v` at the end of a path into a value, in place: what has become of the value is answered
with a failure as well.  Objects are made where there is nothing. -/
def Value.put (target : Value) : List String → Value → EStateM.Result Fault Value Unit
  | [], v => .ok () v
  | name :: rest, v =>
    match target.takenFields? with
    | some fields =>
      match put ((fields.get? name).getD .undefined) rest v with
      | .ok () inner => .ok () (.object (fields.insert name inner))
      | .error fault inner => .error fault (.object (fields.insert name inner))
    | none => .error (.evaluation (.cannotSetProperty name target.typeName)) target

namespace Value
variable {target v w : Value} {name : String} {rest : List String}

theorem put_cons_eq_ok_iff :
    target.put (name :: rest) v = .ok () w ↔
      ∃ fields inner, target.takenFields? = some fields ∧
        ((fields.get? name).getD .undefined).put rest v = .ok () inner ∧
        w = .object (fields.insert name inner) := by
  cases hfields : target.takenFields? with
  | none => simp [put, hfields]
  | some fields =>
    cases hinner : ((fields.get? name).getD .undefined).put rest v <;>
      simp [put, hfields, hinner, eq_comm]

theorem put_cons_eq_error_iff {fault : Fault} :
    target.put (name :: rest) v = .error fault w ↔
      (target.takenFields? = none ∧
        fault = .evaluation (.cannotSetProperty name target.typeName) ∧ w = target) ∨
      ∃ fields inner, target.takenFields? = some fields ∧
        ((fields.get? name).getD .undefined).put rest v = .error fault inner ∧
        w = .object (fields.insert name inner) := by
  constructor
  · intro h
    cases hfields : target.takenFields? with
    | none =>
      simp only [put, hfields] at h
      cases h
      exact .inl ⟨rfl, rfl, rfl⟩
    | some fields =>
      cases hinner : ((fields.get? name).getD .undefined).put rest v <;>
        simp only [put, hfields, hinner] at h <;> cases h
      exact .inr ⟨fields, _, rfl, hinner, rfl⟩
  · rintro (⟨hfields, rfl, rfl⟩ | ⟨fields, inner, hfields, hinner, rfl⟩)
    · simp only [put, hfields]
    · simp only [put, hfields, hinner]

/-- What there is not can be made: a store into nothing succeeds. -/
theorem put_undefined (path : List String) (v : Value) :
    ∃ w, undefined.put path v = .ok () w := by
  induction path with
  | nil => exact ⟨v, rfl⟩
  | cons name rest ih =>
    obtain ⟨inner, hinner⟩ := ih
    exact ⟨_, put_cons_eq_ok_iff.mpr ⟨[], inner, rfl, hinner, rfl⟩⟩

/-- **A store that fails has changed nothing on its way**: what stands in its way stands behind
objects that were there. -/
theorem eq_of_put_error {path : List String} {fault : Fault}
    (h : target.put path v = .error fault w) : w = target := by
  induction path generalizing target w with
  | nil => cases h
  | cons name rest ih =>
    rcases put_cons_eq_error_iff.mp h with ⟨-, -, rfl⟩ | ⟨fields, inner, hfields, hinner, rfl⟩
    · rfl
    · obtain ⟨made, hmade⟩ := put_undefined rest v
      cases hget : fields.get? name with
      | none =>
        rw [hget, Option.getD_none, hmade] at hinner
        cases hinner
      | some old =>
        rw [hget, Option.getD_some] at hinner
        rw [ih hinner, Dict.insert_of_get? hget]
        cases target <;> cases hfields
        · cases hget
        · cases hget
        · rfl

end Value

/-- The parts of a text between dots. -/
def dottedParts : List Char → List (List Char)
  | [] => [[]]
  | c :: rest =>
    match dottedParts rest with
    | [] => [[c]]
    | part :: parts => if c = '.' then [] :: part :: parts else (c :: part) :: parts

theorem dottedParts_ne_nil (text : List Char) : dottedParts text ≠ [] := by
  cases text with
  | nil => simp [dottedParts]
  | cons c rest =>
    rw [dottedParts]
    split
    · simp
    · split <;> simp

theorem dottedParts_of_not_mem {name : List Char} (h : '.' ∉ name) : dottedParts name = [name] := by
  induction name with
  | nil => rfl
  | cons c name ih =>
    obtain ⟨hc, hname⟩ := List.ne_and_not_mem_of_not_mem_cons h
    rw [dottedParts, ih hname]
    exact if_neg (Ne.symm hc)

theorem dottedParts_append_dot {name : List Char} (h : '.' ∉ name) (rest : List Char) :
    dottedParts (name ++ '.' :: rest) = name :: dottedParts rest := by
  induction name with
  | nil =>
    rw [List.nil_append, dottedParts]
    cases hrest : dottedParts rest with
    | nil => exact absurd hrest (dottedParts_ne_nil rest)
    | cons part parts => rfl
  | cons c name ih =>
    obtain ⟨hc, hname⟩ := List.ne_and_not_mem_of_not_mem_cons h
    rw [List.cons_append, dottedParts, ih hname]
    exact if_neg (Ne.symm hc)

/-- The names of a path that is written with dots. -/
def pathNames (path : String) : List String := (dottedParts path.toList).map String.ofList

namespace Evaluation

/-- Fails with a fault. -/
def fail {α : Type} (fault : Fault) : Evaluation α := throw (.ofFault fault)

@[simp] theorem fail_bind {α β : Type} (fault : Fault) (f : α → Evaluation β) :
    (fail fault >>= f) = fail fault := rfl

/-- A result or failure that concerns no variables. -/
def lift {α : Type} (result : Except Fault α) : Evaluation α :=
  match result with
  | .ok a => pure a
  | .error fault => fail fault

/-- An identity that no function has. -/
def freshId : Evaluation Nat :=
  modifyGet fun s => (s.nextId, { s with nextId := s.nextId + 1 })

variable (options : Options) (functions : Registry)

/-- The value of a name: registered functions come first, then operators that are on, then
variables. -/
def lookup (name : String) : Evaluation Value := do
  lift (checkName name)
  match functions.get? name with
  | some f => pure f.value
  | none =>
    match options.namedOp? name with
    | some op => pure (.function (.named op))
    | none =>
      match (← get).get? name with
      | some v => pure v
      | none => fail (.evaluation (.undefinedVariable name))

/-- Changes the value of a variable in place.  What was changed before a failure stays changed. -/
def inSlot (name : String) (change : Value → EStateM.Result Fault Value Unit) :
    Evaluation Unit := do
  modify fun s => s.slot name
  let s ← get
  match change ((s.get? name).getD .undefined) with
  | .ok () v => set (s.set name v)
  | .error fault v =>
    set (s.set name v)
    fail fault

/-- Stores to a variable, or to the end of a path from one. -/
def assign (path : String) (v : Value) : Evaluation Unit := do
  let names := pathNames path
  lift (names.forM checkName)
  match names with
  | [] => fail (.evaluation .noTarget)
  | [name] => modify fun s => s.set name v
  | root :: rest =>
    if options.allowMemberAccess then inSlot root fun target => target.put rest v
    else fail (.access .memberAccessOff)

section
variable {root : String} {rest : List String} {v w : Value} {s : Scope}

/-- Room that is made for a variable leaves it as it is, or undefined. -/
theorem getD_slot (s : Scope) (name : String) :
    ((s.slot name).get? name).getD .undefined = (s.get? name).getD .undefined := by
  rw [Scope.slot, Scope.get?_set_self, Option.getD_some]

/-- A store to the end of a path stores the changed variable. -/
theorem inSlot_of_put_ok (h : ((s.get? root).getD .undefined).put rest v = .ok () w) :
    inSlot root (fun target => target.put rest v) s = .ok () (s.set root w) := by
  rw [← getD_slot] at h
  change (match (((s.slot root).get? root).getD .undefined).put rest v with
    | .ok () w => set ((s.slot root).set root w)
    | .error fault w => do
      set ((s.slot root).set root w)
      fail fault : Evaluation Unit) (s.slot root) = _
  rw [h]
  exact congrArg (EStateM.Result.ok ()) (s.set_slot root w)

/-- One that fails leaves no more than the room that was made for it. -/
theorem inSlot_of_put_error {fault : Fault}
    (h : ((s.get? root).getD .undefined).put rest v = .error fault w) :
    inSlot root (fun target => target.put rest v) s = .error (.ofFault fault) (s.slot root) := by
  obtain rfl := Value.eq_of_put_error h
  rw [← getD_slot] at h
  change (match (((s.slot root).get? root).getD .undefined).put rest v with
    | .ok () w => set ((s.slot root).set root w)
    | .error fault w => do
      set ((s.slot root).set root w)
      fail fault : Evaluation Unit) (s.slot root) = _
  rw [h, getD_slot]
  exact congrArg (EStateM.Result.error (Error.ofFault fault)) (s.set_slot root _)

end

/-- Both outcomes of a store to the end of a path. -/
theorem inSlot_put (root : String) (rest : List String) (v : Value) :
    inSlot root (fun target => target.put rest v) = (do
      let s ← get
      match ((s.get? root).getD .undefined).put rest v with
      | .ok () w => set (s.set root w)
      | .error fault _ =>
        set (s.slot root)
        fail fault) := by
  funext s
  change _ = (match ((s.get? root).getD .undefined).put rest v with
    | .ok () w => set (s.set root w)
    | .error fault _ => do
      set (s.slot root)
      fail fault : Evaluation Unit) s
  cases h : ((s.get? root).getD .undefined).put rest v with
  | ok u w => exact inSlot_of_put_ok h
  | error fault w => exact inSlot_of_put_error h

end Evaluation
end Formula
