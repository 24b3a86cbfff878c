import Formula.Proofs.Protection
import Formula.Proofs.Simplification

/-! # Stores to paths

A store to a path such as `x.a.b` goes down through the fields of a variable, makes objects where
there is nothing, and finds out only on the way whether a value stands in between that takes no
fields.  It is a write in the sense of a lens (`assign_path`): what is stored is read back at the
path, whatever lies beside the path is as before, and a store that fails leaves nothing that could
be seen, although it works in place and has copied a variable of the caller before it fails.

Paths are lists of names here, the variable first.  One path lies inside another if the other is a
prefix of it.
-/
namespace Formula

/-! ## Reading at a path -/

/-- What lies at a path among the fields of a value. -/
def Value.at? : Value → List String → Option Value
  | v, [] => some v
  | .object fields, name :: rest => (Dict.get? fields name).bind fun inner => inner.at? rest
  | _, _ :: _ => none

/-- What lies at a path from a variable that running code sees. -/
def Scope.at? (s : Scope) : List String → Option Value
  | [] => none
  | root :: rest => (s.get? root).bind fun v => v.at? rest

/-- Objects take fields, and so do undefined and null: they become objects. -/
def Value.TakesFields (v : Value) : Prop :=
  v = .undefined ∨ v = .null ∨ ∃ fields, v = .object fields

namespace Value
variable {target v w : Value} {name : String} {rest : List String}

theorem takesFields_iff : target.TakesFields ↔ ∃ fields, target.takenFields? = some fields := by
  cases target <;> simp [TakesFields, takenFields?]

@[simp] theorem at?_nil (v : Value) : v.at? [] = some v := by
  cases v <;> rfl

theorem at?_cons (v : Value) (name : String) (rest : List String) :
    v.at? (name :: rest) =
      v.takenFields?.bind fun fields => (fields.get? name).bind fun inner => inner.at? rest := by
  cases v <;> rfl

theorem at?_cons_of_taken {fields : Dict Value} (h : target.takenFields? = some fields) :
    target.at? (name :: rest) = (fields.get? name).bind fun inner => inner.at? rest := by
  rw [at?_cons, h, Option.bind_some]

/-- Below a value that is missing there is nothing, as below undefined. -/
theorem at?_getD {v : Option Value} (h : rest ≠ []) :
    (v.getD .undefined).at? rest = v.bind fun inner => inner.at? rest := by
  obtain ⟨name, rest, rfl⟩ := List.exists_cons_of_ne_nil h
  cases v <;> rfl

/-! ## Storing at a path -/

/-- What lies above a path is the empty path, or lies above its rest. -/
theorem forall_above_cons {P : List String → Prop} :
    (∀ above, above <+: name :: rest → above ≠ name :: rest → P above) ↔
      P [] ∧ ∀ above, above <+: rest → above ≠ rest → P (name :: above) := by
  constructor
  · intro h
    refine ⟨h [] List.nil_prefix (List.cons_ne_nil name rest).symm, fun above habove hne => ?_⟩
    exact h _ (List.cons_prefix_cons.mpr ⟨rfl, habove⟩) fun heq => hne (List.cons.inj heq).2
  · rintro ⟨hnil, hcons⟩ above habove hne
    cases above with
    | nil => exact hnil
    | cons first above =>
      obtain ⟨rfl, hrest⟩ := List.cons_prefix_cons.mp habove
      exact hcons above hrest fun heq => hne (by rw [heq])

/-- To take fields is the same for a missing value as for undefined. -/
theorem takesFields_getD {v : Option Value} {path : List String} :
    (∀ u, (v.getD .undefined).at? path = some u → u.TakesFields) ↔
      ∀ u, (v.bind fun inner => inner.at? path) = some u → u.TakesFields := by
  cases v with
  | some inner => rfl
  | none =>
    cases path with
    | nil => simp [TakesFields]
    | cons name rest => exact iff_of_true nofun nofun

/-- **A store finds its way** if every value on it takes fields, and only then. -/
theorem exists_put_iff {path : List String} :
    (∃ w, target.put path v = .ok () w) ↔
      ∀ above, above <+: path → above ≠ path → ∀ u, target.at? above = some u → u.TakesFields := by
  induction path generalizing target with
  | nil =>
    refine iff_of_true ⟨v, rfl⟩ fun above habove hne => ?_
    exact absurd (List.prefix_nil.mp habove) hne
  | cons name rest ih =>
    -- the value is the first on the way, the others lie at the rest of the path below it
    rw [forall_above_cons]
    have hhere : (∀ u, target.at? [] = some u → u.TakesFields) ↔ target.TakesFields := by simp
    have hbelow : ∀ fields, target.takenFields? = some fields →
        ((∃ inner, ((fields.get? name).getD .undefined).put rest v = .ok () inner) ↔
          ∀ above, above <+: rest → above ≠ rest →
            ∀ u, target.at? (name :: above) = some u → u.TakesFields) := by
      intro fields hfields
      simp only [ih, takesFields_getD, at?_cons_of_taken hfields]
    rw [hhere, takesFields_iff]
    constructor
    · rintro ⟨w, hw⟩
      obtain ⟨fields, inner, hfields, hinner, -⟩ := put_cons_eq_ok_iff.mp hw
      exact ⟨⟨fields, hfields⟩, (hbelow fields hfields).mp ⟨inner, hinner⟩⟩
    · rintro ⟨⟨fields, hfields⟩, h⟩
      obtain ⟨inner, hinner⟩ := (hbelow fields hfields).mpr h
      exact ⟨_, put_cons_eq_ok_iff.mpr ⟨fields, inner, hfields, hinner, rfl⟩⟩

/-- What is stored is found. -/
theorem at?_put {path : List String} (h : target.put path v = .ok () w) : w.at? path = some v := by
  induction path generalizing target w with
  | nil =>
    cases h
    exact at?_nil _
  | cons name rest ih =>
    obtain ⟨fields, inner, -, hinner, rfl⟩ := put_cons_eq_ok_iff.mp h
    rw [at?_cons_of_taken rfl, Dict.get?_insert_self]
    exact ih hinner

/-- What lies beside the path stays. -/
theorem at?_put_beside {path other : List String} (h : target.put path v = .ok () w)
    (habove : ¬ other <+: path) (hinside : ¬ path <+: other) : w.at? other = target.at? other := by
  induction path generalizing target w other with
  | nil => exact absurd (List.nil_prefix) hinside
  | cons name rest ih =>
    obtain ⟨fields, inner, hfields, hinner, rfl⟩ := put_cons_eq_ok_iff.mp h
    cases other with
    | nil => exact absurd (List.nil_prefix) habove
    | cons first other =>
      rw [at?_cons_of_taken rfl, at?_cons_of_taken hfields]
      by_cases hfirst : first = name
      · subst hfirst
        have habove : ¬ other <+: rest := fun hp => habove (List.cons_prefix_cons.mpr ⟨rfl, hp⟩)
        have hinside : ¬ rest <+: other := fun hp => hinside (List.cons_prefix_cons.mpr ⟨rfl, hp⟩)
        have hother : other ≠ [] := by
          rintro rfl
          exact habove List.nil_prefix
        rw [Dict.get?_insert_self, Option.bind_some, ← at?_getD hother]
        exact ih hinner habove hinside
      · rw [Dict.get?_insert_ne _ _ (Ne.symm hfirst)]

/-- Every value on the way to what is stored is an object. -/
theorem at?_put_above {path above : List String} (h : target.put path v = .ok () w)
    (habove : above <+: path) (hne : above ≠ path) :
    ∃ fields, w.at? above = some (.object fields) := by
  induction path generalizing target w above with
  | nil => exact absurd (List.prefix_nil.mp habove) hne
  | cons name rest ih =>
    obtain ⟨fields, inner, -, hinner, rfl⟩ := put_cons_eq_ok_iff.mp h
    cases above with
    | nil => exact ⟨_, at?_nil _⟩
    | cons first above =>
      obtain ⟨rfl, hrest⟩ := List.cons_prefix_cons.mp habove
      rw [at?_cons_of_taken rfl, Dict.get?_insert_self]
      exact ih hinner hrest fun heq => hne (by rw [heq])

end Value

/-! ## Stores of running code -/

/-- What a store of `v` at a path leaves: `v` at the path, objects above it, and everything else as
it was.  Among local variables the variables of the caller are not touched. -/
structure StoredAt (path : List String) (v : Value) (s s' : Scope) : Prop where
  here : s'.at? path = some v
  beside : ∀ other, ¬ other <+: path → ¬ path <+: other → s'.at? other = s.at? other
  above : ∀ above, above ≠ [] → above <+: path → above ≠ path →
    ∃ fields, s'.at? above = some (.object fields)
  caller : s.locals.isSome = true → s'.globals = s.globals
  outermost : s.locals = none → s'.locals = none
  nextId : s'.nextId = s.nextId
  calls : s'.calls = s.calls

/-- A store to a variable of what a store at a path made of it. -/
theorem StoredAt.set {s : Scope} {root : String} {rest : List String} {v w : Value}
    (h : ((s.get? root).getD .undefined).put rest v = .ok () w) :
    StoredAt (root :: rest) v s (s.set root w) where
  here := by
    rw [Scope.at?, Scope.get?_set_self]
    exact Value.at?_put h
  beside := by
    intro other habove hinside
    cases other with
    | nil => rfl
    | cons first other =>
      rw [Scope.at?, Scope.at?]
      by_cases hfirst : first = root
      · subst hfirst
        rw [List.cons_prefix_cons] at habove hinside
        have hother : other ≠ [] := by
          rintro rfl
          exact habove ⟨rfl, List.nil_prefix⟩
        rw [Scope.get?_set_self, Option.bind_some, ← Value.at?_getD hother]
        exact Value.at?_put_beside h (fun hp => habove ⟨rfl, hp⟩) fun hp => hinside ⟨rfl, hp⟩
      · rw [Scope.get?_set_ne _ _ hfirst]
  above := by
    intro above hnonempty habove hne
    obtain ⟨first, above, rfl⟩ := List.exists_cons_of_ne_nil hnonempty
    obtain ⟨rfl, hrest⟩ := List.cons_prefix_cons.mp habove
    rw [Scope.at?, Scope.get?_set_self]
    exact Value.at?_put_above h hrest fun heq => hne (by rw [heq])
  caller := by
    unfold Scope.set
    split <;> simp_all
  outermost := by
    unfold Scope.set
    split <;> simp_all
  nextId := by
    unfold Scope.set
    split <;> rfl
  calls := by
    unfold Scope.set
    split <;> rfl

/-- What a store at a path from `root` leaves where it fails: every variable has the value it had,
and the variables of the caller are untouched.  Outside of function bodies nothing has changed at
all; in one, the variable at the root may have been copied to the local ones. -/
structure LeftAsBefore (root : String) (s s' : Scope) : Prop where
  visible : ∀ name, s'.get? name = s.get? name
  caller : s'.globals = s.globals
  outermost : s.locals = none → s' = s
  inBody : ∀ locals, s.locals = some locals → s'.locals = some locals ∨
    locals.get? root = none ∧
      ∃ v, s.globals.get? root = some v ∧ s'.locals = some (locals.insert root v)
  nextId : s'.nextId = s.nextId
  calls : s'.calls = s.calls

theorem LeftAsBefore.refl (root : String) (s : Scope) : LeftAsBefore root s s where
  visible _ := rfl
  caller := rfl
  outermost _ := rfl
  inBody _ h := .inl h
  nextId := rfl
  calls := rfl

/-- Room that is made for a variable with a value shows nowhere. -/
theorem LeftAsBefore.slot {s : Scope} {root : String} {old : Value} (h : s.get? root = some old) :
    LeftAsBefore root s (s.slot root) := by
  have hvisible : ∀ name, (s.slot root).get? name = s.get? name := by
    intro name
    rw [Scope.slot]
    by_cases hname : name = root
    · rw [hname, Scope.get?_set_self, h, Option.getD_some]
    · exact Scope.get?_set_ne _ _ hname
  rw [Scope.slot, h, Option.getD_some] at hvisible ⊢
  cases hlocals : s.locals with
  | none =>
    -- the value stands among the variables of the caller and is put back there
    have hsame : s.set root old = s := by
      rw [Scope.get?, hlocals] at h
      rw [Scope.set, hlocals]
      dsimp only
      rw [Dict.insert_of_get? h, ← hlocals]
    rw [hsame]
    exact .refl root s
  | some locals =>
    have hset : s.set root old = { s with locals := some (locals.insert root old) } := by
      rw [Scope.set, hlocals]
    refine ⟨hvisible, by rw [hset], fun hnone => ?_, fun inner hinner => ?_, by rw [hset],
      by rw [hset]⟩
    · rw [hlocals] at hnone
      cases hnone
    · rw [hlocals] at hinner
      cases hinner
      rw [Scope.get?, hlocals, Option.bind_some] at h
      cases hget : locals.get? root with
      | some v =>
        rw [hget, Option.some_or] at h
        cases h
        rw [hset, Dict.insert_of_get? hget]
        exact .inl rfl
      | none =>
        rw [hget, Option.none_or] at h
        exact .inr ⟨rfl, old, h, by rw [hset]⟩

/-- A store at a path from a variable meets the values that a store into the variable meets. -/
theorem Scope.exists_put_iff {s : Scope} {root : String} {rest : List String} {v : Value} :
    (∃ w, ((s.get? root).getD .undefined).put rest v = .ok () w) ↔
      ∀ above, above <+: root :: rest → above ≠ root :: rest →
        ∀ u, s.at? above = some u → u.TakesFields := by
  have hnil : ∀ u, s.at? [] = some u → u.TakesFields := nofun
  rw [Value.exists_put_iff, Value.forall_above_cons, and_iff_right hnil]
  simp only [Value.takesFields_getD, Scope.at?]

namespace Evaluation

/-- The names of a path pass the check if none is protected, and only then. -/
theorem forM_checkName_eq_ok_iff {names : List String} :
    names.forM checkName = .ok () ↔ ∀ name ∈ names, isProtected name = false := by
  refine ⟨isProtected_of_forM, fun h => ?_⟩
  induction names with
  | nil => rfl
  | cons name names ih =>
    obtain ⟨hname, hnames⟩ := List.forall_mem_cons.mp h
    change (checkName name >>= fun _ => names.forM checkName) = _
    simp [checkName, hname, ih hnames, bind, Except.bind]

variable {path root : String} {rest : List String}

/-- What a store at a path can do: fail at once if a name is protected or members may not be
reached, store the variable with the value put at the rest of the path, and fail behind the root if
the value cannot be put there. -/
theorem assign_cases (options : Options) (v : Value) (s : Scope)
    (hnames : pathNames path = root :: rest) :
    let passes := (∀ name ∈ root :: rest, isProtected name = false) ∧
      (rest = [] ∨ options.allowMemberAccess = true)
    let target := (s.get? root).getD .undefined
    (¬ passes ∧ ∃ error, assign options path v s = .error error s) ∨
      (passes ∧ ∃ w, target.put rest v = .ok () w ∧
        assign options path v s = .ok () (s.set root w)) ∨
      (passes ∧ ∃ fault, target.put rest v = .error fault target ∧
        assign options path v s = .error (.ofFault fault) (s.slot root)) := by
  intro passes target
  unfold assign
  rw [hnames]
  cases hcheck : (root :: rest).forM checkName with
  | error fault =>
    refine .inl ⟨fun h => ?_, _, rfl⟩
    rw [forM_checkName_eq_ok_iff.mpr h.1] at hcheck
    cases hcheck
  | ok u =>
    have hpass := isProtected_of_forM hcheck
    cases rest with
    | nil => exact .inr (.inl ⟨⟨hpass, .inl rfl⟩, v, rfl, rfl⟩)
    | cons name rest =>
      cases hmember : options.allowMemberAccess with
      | false =>
        refine .inl ⟨fun h => ?_, _, rfl⟩
        rcases h.2 with hallow | hallow
        · cases hallow
        · rw [hmember] at hallow
          cases hallow
      | true =>
        have hpasses : passes := ⟨hpass, .inr hmember⟩
        -- what is left is the change of the variable in place
        cases hput : target.put (name :: rest) v with
        | ok u w =>
          refine .inr (.inl ⟨hpasses, w, rfl, ?_⟩)
          change inSlot root (fun target => target.put (name :: rest) v) s = _
          exact inSlot_of_put_ok hput
        | error fault w =>
          obtain rfl := Value.eq_of_put_error hput
          refine .inr (.inr ⟨hpasses, fault, rfl, ?_⟩)
          change inSlot root (fun target => target.put (name :: rest) v) s = _
          exact inSlot_of_put_error hput

/-- **A store at a path is a lens, and atomic.**  Let the path have names without dots.  The store
succeeds if none of them is protected, members may be reached where the path goes to one, and no
value above the path is other than an object, undefined or null; and only then.  What it leaves is
then `StoredAt`.  If it fails on its way, what it leaves is `LeftAsBefore`, and nothing at all has
changed if a name is protected or a member may not be reached. -/
theorem assign_path (options : Options) {root : String} {rest : List String}
    (hdots : ∀ name ∈ root :: rest, '.' ∉ name.toList) (v : Value) (s : Scope) :
    ((∃ s', assign options (targetName root rest) v s = .ok () s') ↔
      (∀ name ∈ root :: rest, isProtected name = false) ∧
        (rest = [] ∨ options.allowMemberAccess = true) ∧
        ∀ above, above <+: root :: rest → above ≠ root :: rest →
          ∀ u, s.at? above = some u → u.TakesFields) ∧
    (∀ s', assign options (targetName root rest) v s = .ok () s' →
      StoredAt (root :: rest) v s s') ∧
    (∀ error s', assign options (targetName root rest) v s = .error error s' →
      LeftAsBefore root s s') ∧
    ((∃ name ∈ root :: rest, isProtected name = true) ∨
        rest ≠ [] ∧ options.allowMemberAccess = false →
      ∃ error, assign options (targetName root rest) v s = .error error s) := by
  have hnames := pathNames_targetName hdots
  have hrefused : ((∃ name ∈ root :: rest, isProtected name = true) ∨
      rest ≠ [] ∧ options.allowMemberAccess = false) →
      ¬ ((∀ name ∈ root :: rest, isProtected name = false) ∧
        (rest = [] ∨ options.allowMemberAccess = true)) := by
    rintro (⟨name, hmem, hname⟩ | ⟨hrest, hoff⟩) ⟨hpass, hmember⟩
    · rw [hpass name hmem] at hname
      cases hname
    · rcases hmember with hnil | hallow
      · exact hrest hnil
      · rw [hoff] at hallow
        cases hallow
  rw [← Scope.exists_put_iff (v := v)]
  rcases assign_cases options v s hnames with
    ⟨hfails, error, hrun⟩ | ⟨hpasses, w, hput, hrun⟩ | ⟨hpasses, fault, hput, hrun⟩
  · refine ⟨iff_of_false ?_ fun h => hfails ⟨h.1, h.2.1⟩, ?_, ?_, fun _ => ⟨error, hrun⟩⟩
    all_goals rw [hrun]
    · rintro ⟨s', ⟨⟩⟩
    · rintro s' ⟨⟩
    · rintro error s' ⟨⟩
      exact .refl root s
  · refine ⟨iff_of_true ⟨_, hrun⟩ ⟨hpasses.1, hpasses.2, w, hput⟩, ?_, ?_,
      fun h => absurd hpasses (hrefused h)⟩
    all_goals rw [hrun]
    · rintro s' ⟨⟩
      exact .set hput
    · rintro error s' ⟨⟩
  · refine ⟨iff_of_false ?_ ?_, ?_, ?_, fun h => absurd hpasses (hrefused h)⟩
    · rw [hrun]
      rintro ⟨s', ⟨⟩⟩
    · rintro ⟨-, -, w, hw⟩
      rw [hput] at hw
      cases hw
    · rw [hrun]
      rintro s' ⟨⟩
    · rw [hrun]
      rintro error s' ⟨⟩
      -- a store into nothing would have succeeded
      cases hroot : s.get? root with
      | none =>
        rw [hroot, Option.getD_none] at hput
        obtain ⟨w, hw⟩ := Value.put_undefined rest v
        rw [hw] at hput
        cases hput
      | some old => exact .slot hroot

/-- In a function body, a store to `x.a.b` makes the local copy of the caller's `x` and keeps what
lies beside `b` in it.  One to `x.a.c.e` meets the truth value at `x.a.c` when the copy is made
already, and still changes nothing that is seen; one to `x.prototype` does not come as far. -/
theorem assign_path_inherited :
    let s : Scope :=
      { globals := [("x", .object [("a", .object [("c", .bool true)]), ("d", .null)])]
        locals := some [] }
    (∀ name ∈ ["x", "a", "b"], '.' ∉ name.toList) ∧
      (∃ s', assign {} "x.a.b" .null s = .ok () s' ∧ StoredAt ["x", "a", "b"] .null s s' ∧
        s'.globals = s.globals ∧ s'.at? ["x", "a", "c"] = some (.bool true)) ∧
      (∃ error s', assign {} "x.a.c.e" .null s = .error error s' ∧ LeftAsBefore "x" s s' ∧
        s'.locals = some s.globals) ∧
      ∃ error, assign {} "x.prototype" .null s = .error error s := by
  intro s
  have hdots : ∀ name ∈ ["x", "a", "b"], '.' ∉ name.toList := by decide
  have hdeeper : ∀ name ∈ ["x", "a", "c", "e"], '.' ∉ name.toList := by decide
  have hprotected : ∀ name ∈ ["x", "prototype"], '.' ∉ name.toList := by decide
  obtain ⟨hopen, hstored, -⟩ := assign_path {} hdots .null s
  obtain ⟨-, -, hleft, -⟩ := assign_path {} hdeeper .null s
  obtain ⟨-, -, -, hrefused⟩ := assign_path {} hprotected .null s
  refine ⟨hdots, ?_, ?_, hrefused (.inl ⟨"prototype", by decide, by decide⟩)⟩
  · obtain ⟨s', hs'⟩ := hopen.mpr ⟨by decide, .inr rfl, by
      simp [Value.forall_above_cons, Value.TakesFields, Scope.at?, Scope.get?, Value.at?, Dict.get?,
        s]⟩
    have h := hstored s' hs'
    refine ⟨s', hs', h, h.caller rfl, ?_⟩
    rw [h.beside _ (by decide) (by decide)]
    rfl
  · have hrun : ∃ error s', assign {} "x.a.c.e" .null s = .error error s' ∧
        s'.locals = some s.globals := ⟨_, _, rfl, rfl⟩
    obtain ⟨error, s', hs', hlocals⟩ := hrun
    exact ⟨error, s', hs', hleft error s' hs', hlocals⟩

end Evaluation
end Formula
