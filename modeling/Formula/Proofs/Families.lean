import Formula.Proofs.FoldingTrees
import Formula.Proofs.Readers
import Formula.Proofs.SubstitutionTrees
import Formula.Evaluation.Machine

/-! # Families of values

What is known of values is often known of all that stands in them: where they come from, or which
names are in them.  Such a family (`Family`) holds all plain values, an array with its items and,
with an object, its fields.  Operators do not lead out of it, and neither does anything that is
computed ahead of time (`Family.fits_fold`).
-/
namespace Formula

/-- All values of the table satisfy `P`. -/
def Dict.All (P : Value → Prop) (entries : Dict Value) : Prop := ∀ entry ∈ entries, P entry.2

namespace Dict.All
variable {P : Value → Prop} {entries : Dict Value}

theorem get? (h : Dict.All P entries) {name : String} {v : Value}
    (hv : entries.get? name = some v) : P v := h (name, v) (Dict.mem_of_get? hv)

theorem insert (h : Dict.All P entries) (name : String) {v : Value} (hv : P v) :
    Dict.All P (entries.insert name v) := by
  intro entry hmem
  rcases Dict.mem_insert hmem with rfl | hmem
  · exact hv
  · exact h entry hmem

theorem eraseAll (h : Dict.All P entries) (gone : List String) :
    Dict.All P (entries.eraseAll gone) := by
  intro entry hmem
  rw [Dict.eraseAll_eq_filter] at hmem
  exact h entry (List.mem_filter.mp hmem).1

end Dict.All

/-- Plain values are in the family, arrays of its values, and what stands in its arrays and
objects. -/
structure Family (P : Value → Prop) : Prop where
  undefined : P .undefined
  bool : ∀ b, P (.bool b)
  number : ∀ x, P (.number x)
  string : ∀ s, P (.string s)
  array : ∀ {items}, (∀ v ∈ items, P v) → P (.array items)
  items : ∀ {items}, P (.array items) → ∀ v ∈ items, P v
  fields : ∀ {fields}, P (.object fields) → Dict.All P fields

theorem eq_ok_of_checkName_bind {α : Type} {name : String} {result : Except Fault α} {a : α}
    (h : (checkName name >>= fun _ => result) = .ok a) : result = .ok a := by
  unfold checkName at h
  split at h
  · cases h
  · exact h

theorem exists_of_map_eq_ok {ε α β : Type} {f : α → β} {result : Except ε α} {b : β}
    (h : result.map f = .ok b) : ∃ a, result = .ok a ∧ f a = b := by
  cases result with
  | ok a => exact ⟨a, rfl, Except.ok.inj h⟩
  | error e => cases h

namespace Family
variable {P : Value → Prop} (hP : Family P)
include hP

theorem getD {entries : Dict Value} (h : Dict.All P entries) (name : String) :
    P ((entries.get? name).getD .undefined) := by
  cases hv : entries.get? name with
  | none => exact hP.undefined
  | some v => exact h.get? hv

/-! ## What operators answer -/

theorem named (op : NamedOp) (x : Value) : P (op.apply x) := by
  cases op <;> first | exact hP.number _ | exact hP.bool _

theorem unary {op : UnaryOp} {x v : Value} (h : op.apply x = .ok v) : P v := by
  cases op with
  | named op =>
    obtain rfl := Except.ok.inj h
    exact hP.named op x
  | unknown spelling => cases h
  | _ =>
    obtain rfl := Except.ok.inj h
    exact hP.number _

theorem concatenate {x y : Value} (hx : P x) (hy : P y) : P (x.concatenate y) := by
  unfold Value.concatenate
  split
  · refine hP.array fun v hv => ?_
    rcases List.mem_append.mp hv with hv | hv
    · exact hP.items hx v hv
    · exact hP.items hy v hv
  · exact hP.string _

theorem binary {op : BinaryOp} {x y v : Value} (hx : P x) (hy : P y)
    (h : op.apply x y = .ok v) : P v := by
  cases op with
  | concatenate =>
    obtain rfl := Except.ok.inj h
    exact hP.concatenate hx hy
  | unknown spelling => cases h
  | _ =>
    obtain rfl := Except.ok.inj h
    first | exact hP.number _ | exact hP.bool _

theorem field {x v : Value} {name : String} (hx : P x) (h : x.field name = .ok v) : P v := by
  cases x with
  | object fields =>
    obtain rfl := Except.ok.inj h
    exact hP.getD (hP.fields hx) name
  | undefined => cases h
  | null => cases h
  | array items =>
    obtain rfl := Except.ok.inj h
    split
    · exact hP.number _
    · exact hP.undefined
  | string s =>
    obtain rfl := Except.ok.inj h
    split
    · exact hP.number _
    · exact hP.undefined
  | _ =>
    obtain rfl := Except.ok.inj h
    exact hP.undefined

theorem member {x v : Value} {name : String} (hx : P x) (h : x.member name = .ok v) : P v :=
  hP.field hx (eq_ok_of_checkName_bind h)

theorem itemAt {items : List Value} (h : ∀ v ∈ items, P v) (place : Option Nat) :
    P (Value.itemAt items place) := by
  unfold Value.itemAt
  cases hv : place.bind fun n => items[n]? with
  | none => exact hP.undefined
  | some v =>
    obtain ⟨n, -, hn⟩ := Option.bind_eq_some_iff.mp hv
    exact h v (List.mem_of_getElem? hn)

theorem characterAt (s : String) (place : Option Nat) : P (Value.characterAt s place) := by
  unfold Value.characterAt
  cases place.bind fun n => s.toList[n]? with
  | none => exact hP.undefined
  | some c => exact hP.string _

theorem entry {x key v : Value} (hx : P x) (h : x.entry key = .ok v) : P v := by
  unfold Value.entry at h
  split at h
  · obtain ⟨place, -, rfl⟩ := exists_of_map_eq_ok h
    exact hP.itemAt (hP.items hx) place
  · obtain ⟨place, -, rfl⟩ := exists_of_map_eq_ok h
    exact hP.characterAt _ place
  · cases h
  · cases h
  · exact hP.member hx h
  · exact hP.member hx h
  · obtain rfl := Except.ok.inj (eq_ok_of_checkName_bind h)
    exact hP.getD (hP.fields hx) _
  · obtain rfl := Except.ok.inj h
    exact hP.undefined

theorem index {x key v : Value} (hx : P x) (h : x.index key = .ok v) : P v := by
  cases key with
  | string name => exact hP.entry hx (eq_ok_of_checkName_bind h)
  | _ => exact hP.entry hx h

/-! ## Variables -/

/-- Storing to a path of names of which `K` holds stays in the family, if its objects stay in it
with a field more under such a name. -/
theorem put {K : String → Prop} (hempty : P (.object []))
    (hinsert : ∀ {fields name v}, P (.object fields) → K name → P v →
      P (.object (Dict.insert fields name v))) {target v w : Value} {path : List String}
    (ht : P target) (hv : P v) (hpath : ∀ name ∈ path, K name)
    (h : target.put path v = .ok () w) : P w := by
  induction path generalizing target w with
  | nil =>
    cases h
    exact hv
  | cons name rest ih =>
    obtain ⟨hname, hrest⟩ := List.forall_mem_cons.mp hpath
    obtain ⟨fields, inner, hfields, hinner, rfl⟩ := Value.put_cons_eq_ok_iff.mp h
    have hobject : P (.object fields) := by
      cases target <;> cases hfields <;> assumption
    exact hinsert hobject hname (ih (hP.getD (hP.fields hobject) name) hrest hinner)

/-- The local variables of a call are in the family if the function, what it captured and the
arguments are. -/
theorem localsOf {c : Closure} {arguments : List Value} (hc : P (.function (.closure c)))
    (hcaptured : ∀ locals ∈ c.captured, Dict.All P locals) (ha : ∀ v ∈ arguments, P v) :
    Dict.All P (Evaluation.localsOf c arguments) := by
  have hfold : ∀ (params : List (String × Nat)) (outer : Dict Value), Dict.All P outer →
      Dict.All P (params.foldl (fun locals param =>
        locals.insert param.1 (arguments[param.2]?.getD .undefined)) outer) := by
    intro params
    induction params with
    | nil => exact fun _ h => h
    | cons param params ih =>
      intro outer houter
      refine ih _ (houter.insert param.1 ?_)
      cases hv : arguments[param.2]? with
      | none => exact hP.undefined
      | some v => exact ha v (List.mem_of_getElem? hv)
  refine hfold _ _ ?_
  cases hcap : c.captured with
  | none => intro entry h; cases h
  | some captured =>
    have hall := hcaptured captured hcap
    dsimp only
    split
    · exact hall
    · exact hall.insert c.name hc

/-! ## Terms that are folded or substituted in -/

omit hP in
theorem fits_ofValue {v : Value} (h : P v) : (Term.ofValue v).Fits P := by
  cases v <;> first | exact ⟨trivial, trivial⟩ | exact ⟨h, trivial⟩

theorem of_known? {t : Term} {v : Value} (ht : t.Fits P) (h : t.known? = some v) : P v := by
  obtain rfl := Term.eq_ofValue_of_known? h
  cases v with
  | undefined => exact hP.undefined
  | _ => exact ht.1

omit hP in
theorem fits_orResult {t : Term} {result : Except Fault Value} (ht : t.Fits P)
    (h : ∀ v, result = .ok v → P v) : (t.orResult result).Fits P := by
  cases result with
  | ok v => exact fits_ofValue (h v rfl)
  | error fault => exact ht

theorem of_knownAll? {terms : List Term} {vs : List Value} (h : ∀ t ∈ terms, t.Fits P)
    (hvs : knownAll? terms = some vs) : ∀ v ∈ vs, P v := by
  induction terms generalizing vs with
  | nil =>
    obtain rfl := Option.some.inj hvs
    intro v hv
    cases hv
  | cons t terms ih =>
    obtain ⟨ht, hterms⟩ := List.forall_mem_cons.mp h
    rw [knownAll?] at hvs
    split at hvs
    · rename_i v ws hv hws
      obtain rfl := Option.some.inj hvs
      exact List.forall_mem_cons.mpr ⟨hP.of_known? ht hv, ih hterms hws⟩
    · cases hvs

/-- **Folding computes nothing outside of the family**, from a term and known values in it. -/
theorem fits_fold (options : Options) {known : Dict Value} (hk : Dict.All P known) {t : Term}
    (h : t.Fits P) : (t.fold options known).Fits P := by
  induction t generalizing known with
  | literal v => exact fits_ofValue h.1
  | undefined => exact h
  | var name =>
    rw [Term.fold]
    cases hv : known.get? name with
    | none => exact ⟨trivial, trivial⟩
    | some v =>
      cases v with
      | function f => exact ⟨trivial, trivial⟩
      | _ => exact fits_ofValue (hk.get? hv)
  | unary op operand ih =>
    have ho := ih hk (h.child (.head _))
    have hop : ∀ spelling, op ≠ .unknown spelling := by
      simp only [Term.Fits, Term.code, fits_append, fits_cons, Instr.Fits] at h
      exact h.2.1
    rw [Term.fold]
    split
    · exact fits_orResult (fits_unary hop ho) fun v hv => hP.unary hv
    · exact fits_unary hop ho
  | binary op left right ihl ihr =>
    have hl := ihl hk (h.child (.head _))
    have hr := ihr hk (h.child (.tail _ (.head _)))
    have hop : ∀ spelling, op ≠ .unknown spelling := by
      simp only [Term.Fits, Term.code, fits_append, fits_cons, Instr.Fits] at h
      exact h.2.1
    rw [Term.fold]
    split
    · rename_i x y hx hy
      exact fits_orResult (fits_binary hop hl hr) fun v hv =>
        hP.binary (hP.of_known? hl hx) (hP.of_known? hr hy) hv
    · exact fits_binary hop hl hr
  | and left right ihl ihr =>
    have hl := ihl hk (h.child (.head _))
    have hr := ihr hk (h.child (.tail _ (.head _)))
    rw [Term.Fits] at hl hr
    simp [Term.fold, Term.Fits, Term.code, Instr.Fits, hl, hr]
  | or left right ihl ihr =>
    have hl := ihl hk (h.child (.head _))
    have hr := ihr hk (h.child (.tail _ (.head _)))
    rw [Term.Fits] at hl hr
    simp [Term.fold, Term.Fits, Term.code, Instr.Fits, hl, hr]
  | choose condition yes no ihc ihy ihn =>
    have hc := ihc hk (h.child (.head _))
    have hy := ihy hk (h.child (.tail _ (.head _)))
    have hn := ihn hk (h.child (.tail _ (.tail _ (.head _))))
    rw [Term.Fits] at hc hy hn
    simp [Term.fold, Term.Fits, Term.code, Instr.Fits, hc, hy, hn]
  | caseOf subject arms otherwise ihs iha iho =>
    simp only [Term.Fits, Term.code, fits_append, fits_subjectCode, fits_armsCode,
      fits_otherwiseCode] at h
    obtain ⟨⟨⟨hs, ha⟩, ho⟩, -⟩ := h
    rw [Term.fold, Term.Fits, Term.code]
    simp only [foldOption_eq_map, foldArms_eq_map, fits_append, fits_subjectCode, fits_armsCode,
      fits_otherwiseCode, Option.mem_def, Option.map_eq_some_iff, List.mem_map]
    refine ⟨⟨⟨?_, ?_⟩, ?_⟩, trivial, trivial⟩
    · rintro _ ⟨t, ht, rfl⟩
      exact ihs t ht hk (hs t ht)
    · rintro _ ⟨arm, harm, rfl⟩
      exact ⟨(iha arm harm).1 hk (ha arm harm).1, (iha arm harm).2 hk (ha arm harm).2⟩
    · rintro _ ⟨t, ht, rfl⟩
      exact iho t ht hk (ho t ht)
  | member target name ih =>
    have ht := ih hk (h.child (.head _))
    have hrest : (Term.member (target.fold options known) name).Fits P := by
      rw [Term.Fits] at ht
      simpa [Term.Fits, Term.code, Instr.Fits] using ht
    rw [Term.fold]
    split
    · rename_i x hx
      split
      · exact fits_orResult hrest fun v hv => hP.member (hP.of_known? ht hx) hv
      · exact hrest
    · exact hrest
  | index target key iht ihk =>
    have ht := iht hk (h.child (.head _))
    have hkey := ihk hk (h.child (.tail _ (.head _)))
    have hrest : (Term.index (target.fold options known) (key.fold options known)).Fits P := by
      rw [Term.Fits] at ht hkey
      simp [Term.Fits, Term.code, Instr.Fits, ht, hkey]
    rw [Term.fold]
    split
    · rename_i x y hx hy
      split
      · exact fits_orResult hrest fun v hv => hP.index (hP.of_known? ht hx) hv
      · exact hrest
    · exact hrest
  | call callee arguments ihc iha =>
    have hc := ihc hk (h.child (.head _))
    rw [Term.Fits] at hc
    simp only [Term.fold, foldTerms_eq_map, Term.Fits, Term.code, Instr.Fits, fits_append,
      fits_operandsCode, hc, List.mem_map, true_and, fits_cons, fits_nil, and_true]
    rintro _ ⟨t, ht, rfl⟩
    exact iha t ht hk (h.child (.tail _ ht))
  | array items ih =>
    have hi : ∀ t ∈ foldTerms options known items, t.Fits P := by
      simp only [foldTerms_eq_map, List.mem_map]
      rintro _ ⟨t, ht, rfl⟩
      exact ih t ht hk (h.child ht)
    rw [Term.fold]
    split
    · rename_i vs hvs
      exact ⟨hP.array (hP.of_knownAll? hi hvs), trivial⟩
    · simpa [Term.Fits, Term.code, Instr.Fits] using hi
  | object fields ih =>
    have hkeys : ∀ field ∈ fields, isProtected field.1 = false := by
      simp only [Term.Fits, Term.code, List.cons_append, fits_cons, fits_append,
        fits_fieldsCode] at h
      exact fun field hf => (h.2.1 field hf).1
    simp only [Term.fold, foldFields_eq_map, Term.Fits, Term.code, List.cons_append, fits_cons,
      fits_append, fits_fieldsCode, List.mem_map, Instr.Fits, true_and, fits_nil, and_true]
    rintro _ ⟨field, hf, rfl⟩
    exact ⟨hkeys field hf, ih field hf hk (h.child (List.mem_map_of_mem hf))⟩
  | assign root path value ih =>
    have hv := ih hk (h.child (.head _))
    rw [Term.Fits] at hv
    simp [Term.fold, Term.Fits, Term.code, Instr.Fits, hv]
  | define name params body ih =>
    have hb := ih (hk.eraseAll params) (h.child (.head _))
    rw [Term.Fits] at hb
    simp [Term.fold, Term.Fits, Term.code, Instr.Fits, hb]
  | sequence first rest ihf ihr =>
    have hf := ihf hk (h.child (.head _))
    rw [Term.Fits] at hf
    simp only [Term.fold, foldTerms_eq_map, Term.Fits, Term.code, Instr.Fits, fits_append,
      fits_statementsCode, hf, List.mem_map, true_and, fits_cons, fits_nil, and_true]
    rintro _ ⟨t, ht, rfl⟩
    exact ihr t ht hk (h.child (.tail _ ht))

end Family

section
variable {P : Value → Prop} {name : String} {replacement : Program}

mutual

theorem Instr.fits_substitute (hr : Program.Fits P replacement) :
    (instr : Instr) → instr.Fits P → Program.Fits P (instr.substitute name replacement)
  | .var other, _ => by
    rw [Instr.substitute]
    split
    · exact hr
    · exact ⟨trivial, trivial⟩
  | .sub body, h => ⟨Program.fits_substitute hr body h, trivial⟩
  | .literal _, h | .unary _, h | .binary _, h | .property _, h => ⟨h, trivial⟩
  | .undefined, _ | .and, _ | .or, _ | .index, _ | .assign, _ | .choose, _ | .name _, _
  | .call _, _ | .define _, _ | .member _, _ | .array _, _ | .objectStart, _ | .objectEnd, _
  | .caseOf _ _ _, _ | .endStatement, _ => ⟨trivial, trivial⟩

/-- Substitution puts nothing into a program that was not in one of the two. -/
theorem Program.fits_substitute (hr : Program.Fits P replacement) :
    (program : Program) → Program.Fits P program →
      Program.Fits P (program.substitute name replacement)
  | [], _ => trivial
  | instr :: rest, h => by
    rw [Program.substitute_cons, fits_append]
    exact ⟨Instr.fits_substitute hr instr h.1, Program.fits_substitute hr rest h.2⟩

end

end

end Formula
