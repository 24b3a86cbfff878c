import Formula.Expression
import Formula.Proofs.Families
import Formula.Proofs.Mentions
import Formula.Proofs.Names
import Formula.Proofs.Provenance

/-! # The names that are left when known variables are folded

Folding does one of two things to a construct: it computes its value, where all its parts have been
computed (`Term.Computed`), or it leaves the construct as it is around its folded parts
(`Term.Rebuilt`).  A construct that stores to a name or reads an unknown variable is never computed,
and neither is anything around it.

So just those names are gone that were only read, where nothing hid the known variable
(`simplify_symbols`).
-/
namespace Formula

/-- No value is known of the variable, or only that it is a function. -/
def Unknown (known : Dict Value) (n : String) : Prop :=
  ∀ v, known.get? n = some v → ∃ f, v = .function f

theorem unknown_eraseAll {known : Dict Value} {gone : List String} {n : String} :
    Unknown (known.eraseAll gone) n ↔ n ∈ gone ∨ Unknown known n := by
  unfold Unknown
  rw [Dict.get?_eraseAll]
  by_cases hn : n ∈ gone <;> simp [hn]

namespace Term

/-- The parameters that hide variables in the parts of the construct. -/
def params : Term → List String
  | .define _ params _ => params
  | _ => []

section
variable (options : Options) (known : Dict Value)

/-- The construct becomes a value, as all its parts do. -/
structure Computed (t : Term) : Prop where
  value : ∃ v, t.fold options known = .ofValue v
  parts : ∀ child ∈ t.children, ∃ v, child.fold options known = .ofValue v
  params : t.params = []
  name : ∀ path, .name path ∉ t.own
  var : ∀ n, .var n ∈ t.own → ¬ Unknown known n

/-- The construct stays around its folded parts. -/
structure Rebuilt (t : Term) : Prop where
  own : (t.fold options known).own = t.own
  children : (t.fold options known).children
    = t.children.map (Term.fold options (known.eraseAll t.params))
  var : ∀ n, .var n ∈ t.own → Unknown known n

end

section
variable {options : Options} {known : Dict Value}

/-- The construct is an operation on its parts: it binds no parameters and mentions no names. -/
structure Operates (t : Term) : Prop where
  params : t.params = []
  name : ∀ path, .name path ∉ t.own
  var : ∀ n, .var n ∉ t.own

/-- An operation stays, unless its parts are known and it has a result. -/
theorem Operates.computed_or_rebuilt {t : Term} (h : t.Operates) (built : Term)
    (hown : built.own = t.own)
    (hchildren : built.children = t.children.map (Term.fold options known))
    (hfold : t.fold options known = built ∨
      (∃ result, t.fold options known = built.orResult result) ∧
        ∀ child ∈ t.children, ∃ v, (child.fold options known).known? = some v) :
    t.Computed options known ∨ t.Rebuilt options known := by
  have hstays : t.fold options known = built → t.Rebuilt options known := by
    intro hbuilt
    refine ⟨hbuilt ▸ hown, ?_, fun n hn => absurd hn (h.var n)⟩
    rw [hbuilt, hchildren, h.params]
    rfl
  rcases hfold with hbuilt | ⟨⟨result, hresult⟩, hparts⟩
  · exact .inr (hstays hbuilt)
  cases result with
  | ok v =>
    refine .inl ⟨⟨v, hresult⟩, fun child hchild => ?_, h.params, h.name, fun n hn _ => h.var n hn⟩
    obtain ⟨w, hw⟩ := hparts child hchild
    exact ⟨w, eq_ofValue_of_known? hw⟩
  | error _ => exact .inr (hstays hresult)

theorem known?_of_knownAll? {terms : List Term} {vs : List Value} (h : knownAll? terms = some vs) :
    ∀ t ∈ terms, ∃ v, t.known? = some v := by
  induction terms generalizing vs with
  | nil => simp
  | cons t terms ih =>
    unfold knownAll? at h
    split at h
    · rename_i v vs hv hvs
      exact List.forall_mem_cons.mpr ⟨⟨v, hv⟩, ih hvs⟩
    · cases h

theorem computed_or_rebuilt_var (name : String) :
    (Term.var name).Computed options known ∨ (Term.var name).Rebuilt options known := by
  have hkeep : Unknown known name → (Term.var name).fold options known = .var name →
      (Term.var name).Rebuilt options known := fun hname hfold =>
    ⟨by rw [hfold], by rw [hfold]; rfl, by simpa [own] using hname⟩
  cases hget : known.get? name with
  | none => exact .inr (hkeep (by simp [Unknown, hget]) (by simp [fold, hget]))
  | some v =>
    by_cases hfunction : ∃ f, v = .function f
    · obtain ⟨f, rfl⟩ := hfunction
      exact .inr (hkeep (by simp [Unknown, hget]) (by simp [fold, hget]))
    · have hunknown : ¬ Unknown known name := fun h => hfunction (h v hget)
      have hfold : (Term.var name).fold options known = .ofValue v := by
        cases v with
        | function f => exact absurd ⟨f, rfl⟩ hfunction
        | _ => simp [fold, hget]
      exact .inl ⟨⟨v, hfold⟩, by simp [children], rfl, by simp [own],
        by simpa [own] using hunknown⟩

variable (options known) in
/-- **Folding computes a construct or leaves it around its folded parts.** -/
theorem computed_or_rebuilt (t : Term) : t.Computed options known ∨ t.Rebuilt options known := by
  cases t with
  | literal v =>
    exact .inl ⟨⟨v, by rw [fold]⟩, by simp [children], rfl, by simp [own], by simp [own]⟩
  | undefined =>
    have hfold : Term.undefined.fold options known = .ofValue .undefined := by rw [fold]; rfl
    exact .inl ⟨⟨_, hfold⟩, by simp [children], rfl, by simp [own], by simp [own]⟩
  | var name => exact computed_or_rebuilt_var name
  | unary op operand =>
    refine Operates.computed_or_rebuilt ⟨rfl, by simp [own], by simp [own]⟩
      (.unary op (operand.fold options known)) rfl rfl ?_
    cases hoperand : (operand.fold options known).known? with
    | none => exact .inl (by rw [fold, hoperand])
    | some x => exact .inr ⟨⟨op.apply x, by rw [fold, hoperand]⟩, by simp [children, hoperand]⟩
  | binary op left right =>
    refine Operates.computed_or_rebuilt ⟨rfl, by simp [own], by simp [own]⟩
      (.binary op (left.fold options known) (right.fold options known)) rfl rfl ?_
    cases hleft : (left.fold options known).known? with
    | none => exact .inl (by rw [fold, hleft])
    | some x =>
      cases hright : (right.fold options known).known? with
      | none => exact .inl (by rw [fold, hleft, hright])
      | some y =>
        exact .inr ⟨⟨op.apply x y, by rw [fold, hleft, hright]⟩, by simp [children, hleft, hright]⟩
  | member target name =>
    refine Operates.computed_or_rebuilt ⟨rfl, by simp [own], by simp [own]⟩
      (.member (target.fold options known) name) rfl rfl ?_
    cases htarget : (target.fold options known).known? with
    | none => exact .inl (by rw [fold, htarget])
    | some x =>
      by_cases hallow : options.allowMemberAccess = true
      · exact .inr ⟨⟨x.member name, by simp only [fold, htarget, if_pos hallow]⟩,
          by simp [children, htarget]⟩
      · exact .inl (by simp only [fold, htarget, if_neg hallow])
  | index target key =>
    refine Operates.computed_or_rebuilt ⟨rfl, by simp [own], by simp [own]⟩
      (.index (target.fold options known) (key.fold options known)) rfl rfl ?_
    cases htarget : (target.fold options known).known? with
    | none => exact .inl (by rw [fold, htarget])
    | some x =>
      cases hkey : (key.fold options known).known? with
      | none => exact .inl (by rw [fold, htarget, hkey])
      | some y =>
        by_cases hallow : options.allowMemberAccess = true
        · exact .inr ⟨⟨x.index y, by simp only [fold, htarget, hkey, if_pos hallow]⟩,
            by simp [children, htarget, hkey]⟩
        · exact .inl (by simp only [fold, htarget, hkey, if_neg hallow])
  | array items =>
    refine Operates.computed_or_rebuilt ⟨rfl, by simp [own], by simp [own]⟩
      (.array (items.map (Term.fold options known))) (by simp [own]) rfl ?_
    cases hitems : knownAll? (items.map (Term.fold options known)) with
    | none => exact .inl (by rw [fold, foldTerms_eq_map, hitems])
    | some vs =>
      exact .inr ⟨⟨.ok (.array vs), by rw [fold, foldTerms_eq_map, hitems]; rfl⟩,
        fun item hitem => known?_of_knownAll? hitems _ (List.mem_map_of_mem hitem)⟩
  | caseOf subject arms otherwise =>
    refine .inr ⟨?_, ?_, by simp [own]⟩
    · simp [fold, own, foldOption_eq_map, foldArms_eq_map]
    · cases subject <;> cases otherwise <;>
        simp [fold, children, foldOption_eq_map, foldArms_eq_map, List.flatMap_map,
          List.map_flatMap, params, Dict.eraseAll]
  | call callee arguments =>
    refine .inr ⟨by simp [fold, own, foldTerms_eq_map], ?_, by simp [own]⟩
    simp [fold, children, foldTerms_eq_map, params, Dict.eraseAll]
  | object fields =>
    refine .inr ⟨by simp [fold, own, foldFields_eq_map, Function.comp_def], ?_, by simp [own]⟩
    simp [fold, children, foldFields_eq_map, params, Dict.eraseAll]
  | sequence first rest =>
    refine .inr ⟨by simp [fold, own, foldTerms_eq_map, Function.comp_def], ?_, by simp [own]⟩
    simp [fold, children, foldTerms_eq_map, params, Dict.eraseAll]
  | and | or | choose | assign | define =>
    exact .inr ⟨by rw [fold]; rfl, by rw [fold]; rfl, by simp [own]⟩

/-! ## What stays -/

theorem not_has_ofValue {v : Value} {instr : Instr} (hne : instr ≠ v.toInstr) :
    ¬ (Term.ofValue v).Has instr := by
  rw [has_iff]
  cases v <;> simpa [ofValue, own, children, Value.toInstr] using hne

/-- In what has been computed there are values only. -/
theorem Computed.lacks {t : Term} (h : t.Computed options known) {instr : Instr}
    (hne : ∀ v : Value, instr ≠ v.toInstr) : ¬ (t.fold options known).Has instr ∧
      ∀ child ∈ t.children, ¬ (child.fold options known).Has instr := by
  constructor
  · obtain ⟨v, hv⟩ := h.value
    rw [hv]
    exact not_has_ofValue (hne v)
  · intro child hchild
    obtain ⟨v, hv⟩ := h.parts child hchild
    rw [hv]
    exact not_has_ofValue (hne v)

theorem name_ne_toInstr (path : String) (v : Value) : Instr.name path ≠ v.toInstr := by
  cases v <;> simp [Value.toInstr]

theorem var_ne_toInstr (n : String) (v : Value) : Instr.var n ≠ v.toInstr := by
  cases v <;> simp [Value.toInstr]

theorem Rebuilt.has_iff {t : Term} (h : t.Rebuilt options known) {instr : Instr} :
    (t.fold options known).Has instr ↔ instr ∈ t.own ∨
      ∃ child ∈ t.children, (child.fold options (known.eraseAll t.params)).Has instr := by
  rw [Term.has_iff, h.own, h.children]
  simp

/-- **Whatever is stored to stays.** -/
theorem has_name_fold {path : String} (t : Term) (known : Dict Value) :
    (t.fold options known).Has (.name path) ↔ t.Has (.name path) := by
  induction t using Term.induct_children generalizing known with
  | h t ih =>
    rcases computed_or_rebuilt options known t with h | h
    · -- nothing is stored to in what becomes a value, nor in its parts
      obtain ⟨hvalue, hparts⟩ := h.lacks (name_ne_toInstr path)
      refine iff_of_false hvalue fun hhas => ?_
      rcases Term.has_iff.mp hhas with hown | ⟨child, hchild, hhas⟩
      · exact h.name path hown
      · exact hparts child hchild ((ih child hchild known).mpr hhas)
    · rw [h.has_iff, Term.has_iff (t := t)]
      exact or_congr_right (exists_congr fun child => and_congr_right fun hchild =>
        ih child hchild _)

/-- A function in the term has a parameter of the name, and its body reads the variable. -/
def ReadsParam (t : Term) (n : String) : Prop :=
  ∃ s, Term.Within s t ∧ n ∈ s.params ∧ ∃ child ∈ s.children, child.Has (.var n)

theorem readsParam_iff {t : Term} {n : String} : t.ReadsParam n ↔
    (n ∈ t.params ∧ ∃ child ∈ t.children, child.Has (.var n)) ∨
      ∃ child ∈ t.children, child.ReadsParam n := by
  constructor
  · rintro ⟨s, hs, hread⟩
    cases hs with
    | self => exact .inl hread
    | deeper hc hs => exact .inr ⟨_, hc, s, hs, hread⟩
  · rintro (hread | ⟨child, hc, s, hs, hread⟩)
    · exact ⟨t, .self t, hread⟩
    · exact ⟨s, .deeper hc hs, hread⟩

/-- **A variable stays where it is unknown, and where it is a parameter.** -/
theorem has_var_fold {n : String} (t : Term) (known : Dict Value) :
    (t.fold options known).Has (.var n) ↔ t.Has (.var n) ∧ Unknown known n ∨ t.ReadsParam n := by
  induction t using Term.induct_children generalizing known with
  | h t ih =>
    rcases computed_or_rebuilt options known t with h | h
    · -- every variable in what becomes a value is known, and none is a parameter
      obtain ⟨hvalue, hparts⟩ := h.lacks (var_ne_toInstr n)
      refine iff_of_false hvalue ?_
      rw [Term.has_iff, readsParam_iff, h.params]
      rintro (⟨hown | ⟨child, hchild, hhas⟩, hn⟩ | ⟨hnone, -⟩ | ⟨child, hchild, hread⟩)
      · exact h.var n hown hn
      · exact hparts child hchild ((ih child hchild known).mpr (.inl ⟨hhas, hn⟩))
      · cases hnone
      · exact hparts child hchild ((ih child hchild known).mpr (.inr hread))
    · rw [h.has_iff, Term.has_iff (t := t), readsParam_iff]
      constructor
      · rintro (hown | ⟨child, hchild, hhas⟩)
        · exact .inl ⟨.inl hown, h.var n hown⟩
        rcases (ih child hchild _).mp hhas with ⟨hread, hn⟩ | hread
        · rcases unknown_eraseAll.mp hn with hparam | hn
          · exact .inr (.inl ⟨hparam, child, hchild, hread⟩)
          · exact .inl ⟨.inr ⟨child, hchild, hread⟩, hn⟩
        · exact .inr (.inr ⟨child, hchild, hread⟩)
      · have hstays : ∀ child ∈ t.children, child.Has (.var n) ∧ (n ∈ t.params ∨ Unknown known n) →
            ∃ child ∈ t.children, (child.fold options (known.eraseAll t.params)).Has (.var n) :=
          fun child hchild hread => ⟨child, hchild,
            (ih child hchild _).mpr (.inl ⟨hread.1, unknown_eraseAll.mpr hread.2⟩)⟩
        rintro (⟨hown | ⟨child, hchild, hread⟩, hn⟩ | ⟨hparam, child, hchild, hread⟩ |
          ⟨child, hchild, hread⟩)
        · exact .inl hown
        · exact .inr (hstays child hchild ⟨hread, .inr hn⟩)
        · exact .inr (hstays child hchild ⟨hread, .inl hparam⟩)
        · exact .inr ⟨child, hchild, (ih child hchild _).mpr (.inr hread)⟩

/-! ## Occurrences of a name -/

/-- The term stores to the variable: at the beginning of a path, as a function or as a parameter. -/
inductive Stores (t : Term) (n : String) : Prop
  | target {path : List String} {value : Term} (h : Term.Within (.assign n path value) t)
  | function {params : List String} {body : Term} (h : Term.Within (.define n params body) t)
  | param {f : String} {params : List String} {body : Term}
      (h : Term.Within (.define f params body) t) (hn : n ∈ params)

/-- The term reads the variable where it is unknown, or inside a function that has a parameter of
that name. -/
inductive KeepsReading (known : Dict Value) (t : Term) (n : String) : Prop
  | unknown (h : Term.Within (.var n) t) (hn : Unknown known n)
  | hidden {f : String} {params : List String} {body : Term}
      (h : Term.Within (.define f params body) t) (hn : n ∈ params)
      (hread : Term.Within (.var n) body)

theorem has_var_iff {t : Term} {n : String} : t.Has (.var n) ↔ Term.Within (.var n) t := by
  constructor
  · rintro ⟨s, hs, hown⟩
    cases s with
    | var name =>
      obtain rfl : n = name := by simpa [own] using hown
      exact hs
    | _ => simp [own] at hown
  · exact fun h => ⟨_, h, .head _⟩

theorem stores_iff {t : Term} (hwords : t.Everywhere (Term.Worded IsName)) {n : String} :
    (∃ path, t.Has (.name path) ∧ pathRoot path = n) ↔ t.Stores n := by
  constructor
  · rintro ⟨path, ⟨s, hs, hown⟩, rfl⟩
    have hword := hwords s hs
    cases s with
    | assign root members value =>
      obtain rfl : path = targetName root members := by simpa [own] using hown
      rw [pathRoot_targetName hword.1]
      exact .target hs
    | define f params body =>
      have hmem : path ∈ f :: params := by simpa [own] using hown
      rw [pathRoot_of_isName (hword path hmem)]
      rcases List.mem_cons.mp hmem with rfl | hparam
      · exact .function hs
      · exact .param hs hparam
    | _ => simp [own] at hown
  · rintro (hs | hs | ⟨hs, hn⟩)
    · exact ⟨_, ⟨_, hs, .head _⟩, pathRoot_targetName (hwords _ hs).1 _⟩
    · exact ⟨n, ⟨_, hs, .head _⟩, pathRoot_of_isName (hwords _ hs n (.head _))⟩
    · refine ⟨n, ⟨_, hs, ?_⟩, pathRoot_of_isName (hwords _ hs n (.tail _ hn))⟩
      simp [own, hn]

theorem readsParam_iff_within {t : Term} {n : String} : t.ReadsParam n ↔
    ∃ f params body, Term.Within (.define f params body) t ∧ n ∈ params ∧
      Term.Within (.var n) body := by
  constructor
  · rintro ⟨s, hs, hn, child, hchild, hread⟩
    cases s with
    | define f params body =>
      obtain rfl := List.mem_singleton.mp hchild
      exact ⟨f, params, child, hs, hn, has_var_iff.mp hread⟩
    | _ => simp [params] at hn
  · rintro ⟨f, params, body, hs, hn, hread⟩
    exact ⟨_, hs, hn, body, List.mem_singleton.mpr rfl, has_var_iff.mpr hread⟩

theorem keepsReading_iff {t : Term} {n : String} :
    (t.fold options known).Has (.var n) ↔ t.KeepsReading known n := by
  rw [has_var_fold, has_var_iff, readsParam_iff_within]
  constructor
  · rintro (⟨hread, hn⟩ | ⟨f, params, body, hs, hn, hread⟩)
    · exact .unknown hread hn
    · exact .hidden hs hn hread
  · rintro (⟨hread, hn⟩ | ⟨hs, hn, hread⟩)
    · exact .inl ⟨hread, hn⟩
    · exact .inr ⟨_, _, _, hs, hn, hread⟩

/-- Folding reads no new variables. -/
theorem has_of_fold {t : Term} {n : String} (h : (t.fold options known).Has (.var n)) :
    t.Has (.var n) := by
  rcases (has_var_fold t known).mp h with ⟨hread, -⟩ | ⟨s, hs, -, child, hchild, r, hr, hown⟩
  · exact hread
  · exact ⟨r, Within.trans (.deeper hchild hr) hs, hown⟩

/-- The names in the code are those that are stored to and those that are read. -/
theorem mem_names_code {t : Term} (hread : ∀ m, t.Has (.var m) → IsName m) {n : String} :
    n ∈ t.code.names false ↔ (∃ path, t.Has (.name path) ∧ pathRoot path = n) ∨ t.Has (.var n) := by
  rw [mem_names_iff]
  constructor
  · rintro ⟨mention, hmention, rfl⟩
    rcases mem_mentions_code.mp hmention with hvar | hname
    · rw [pathRoot_of_isName (hread mention hvar)]
      exact .inr hvar
    · exact .inl ⟨mention, hname, rfl⟩
  · rintro (⟨path, hname, rfl⟩ | hvar)
    · exact ⟨path, mem_mentions_code.mpr (.inr hname), rfl⟩
    · exact ⟨n, mem_mentions_code.mpr (.inl hvar), pathRoot_of_isName (hread n hvar)⟩

end
end Term

/-- **Simplifying removes the known names and no others.**  A name stays in the list of a simplified
expression if and only if the expression stores to it somewhere, or reads it where it is unknown, or
reads it in a function that has a parameter of that name; of the variables only the ones that are
read so are still read.  So no name is new, and none is lost of which nothing is known. -/
theorem simplify_symbols {c : Compiler} {source : String} {e : Expression}
    (he : c.compile source = .ok e) :
    ∃ t, Term.parse c.options c.constants source = .ok t ∧ e.program = t.code ∧
      ∀ (options : Options) (known : Dict Value) (n : String),
        let simplified := ({ e with options } : Expression).simplify known
        (n ∈ simplified.symbols false ↔ t.Stores n ∨ t.KeepsReading known n) ∧
          (n ∈ simplified.program.references ↔ t.KeepsReading known n) ∧
          (n ∈ simplified.symbols false → n ∈ e.symbols false) ∧
          (known.get? n = none → n ∈ e.symbols false → n ∈ simplified.symbols false) := by
  obtain ⟨t, hparse, rfl⟩ := exists_of_map_eq_ok he
  have hwords := Term.worded_of_parse hparse
  have hnames : ∀ m, t.Has (.var m) → IsName m := fun m hm => hwords _ (Term.has_var_iff.mp hm)
  refine ⟨t, hparse, rfl, fun options known n => ?_⟩
  have hprogram : t.code.fold options known = (t.fold options known).code := fold_code _ _ _
  have hkeeps : (t.fold options known).Has (.var n) ↔ t.KeepsReading known n :=
    Term.keepsReading_iff
  have hold : n ∈ t.code.names false ↔ t.Stores n ∨ t.Has (.var n) := by
    rw [Term.mem_names_code hnames, Term.stores_iff hwords]
  have hnew : n ∈ (t.fold options known).code.names false ↔
      t.Stores n ∨ t.KeepsReading known n := by
    rw [Term.mem_names_code fun m hm => hnames m (Term.has_of_fold hm), hkeeps,
      ← Term.stores_iff hwords]
    simp only [Term.has_name_fold]
  intro simplified
  have hsymbols : simplified.symbols false = (t.fold options known).code.names false :=
    congrArg (Program.names false) hprogram
  rw [hsymbols]
  refine ⟨hnew, ?_, fun hn => ?_, fun hunknown hn => ?_⟩
  · rw [← hkeeps, ← mem_references_code, ← hprogram]
    rfl
  · exact hold.mpr ((hnew.mp hn).imp_right fun hread => Term.has_of_fold (hkeeps.mpr hread))
  · refine hnew.mpr ((hold.mp hn).imp_right fun hread => ?_)
    exact .unknown (Term.has_var_iff.mp hread) (by simp [Unknown, hunknown])

/-- The parameter of the outer function hides the known `x` in the inner one, and of `u` no more is
known than that it is a function.  Only `k` goes. -/
theorem simplify_symbols_parameter_of_outer_function :
    let known : Dict Value :=
      [("k", .bool true), ("u", .function (.named .sin)), ("x", .bool true), ("z", .bool true)]
    let inner : Term := .define "g" ["y"] (.and (.var "x") (.var "k"))
    let t : Term := .sequence (.define "f" ["x"] inner)
      [.assign "z" ["w"] (.unary (.named .not) (.var "k")), .call (.var "u") [.var "k"]]
    let e : Expression :=
      ⟨t.code, {}, {}, some "f(x) = (g(y) = x and k); z.w = not k; u(k)"⟩
    Compiler.compile {} "f(x) = (g(y) = x and k); z.w = not k; u(k)" = .ok e ∧
      e.symbols false = ["f", "x", "g", "y", "k", "z", "u"] ∧
      (∀ n, n ∈ (e.simplify known).symbols false ↔ t.Stores n ∨ t.KeepsReading known n) ∧
      (e.simplify known).symbols false = ["f", "x", "g", "y", "z", "u"] := by
  intro known inner t e
  have he : Compiler.compile {} "f(x) = (g(y) = x and k); z.w = not k; u(k)" = .ok e := rfl
  obtain ⟨t', hparse, -, hall⟩ := simplify_symbols he
  obtain rfl : t' = t := Except.ok.inj (hparse.symm.trans rfl)
  exact ⟨he, by decide +kernel, fun n => (hall {} known n).1, by decide +kernel⟩

end Formula
