import Formula.Program.Names
import Formula.Proofs.Readers
import Formula.Proofs.Spelling

/-! # The names in parsed terms

The lexer finds only names that are words, so all the names that a parsed term reads, stores to and
defines are words (`Term.worded_of_parse`); in particular there is no dot in them, and a name that
is stored to has a dot only where it is a path.
-/
namespace Formula

/-! ## The names that the lexer finds -/

namespace Scan
section
variable {c : Char} {n : String}

theorem punctuation?_cases {next? : Option Char} {length : Nat} {t : Token}
    (h : punctuation? c next? = some (t, length)) : t ≠ .finish ∧ ∀ n, t ≠ .name n := by
  unfold punctuation? at h
  dsimp only at h
  split at h <;> (try split at h) <;> cases h <;> simp

theorem spellable_of_word {rest : List Char} (hc : isNameStart c = true)
    (h : (word c rest).reading = .token (.name n)) : (Token.name n).Spellable := by
  unfold word at h
  dsimp only at h
  split at h
  · cases h
  · rename_i hnone
    cases h
    refine ⟨?_, hnone⟩
    rw [String.toList_ofList]
    exact .plain hc (List.all_eq_true.mp List.all_takeWhile)

theorem spellable_of_dollarName {rest : List Char}
    (h : (dollarName rest).reading = .token (.name n)) : (Token.name n).Spellable := by
  unfold dollarName at h
  dsimp only at h
  split at h
  · rename_i halpha
    cases h
    refine ⟨?_, ofSpelling?_dollar _⟩
    rw [String.toList_ofList]
    cases rest with
    | nil => cases halpha
    | cons d rest =>
      have hd : d.isAlpha = true := halpha
      rw [List.takeWhile_cons_of_pos (isNameChar_of_isAlpha hd)]
      exact .dollar hd (List.all_eq_true.mp List.all_takeWhile)
  · cases h

/-- A name that the lexer finds can be spelled. -/
theorem spellable_of_scan {rest : List Char} (h : (scan c rest).reading = .token (.name n)) :
    (Token.name n).Spellable := by
  unfold scan at h
  split at h
  · cases h
  split at h
  · cases h
  split at h
  · rcases reading_number_cases (c :: rest) with ⟨x, hx⟩ | ⟨fault, hfault⟩ <;> simp_all
  split at h
  · unfold string at h
    dsimp only at h
    split at h <;> cases h
  split at h
  · exact spellable_of_word ‹_› h
  split at h
  · exact spellable_of_dollarName h
  split at h
  · rename_i token length hsome
    cases h
    exact absurd rfl ((punctuation?_cases hsome).2 _)
  · cases h

/-- The lexer finds no end before the end of the text. -/
theorem reading_ne_finish (c : Char) (rest : List Char) :
    (scan c rest).reading ≠ .token .finish := by
  unfold scan
  split
  · simp
  split
  · simp
  split
  · rcases reading_number_cases (c :: rest) with ⟨x, hx⟩ | ⟨fault, hfault⟩ <;> simp [*]
  split
  · unfold string
    dsimp only
    split <;> simp
  split
  · unfold word
    dsimp only
    split <;> simp
  split
  · unfold dollarName
    dsimp only
    split <;> simp
  split
  · rename_i token length hsome
    simpa using (punctuation?_cases hsome).1
  · simp

end
end Scan

/-- The token is no name, or one that can be spelled. -/
def Token.Worded (t : Token) : Prop := ∀ n, t = .name n → (Token.name n).Spellable

theorem Token.worded_of_scan {c : Char} {rest : List Char} {t : Token}
    (h : (Scan.scan c rest).reading = .token t) : t.Worded := by
  rintro n rfl
  exact Scan.spellable_of_scan h

/-- What is true of every token that the lexer finds at a place is true of the tokens of a text. -/
theorem holds_lexemesFrom {T : Token → Prop}
    (hT : ∀ c rest t, (Scan.scan c rest).reading = .token t → T t) (skip offset : Nat)
    (text : List Char) : Grammar.Holds T (lexemesFrom skip offset text) := by
  induction text generalizing skip offset with
  | nil =>
    intro t ht
    cases skip <;> cases ht
  | cons c rest ih =>
    cases skip with
    | succ skip => exact ih skip _
    | zero =>
      rw [lexemesFrom]
      split
      · rename_i lexeme hlexeme
        intro t ht
        rcases List.mem_cons.mp ht with rfl | hlater
        · cases hreading : (Scan.scan c rest).reading with
          | token k =>
            rw [hreading] at hlexeme
            cases hlexeme
            exact hT c rest k hreading
          | _ =>
            rw [hreading] at hlexeme
            cases hlexeme
        · exact ih _ _ t hlater
      · exact ih _ _

/-! ## Properties of every construct -/

namespace Grammar

/-- What has to be shown for every term in a parsed term to have the property `H`: on tokens that
satisfy `T` every construct of the grammar has it. -/
structure KeepsHere (g : Grammar) (T : Token → Prop) (H : Term → Prop) : Prop where
  finish : T g.finish.token
  literal : ∀ v, H (.literal v)
  undefined : H .undefined
  var : ∀ name, T (.name name) → ¬ (g.options.allowsConditional ∧ name = "case") →
    ¬ (g.options.allowsConditional ∧ name ∈ caseWords) → g.constants.get? name = none →
    H (.var name)
  unary : ∀ op t, (∀ spelling, op ≠ .unknown spelling) → H (.unary op t)
  binary : ∀ op l r, (∀ spelling, op ≠ .unknown spelling) → H (.binary op l r)
  and : ∀ l r, H (.and l r)
  or : ∀ l r, H (.or l r)
  choose : ∀ condition yes no, H (.choose condition yes no)
  caseOf : ∀ subject arms otherwise, arms ≠ [] → H (.caseOf subject arms otherwise)
  member : ∀ target k name, T k → memberName? k = some name → H (.member target name)
  index : ∀ target key, H (.index target key)
  call : ∀ callee arguments, H (.call callee arguments)
  array : ∀ items, H (.array items)
  object : ∀ fields, (∀ field ∈ fields, isProtected field.1 = false) → H (.object fields)
  assign : ∀ target root path value, pathOf? target = some (root, path) → target.Everywhere H →
    H (.assign root path value)
  define : ∀ callee arguments name params body, nameOf? callee = some name →
    arguments.mapM nameOf? = some params → (Term.call callee arguments).Everywhere H →
    H (.define name params body)
  sequence : ∀ first rest, H (.sequence first rest)

theorem everywhere_keeps {g : Grammar} {T : Token → Prop} {H : Term → Prop}
    (h : g.KeepsHere T H) : g.Keeps T fun _ => Term.Everywhere H where
  finish := h.finish
  mono := id
  number _ := Term.everywhere_of_children (h.literal _) nofun
  string _ := Term.everywhere_of_children (h.literal _) nofun
  bool _ := Term.everywhere_of_children (h.literal _) nofun
  undefined := Term.everywhere_of_children h.undefined nofun
  constant _ _ _ := Term.everywhere_of_children (h.literal _) nofun
  var name hname hcase hword hconstant :=
    Term.everywhere_of_children (h.var name hname hcase hword hconstant) nofun
  unary op t hop ht :=
    Term.everywhere_of_children (h.unary op t hop) (List.forall_mem_singleton.mpr ht)
  binary op l r hop hl hr := Term.everywhere_of_children (h.binary op l r hop)
    (List.forall_mem_cons.mpr ⟨hl, List.forall_mem_singleton.mpr hr⟩)
  and l r hl hr := Term.everywhere_of_children (h.and l r)
    (List.forall_mem_cons.mpr ⟨hl, List.forall_mem_singleton.mpr hr⟩)
  or l r hl hr := Term.everywhere_of_children (h.or l r)
    (List.forall_mem_cons.mpr ⟨hl, List.forall_mem_singleton.mpr hr⟩)
  choose condition yes no hc hy hn := Term.everywhere_of_children (h.choose condition yes no)
    (List.forall_mem_cons.mpr ⟨hc, List.forall_mem_cons.mpr ⟨hy, List.forall_mem_singleton.mpr hn⟩⟩)
  caseOf subject arms otherwise hs hsome ha ho :=
    Term.everywhere_of_children (h.caseOf subject arms otherwise hsome)
      (forall_children_caseOf.mpr ⟨hs, ha, ho⟩)
  member target k name hk hname ht := Term.everywhere_of_children (h.member target k name hk hname)
    (List.forall_mem_singleton.mpr ht)
  index target key ht hk := Term.everywhere_of_children (h.index target key)
    (List.forall_mem_cons.mpr ⟨ht, List.forall_mem_singleton.mpr hk⟩)
  call callee arguments hc ha := Term.everywhere_of_children (h.call callee arguments)
    (List.forall_mem_cons.mpr ⟨hc, ha⟩)
  array items hitems := Term.everywhere_of_children (h.array items) hitems
  object fields hfields :=
    Term.everywhere_of_children (h.object fields fun field hfield => (hfields field hfield).1)
      (List.forall_mem_map.mpr fun field hfield => (hfields field hfield).2)
  assign target root path value hpath ht hv := Term.everywhere_of_children
    (h.assign target root path value hpath ht) (List.forall_mem_singleton.mpr hv)
  define callee arguments name params body hname hparams hhead hb := Term.everywhere_of_children
    (h.define callee arguments name params body hname hparams hhead)
    (List.forall_mem_singleton.mpr hb)
  sequence first rest hfirst hrest := Term.everywhere_of_children (h.sequence first rest)
    (List.forall_mem_cons.mpr ⟨hfirst, hrest⟩)

end Grammar

/-! ## The names of a term -/

/-- The variables of the construct satisfy `V`, and the members that it names are words. -/
def Term.Worded (V : String → Prop) : Term → Prop
  | .var name => V name
  | .member _ name => Scan.IsWord name.toList
  | .assign root path _ => V root ∧ ∀ member ∈ path, Scan.IsWord member.toList
  | .define name params _ => ∀ n ∈ name :: params, V n
  | _ => True

section
variable {V : String → Prop}

theorem isWord_of_memberName? {k : Token} {n : String} (hk : k.Worded)
    (h : Grammar.memberName? k = some n) : Scan.IsWord n.toList := by
  cases k with
  | name => cases h; exact (hk n rfl).1
  | keyword k => cases h; cases k <;> exact .of_all rfl
  | _ => cases h

/-- The names of a path are those of the variable and the members that it was made of. -/
theorem Term.worded_of_pathOf? {target : Term} {root : String} {path : List String}
    (h : Grammar.pathOf? target = some (root, path)) (htarget : target.Everywhere (Term.Worded V)) :
    V root ∧ ∀ member ∈ path, Scan.IsWord member.toList := by
  induction target generalizing path with
  | var name =>
    cases h
    exact ⟨htarget.here, by simp⟩
  | member target name ih =>
    rw [Grammar.pathOf?] at h
    obtain ⟨⟨_, front⟩, hfront, heq⟩ := Option.map_eq_some_iff.mp h
    cases heq
    obtain ⟨hroot, hmembers⟩ := ih hfront (htarget.child (.head _))
    exact ⟨hroot, List.forall_mem_append.mpr ⟨hmembers, List.forall_mem_singleton.mpr htarget.here⟩⟩
  | _ => cases h

theorem eq_var_of_nameOf? {t : Term} {name : String} (h : Grammar.nameOf? t = some name) :
    t = .var name := by
  cases t with
  | var => cases h; rfl
  | _ => cases h

theorem eq_map_var_of_mapM {terms : List Term} {names : List String}
    (h : terms.mapM Grammar.nameOf? = some names) : terms = names.map .var := by
  induction terms generalizing names with
  | nil => cases h; rfl
  | cons t terms ih =>
    simp only [List.mapM_cons, Option.bind_eq_bind, Option.bind_eq_some_iff] at h
    obtain ⟨name, hname, rest, hrest, heq⟩ := h
    cases heq
    rw [eq_var_of_nameOf? hname, ih hrest, List.map_cons]

/-- The names of a definition are those of the call that its head was read as. -/
theorem Term.worded_of_head {callee : Term} {arguments : List Term} {name : String}
    {params : List String} (hname : Grammar.nameOf? callee = some name)
    (hparams : arguments.mapM Grammar.nameOf? = some params)
    (h : (Term.call callee arguments).Everywhere (Term.Worded V)) : ∀ n ∈ name :: params, V n := by
  obtain rfl := eq_var_of_nameOf? hname
  obtain rfl := eq_map_var_of_mapM hparams
  refine List.forall_mem_cons.mpr ⟨(h.child (.head _)).here, fun n hn => ?_⟩
  exact (h.child (.tail _ (List.mem_map_of_mem hn))).here

/-- The name is a word. -/
abbrev IsName (name : String) : Prop := Scan.IsWord name.toList

theorem worded_keepsHere {g : Grammar} (hfinish : g.finish.token = .finish) :
    g.KeepsHere Token.Worded (Term.Worded IsName) where
  finish := by
    rw [hfinish]
    rintro _ ⟨⟩
  literal _ := trivial
  undefined := trivial
  var n hn _ _ _ := (hn n rfl).1
  unary _ _ _ := trivial
  binary _ _ _ _ := trivial
  and _ _ := trivial
  or _ _ := trivial
  choose _ _ _ := trivial
  caseOf _ _ _ _ := trivial
  member _ _ _ hk hname := isWord_of_memberName? hk hname
  index _ _ := trivial
  call _ _ := trivial
  array _ := trivial
  object _ _ := trivial
  assign _ _ _ _ hpath htarget := Term.worded_of_pathOf? hpath htarget
  define _ _ _ _ _ hname hparams hhead := Term.worded_of_head hname hparams hhead
  sequence _ _ := trivial

/-- **The names in a parsed term are words.** -/
theorem Term.worded_of_parse {options : Options} {constants : Dict Value} {source : String}
    {t : Term} (h : Term.parse options constants source = .ok t) :
    t.Everywhere (Term.Worded IsName) :=
  Term.of_parse (Grammar.everywhere_keeps (worded_keepsHere rfl))
    (holds_lexemesFrom (fun _ _ _ => Token.worded_of_scan) 0 0 source.toList) h

/-- There is no dot in a word. -/
theorem Scan.IsWord.undotted {n : List Char} (h : Scan.IsWord n) : '.' ∉ n := by
  have hchar : ∀ c, Scan.isNameChar c = true → c ≠ '.' := by
    rintro _ h rfl
    exact absurd h (by decide)
  have hrest : ∀ rest : List Char, (∀ c ∈ rest, Scan.isNameChar c = true) → '.' ∉ rest :=
    fun rest hrest hdot => hchar _ (hrest _ hdot) rfl
  cases h with
  | @plain c rest hc hr =>
    have hstart : c ≠ '.' := by
      rintro rfl
      exact absurd hc (by decide)
    exact List.not_mem_cons_of_ne_of_not_mem hstart.symm (hrest rest hr)
  | @dollar c rest hc hr =>
    have hstart : c ≠ '.' := by
      rintro rfl
      exact absurd hc (by decide)
    exact List.not_mem_cons_of_ne_of_not_mem (by decide)
      (List.not_mem_cons_of_ne_of_not_mem hstart.symm (hrest rest hr))

/-- The root of a target is the variable that it begins with. -/
theorem pathRoot_targetName {root : String} (hroot : IsName root) (path : List String) :
    pathRoot (targetName root path) = root := by
  have hletters : ∀ c ∈ root.toList, decide (c ≠ '.') = true := by
    rintro c hc
    rw [decide_eq_true_iff]
    rintro rfl
    exact hroot.undotted hc
  obtain ⟨rest, htext, hrest⟩ : ∃ rest, (targetName root path).toList = root.toList ++ rest ∧
      rest.takeWhile (fun c => decide (c ≠ '.')) = [] := by
    cases path with
    | nil => exact ⟨[], by simp [targetName], rfl⟩
    | cons member path =>
      exact ⟨'.' :: ['.'].intercalate (member.toList :: path.map String.toList),
        by simp [targetName, String.toList_intercalate], rfl⟩
  rw [pathRoot, htext, List.takeWhile_append_of_pos hletters, hrest, List.append_nil,
    String.ofList_toList]

theorem pathRoot_of_isName {name : String} (h : IsName name) : pathRoot name = name :=
  pathRoot_targetName h []

end
end Formula
