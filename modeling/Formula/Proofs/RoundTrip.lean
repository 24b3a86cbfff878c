import Formula.Expression
import Formula.Proofs.Constructs
import Mathlib.Data.List.Induction

/-! # Phrases are read as they are meant

The parser inverts the way phrases are written: on the tokens of a phrase it answers the term of the
phrase, if everything is on and the limit of nesting is high enough (`compile_tokens`).

Every position of an operand reads the operand as it is written there, in parentheses or bare
(`Phrase.Rereads.bracket`), so a phrase is read on its own level, and from there on all looser ones.
-/
namespace Formula
namespace Phrase

/-! ## First tokens -/

theorem opens_bracket {L own : Rank} {ts : List Token} (h : (ahead ts).opens = true) :
    (ahead (L.bracket own ts)).opens = true := by
  unfold Rank.bracket
  split
  · rfl
  · exact h

theorem opens (p : Phrase) : (ahead p.tokens).opens = true := by
  -- an operand on the left decides for the whole
  have hleft : ∀ (L : Rank) (left : Phrase) (us : List Token), (ahead left.tokens).opens = true →
      (ahead (L.bracket left.rank left.tokens ++ us)).opens = true := by
    intro L left us h
    rw [ahead_append (opens_bracket h)]
    exact opens_bracket h
  induction p with
  | signed negative operand => cases negative <;> rfl
  | factorial operand ih => exact hleft _ _ _ ih
  | power base exponent ih _ => exact hleft _ _ _ ih
  | binary op left right ih _ => exact hleft _ _ _ ih
  | isIn denied item collection ih _ =>
    rw [tokens, List.append_assoc]
    exact hleft _ _ _ ih
  | and left right ih _ => exact hleft _ _ _ ih
  | or left right ih _ => exact hleft _ _ _ ih
  | choose condition yes no ih _ _ =>
    rw [tokens, List.append_assoc]
    exact hleft _ _ _ ih
  | member target n ih => exact hleft _ _ _ ih
  | index target key ih _ =>
    rw [tokens, List.append_assoc]
    exact hleft _ _ _ ih
  | call callee arguments ih _ =>
    rw [tokens, List.append_assoc]
    exact hleft _ _ _ ih
  | _ => rfl

theorem leads_bracket {L : Rank} {p : Phrase} (hL : Rank.factor.tightness < L.tightness)
    (h : Rank.factor.tightness < p.rank.tightness → Leads p.tokens) :
    Leads (L.bracket p.rank p.tokens) := by
  unfold Rank.bracket
  split
  · exact leads_of_ahead _ (by simp) (by simp)
  · exact h (by omega)


theorem leads {constants : Dict Value} {p : Phrase} (hp : p.Ordinary constants) :
    Rank.factor.tightness < p.rank.tightness → Leads p.tokens := by
  induction p with
  | name n => exact fun _ => leads_name (hp n (.head _)).operator []
  | named op operand => exact fun _ => ⟨List.cons_ne_nil _ _, by simp [tokens], fun _ _ => .inr rfl⟩
  | number | text | keyword | array => exact fun _ => leads_of_ahead _ (by simp) (by simp)
  | factorial operand ih =>
    exact fun _ => (leads_bracket (by decide) (ih hp)).append _
  | power base exponent ih _ =>
    exact fun _ => (leads_bracket (by decide) (ih (List.forall_mem_append.mp hp).1)).append _
  | member target n ih =>
    exact fun _ => (leads_bracket (by decide) (ih hp)).append _
  | index target key ih _ =>
    rw [tokens, List.append_assoc]
    exact fun _ => (leads_bracket (by decide) (ih (List.forall_mem_append.mp hp).1)).append _
  | call callee arguments ih _ =>
    rw [tokens, List.append_assoc]
    exact fun _ => (leads_bracket (by decide) (ih (List.forall_mem_append.mp hp).1)).append _
  | binary op => cases op <;> simp [rank, SignOp.rank, Rank.tightness]
  | _ => simp [rank, Rank.tightness]

/-! ## What stands before a sign of assignment -/

/-- The target of an assignment as the phrase that is read before its sign. -/
def ofPath (root : String) (path : List String) : Phrase := path.foldl .member (.name root)

theorem ofPath_concat (root : String) (path : List String) (n : String) :
    ofPath root (path ++ [n]) = .member (ofPath root path) n := by
  simp [ofPath, List.foldl_append]

theorem rank_ofPath (root : String) (path : List String) : (ofPath root path).rank = .access := by
  induction path using List.reverseRecOn with
  | nil => rfl
  | append_singleton path n _ => rw [ofPath_concat]; rfl

theorem tokens_ofPath (root : String) (path : List String) :
    (ofPath root path).tokens = targetTokens root path := by
  induction path using List.reverseRecOn with
  | nil => rfl
  | append_singleton path n ih =>
    rw [ofPath_concat, tokens, ih, rank_ofPath, targetTokens, targetTokens, List.flatMap_append]
    rfl

theorem height_ofPath (root : String) (path : List String) :
    (ofPath root path).height = path.length + 1 := by
  induction path using List.reverseRecOn with
  | nil => rfl
  | append_singleton path n ih =>
    rw [ofPath_concat, height, ih, List.length_append, List.length_singleton]

theorem names_ofPath (root : String) (path : List String) : (ofPath root path).names = [root] := by
  induction path using List.reverseRecOn with
  | nil => rfl
  | append_singleton path n ih => rw [ofPath_concat, names, ih]

theorem term_ofPath (root : String) (path : List String) :
    (ofPath root path).term = Grammar.ofPath root path := by
  induction path using List.reverseRecOn with
  | nil => rfl
  | append_singleton path n ih => rw [ofPath_concat, Grammar.ofPath_concat, term, ih]

/-- The function and parameters of a definition as the phrase that is read before its sign. -/
def ofHead (f : String) (params : List String) : Phrase := .call (.name f) (params.map .name)

theorem tokens_ofHead (f : String) (params : List String) : (ofHead f params).tokens
    = .name f :: .bracket .roundOpen :: separated (params.map fun param => [.name param])
      ++ [Token.bracket .roundClose] := by
  have hparams : (params.map name).map tokens = params.map fun param => [.name param] := by
    rw [List.map_map]
    rfl
  rw [ofHead, tokens, tokensEach_eq_map, hparams]
  rfl

theorem term_ofHead (f : String) (params : List String) :
    (ofHead f params).term = .call (.var f) (params.map .var) := by
  rw [ofHead, term, termEach_eq_map, List.map_map]
  rfl

theorem height_ofHead (f : String) (params : List String) : (ofHead f params).height ≤ 2 := by
  have hparams : heightEach (params.map name) ≤ 1 := by
    induction params with
    | nil => exact Nat.zero_le _
    | cons param params ih => exact Nat.max_le.mpr ⟨Nat.le_refl _, ih⟩
  exact Nat.succ_le_succ (Nat.max_le.mpr ⟨Nat.le_refl _, hparams⟩)

theorem names_ofHead (f : String) (params : List String) :
    (ofHead f params).names = f :: params := by
  have hparams : namesEach (params.map name) = params := by
    induction params with
    | nil => rfl
    | cons param params ih => exact congrArg (param :: ·) ih
  exact congrArg (f :: ·) hparams

/-! ## Positions -/

theorem height_pos (p : Phrase) : 0 < p.height := by
  cases p <;> exact Nat.succ_pos _

/-- How deep the tightest level may have to nest in the operands of the phrase. -/
def nesting (p : Phrase) : Nat := 4 * (p.height - 1)

/-- On every level up to its own the phrase is read as its term. -/
def Rereads (g : Grammar) (p : Phrase) : Prop :=
  ∀ L : Rank, L.tightness ≤ p.rank.tightness → ∀ d, p.nesting + L.spare ≤ d →
    g.Readable (g.level d) L p.tokens p.term

section
variable {g : Grammar} (hon : g.options.AllOn) (hfinish : g.finish.token = .finish)
include hfinish

/-- What is read on its own level is read on all looser ones. -/
theorem rereads_of_rank {p : Phrase} (hp : p.Ordinary g.constants)
    (h : ∀ d, p.nesting + p.rank.spare ≤ d →
      g.Readable (g.level d) p.rank p.tokens p.term) : p.Rereads g :=
  Grammar.Readable.climb hfinish h (leads hp)

/-- A phrase between brackets or behind a sign of assignment is read one level deeper. -/
theorem Rereads.inner {p : Phrase} (h : p.Rereads g) {d : Nat} (hd : 4 * p.height ≤ d + 1) :
    Grammar.Spells (g.level d .assignment) 0 p.tokens p.term := by
  have hpos := p.height_pos
  have hnesting : p.nesting = 4 * (p.height - 1) := rfl
  cases d with
  | zero => omega
  | succ d =>
    have hspare : Rank.assignment.spare = 2 := rfl
    exact (h .assignment (Nat.zero_le _) d (by omega)).spells hfinish

/-- An operand is read in every position, in parentheses or bare. -/
theorem Rereads.bracket {p : Phrase} (h : p.Rereads g) (L : Rank) {d : Nat}
    (hd : 4 * p.height + L.spare ≤ d + 1) :
    g.Readable (g.level d) L (L.bracket p.rank p.tokens) p.term := by
  have hpos := p.height_pos
  have hnesting : p.nesting = 4 * (p.height - 1) := rfl
  unfold Rank.bracket
  split
  · have hgroup : ∀ d, 4 * p.height - 1 + Rank.access.spare ≤ d → g.Readable (g.level d) .access
        (.bracket .roundOpen :: p.tokens ++ [Token.bracket .roundClose]) p.term := by
      intro d hd
      have hspare : Rank.access.spare = 0 := rfl
      exact Grammar.readable_group ((h.inner hfinish (by omega)).encloses.fills hfinish)
    exact Grammar.Readable.climb hfinish hgroup (fun _ => leads_of_ahead _ (by simp) (by simp))
      L L.tightness_le_access d (by omega)
  · exact h L (by omega) d (by omega)

theorem Rereads.factor {p : Phrase} (h : p.Rereads g) {d : Nat} (hd : 4 * p.height ≤ d) :
    Grammar.Spells (g.level d .factor) Rank.factor.tightness
      (Rank.factor.bracket p.rank p.tokens) p.term := by
  have hpos := p.height_pos
  cases d with
  | zero => omega
  | succ d => exact (h.bracket hfinish .factor hd).spells hfinish

theorem Rereads.conditional {p : Phrase} (h : p.Rereads g) {d : Nat}
    (hd : 4 * p.height + 1 ≤ d) :
    Grammar.Spells (g.level d .conditional) Rank.conditional.tightness
      (Rank.conditional.bracket p.rank p.tokens) p.term := by
  cases d with
  | zero => omega
  | succ d => exact (h.bracket hfinish .conditional hd).spells hfinish

theorem readsEach {phrases : List Phrase} (h : ∀ p ∈ phrases, p.Rereads g) {d : Nat}
    (hd : 4 * heightEach phrases ≤ d + 1) :
    Grammar.ReadsEach (g.level d) (phrases.map tokens) (phrases.map term) := by
  rw [Grammar.ReadsEach, List.forall₂_map_left_iff, List.forall₂_map_right_iff, List.forall₂_same]
  intro p hp
  have hheight := height_le_heightEach hp
  exact ⟨((h p hp).inner hfinish (by omega)).encloses, p.opens⟩

/-! ## All phrases -/

theorem rereads_name {n : String} (hn : OrdinaryName g.constants n) : (name n).Rereads g :=
  rereads_of_rank hfinish (List.forall_mem_singleton.mpr hn) fun _ _ => Grammar.readable_name hn

theorem rereads_call {callee : Phrase} {arguments : List Phrase}
    (hp : (call callee arguments).Ordinary g.constants) (hcallee : callee.Rereads g)
    (harguments : ∀ p ∈ arguments, p.Rereads g) : (call callee arguments).Rereads g := by
  refine rereads_of_rank hfinish hp fun d hd => ?_
  have hd' : 4 * max callee.height (heightEach arguments) + 0 ≤ d := hd
  have hspare : Rank.access.spare = 0 := rfl
  rw [tokens, term, tokensEach_eq_map, termEach_eq_map]
  exact Grammar.readable_call hfinish (hcallee.bracket hfinish .access (by omega))
    (readsEach hfinish harguments (by omega))

theorem rereads_ofHead {f : String} {params : List String}
    (h : ∀ n ∈ f :: params, OrdinaryName g.constants n) : (ofHead f params).Rereads g := by
  have hordinary : (ofHead f params).Ordinary g.constants := by rwa [Ordinary, names_ofHead]
  obtain ⟨hf, hparams⟩ := List.forall_mem_cons.mp h
  refine rereads_call hfinish hordinary (rereads_name hfinish hf) fun p hp => ?_
  obtain ⟨param, hparam, rfl⟩ := List.mem_map.mp hp
  exact rereads_name hfinish (hparams param hparam)

include hon

theorem rereads_member {target : Phrase} (n : String) (hp : target.Ordinary g.constants)
    (h : target.Rereads g) : (member target n).Rereads g := by
  refine rereads_of_rank hfinish hp fun d hd => ?_
  have hd' : 4 * target.height + 0 ≤ d := hd
  exact Grammar.readable_member hon (h.bracket hfinish .access (Nat.le_succ_of_le hd')) rfl

theorem rereads_ofPath {root : String} (hroot : OrdinaryName g.constants root)
    (path : List String) : (ofPath root path).Rereads g := by
  induction path using List.reverseRecOn with
  | nil => exact rereads_name hfinish hroot
  | append_singleton path n ih =>
    rw [ofPath_concat]
    refine rereads_member hon hfinish n ?_ ih
    rw [Ordinary, names_ofPath]
    exact List.forall_mem_singleton.mpr hroot

theorem rereads_assign {root : String} {path : List String} {value : Phrase}
    (hp : (assign root path value).Ordinary g.constants) (hvalue : value.Rereads g) :
    (assign root path value).Rereads g := by
  have hroot := (List.forall_mem_cons.mp hp).1
  refine rereads_of_rank hfinish hp fun d hd => ?_
  have hd' : 4 * max (path.length + 1) value.height + 2 ≤ d := hd
  -- the target is read as an expression before its sign is seen
  have htarget := (rereads_ofPath hon hfinish hroot path).conditional hfinish (d := d)
    (by rw [height_ofPath]; omega)
  rw [rank_ofPath, tokens_ofPath, term_ofPath] at htarget
  exact Grammar.readable_assign hon htarget (Grammar.pathOf?_ofPath root path)
    (hvalue.inner hfinish (by omega))

theorem rereads_define {f : String} {params : List String} {body : Phrase}
    (hp : (define f params body).Ordinary g.constants) (hbody : body.Rereads g) :
    (define f params body).Rereads g := by
  have hhead := (List.forall_mem_append.mp hp).1
  refine rereads_of_rank hfinish hp fun d hd => ?_
  have hd' : 4 * max 2 body.height + 2 ≤ d := hd
  have hheight := height_ofHead f params
  have htarget := (rereads_ofHead hfinish hhead).conditional hfinish (d := d) (by omega)
  rw [show (ofHead f params).rank = .access from rfl, tokens_ofHead, term_ofHead] at htarget
  have htokens : (define f params body).tokens = .name f :: .bracket .roundOpen ::
      separated (params.map fun param => [.name param]) ++ [Token.bracket .roundClose]
        ++ .sign .assign :: body.tokens := by
    rw [tokens, List.append_assoc]
    rfl
  rw [htokens]
  exact Grammar.readable_define hon htarget (hbody.inner hfinish (by omega))

/-- **A phrase is read as its term** on its own level and on all looser ones. -/
theorem rereads {p : Phrase} (hp : p.Ordinary g.constants) : p.Rereads g := by
  induction p with
  | name n => exact rereads_name hfinish (hp n (.head _))
  | number x => exact rereads_of_rank hfinish hp fun _ _ => Grammar.readable_number x
  | text s => exact rereads_of_rank hfinish hp fun _ _ => Grammar.readable_string s
  | keyword k => exact rereads_of_rank hfinish hp fun _ _ => Grammar.readable_keyword k
  | signed negative operand ih =>
    refine rereads_of_rank hfinish hp fun d hd => ?_
    exact Grammar.readable_sign hon negative ((ih hp).factor hfinish hd)
  | named op operand ih =>
    refine rereads_of_rank hfinish hp fun d hd => ?_
    have hinner := (ih hp).inner hfinish (Nat.le_succ_of_le hd)
    exact Grammar.readable_named hon op (hinner.encloses.fills hfinish)
  | factorial operand ih =>
    refine rereads_of_rank hfinish hp fun d hd => ?_
    exact Grammar.readable_bang hon ((ih hp).bracket hfinish .factorial (Nat.le_succ_of_le hd))
  | power base exponent ihb ihe =>
    obtain ⟨hb, he⟩ := List.forall_mem_append.mp hp
    refine rereads_of_rank hfinish hp fun d hd => ?_
    have hd' : 4 * max base.height exponent.height + 0 ≤ d := hd
    have hbase := (ihb hb).bracket hfinish .factorial
      (show 4 * base.height + 0 ≤ d + 1 by omega)
    exact Grammar.readable_caret hon hfinish (hbase.spells hfinish)
      ((ihe he).factor hfinish (by omega))
  | binary op left right ihl ihr =>
    obtain ⟨hl, hr⟩ := List.forall_mem_append.mp hp
    refine rereads_of_rank hfinish hp fun d hd => ?_
    have hd' : 4 * max left.height right.height + op.rank.spare ≤ d := hd
    have hright := Grammar.spells_below hfinish op.rank_ne_access
      (fun d hd => (ihr hr).bracket hfinish op.rank.tighter (Nat.le_succ_of_le hd)) d (by omega)
    exact Grammar.readable_binary hon op ((ihl hl).bracket hfinish op.rank (by omega)) hright
  | isIn denied item collection ihi ihc =>
    obtain ⟨hi, hc⟩ := List.forall_mem_append.mp hp
    refine rereads_of_rank hfinish hp fun d hd => ?_
    have hd' : 4 * max item.height collection.height + 1 ≤ d := hd
    have hitem := (ihi hi).bracket hfinish .membership
      (show 4 * item.height + 1 ≤ d + 1 by omega)
    have hcollection := (ihc hc).bracket hfinish .disjunction
      (show 4 * collection.height + 1 ≤ d + 1 by omega)
    rw [tokens, List.append_assoc]
    cases denied with
    | false => exact Grammar.readable_isIn hon hitem (hcollection.spells hfinish)
    | true => exact Grammar.readable_isIn_denied hon hitem (hcollection.spells hfinish)
  | and left right ihl ihr =>
    obtain ⟨hl, hr⟩ := List.forall_mem_append.mp hp
    refine rereads_of_rank hfinish hp fun d hd => ?_
    have hd' : 4 * max left.height right.height + 1 ≤ d := hd
    have hleft := (ihl hl).bracket hfinish .conjunction
      (show 4 * left.height + 1 ≤ d + 1 by omega)
    have hright := (ihr hr).bracket hfinish .comparison
      (show 4 * right.height + 1 ≤ d + 1 by omega)
    exact Grammar.readable_and hon hleft (hright.spells hfinish)
  | or left right ihl ihr =>
    obtain ⟨hl, hr⟩ := List.forall_mem_append.mp hp
    refine rereads_of_rank hfinish hp fun d hd => ?_
    have hd' : 4 * max left.height right.height + 1 ≤ d := hd
    have hleft := (ihl hl).bracket hfinish .disjunction
      (show 4 * left.height + 1 ≤ d + 1 by omega)
    have hright := (ihr hr).bracket hfinish .conjunction
      (show 4 * right.height + 1 ≤ d + 1 by omega)
    exact Grammar.readable_or hon hleft (hright.spells hfinish)
  | choose condition yes no ihc ihy ihn =>
    obtain ⟨hcy, hn⟩ := List.forall_mem_append.mp hp
    obtain ⟨hc, hy⟩ := List.forall_mem_append.mp hcy
    refine rereads_of_rank hfinish hp fun d hd => ?_
    have hd' : 4 * max condition.height (max yes.height no.height) + 1 ≤ d := hd
    have hcondition := (ihc hc).bracket hfinish .membership
      (show 4 * condition.height + 1 ≤ d + 1 by omega)
    exact Grammar.readable_choose hon (hcondition.spells hfinish)
      ((ihy hy).conditional hfinish (by omega)) ((ihn hn).conditional hfinish (by omega))
  | assign root path value ih =>
    exact rereads_assign hon hfinish hp (ih (List.forall_mem_cons.mp hp).2)
  | define f params body ih =>
    exact rereads_define hon hfinish hp (ih (List.forall_mem_append.mp hp).2)
  | member target n ih => exact rereads_member hon hfinish n hp (ih hp)
  | index target key iht ihk =>
    obtain ⟨ht, hk⟩ := List.forall_mem_append.mp hp
    refine rereads_of_rank hfinish hp fun d hd => ?_
    have hd' : 4 * max target.height key.height + 0 ≤ d := hd
    have htarget := (iht ht).bracket hfinish .access
      (show 4 * target.height + 0 ≤ d + 1 by omega)
    exact Grammar.readable_index hon htarget ((ihk hk).inner hfinish (by omega)).encloses
  | call callee arguments ihc iha =>
    obtain ⟨hc, ha⟩ := List.forall_mem_append.mp hp
    exact rereads_call hfinish hp (ihc hc) fun p hmem =>
      iha p hmem fun n hn => ha n (mem_namesEach hmem hn)
  | array items ih =>
    refine rereads_of_rank hfinish hp fun d hd => ?_
    have hitems : ∀ p ∈ items, p.Rereads g := fun p hmem =>
      ih p hmem fun n hn => hp n (mem_namesEach hmem hn)
    rw [tokens, term, tokensEach_eq_map, termEach_eq_map]
    exact Grammar.readable_array hon hfinish (readsEach hfinish hitems (Nat.le_succ_of_le hd))

/-- The reader of whole texts takes all tokens of a phrase and answers its term. -/
theorem whole_tokens {p : Phrase} (hp : p.Ordinary g.constants)
    (hdepth : 4 * p.height ≤ g.options.maxDepth) {placed : List PlacedToken}
    (hplaced : placed.map (·.token) = p.tokens) :
    g.whole (placed.map .token) = .ok (p.term, []) := by
  have hinner := (p.rereads hon hfinish hp).inner hfinish (Nat.le_succ_of_le hdepth)
  exact Grammar.whole_of_encloses hfinish hinner.encloses hplaced

end
end Phrase

/-- **The parser inverts the printer.**  Let everything be on and the limit of nesting be high
enough.  Then the tokens of a phrase, wherever they stand, are read as the term of the phrase, and
every text of which they are the pieces compiles to the code of that term. -/
theorem compile_tokens {c : Compiler} (hon : c.options.AllOn) {p : Phrase}
    (hp : p.Ordinary c.constants) (hdepth : 4 * p.height ≤ c.options.maxDepth)
    {placed : List PlacedToken} (hplaced : placed.map (·.token) = p.tokens) :
    (∀ finish : PlacedToken, finish.token = .finish →
      (Grammar.mk c.options c.constants finish).whole (placed.map .token) = .ok (p.term, [])) ∧
    ∀ source : String, lexemes source.toList = placed.map .token →
      c.compile source = .ok ⟨p.term.code, c.options, c.functions, some source⟩ := by
  -- the token behind a text stands where the text ends, but where does not matter
  have hwhole : ∀ finish : PlacedToken, finish.token = .finish →
      (Grammar.mk c.options c.constants finish).whole (placed.map .token) = .ok (p.term, []) :=
    fun _ hfinish => p.whole_tokens hon hfinish hp hdepth hplaced
  refine ⟨hwhole, fun source hsource => ?_⟩
  have hrun := hwhole (finishOf source.toList) rfl
  simp only [Compiler.compile, Term.parse, StateT.run, hsource, hrun]
  rfl

theorem compile_tokens_nested :
    let p : Phrase := .assign "y" ["m"] (.binary .multiply (.binary .add (.name "a") (.name "b"))
      (.power (.name "c") (.signed true (.name "d"))))
    let c : Compiler := { constants := [] }
    c.options.AllOn ∧ p.Ordinary c.constants ∧ 4 * p.height ≤ c.options.maxDepth ∧
      c.compile "y.m=(a+b)*c^-d"
        = .ok ⟨p.term.code, c.options, c.functions, some "y.m=(a+b)*c^-d"⟩ := by
  intro p c
  have hon : c.options.AllOn := ⟨rfl, fun _ => rfl⟩
  have hp : p.Ordinary c.constants := by
    intro n hn
    have hn' : n = "y" ∨ n = "a" ∨ n = "b" ∨ n = "c" ∨ n = "d" := by
      simpa [p, Phrase.names] using hn
    rcases hn' with rfl | rfl | rfl | rfl | rfl <;>
      exact ⟨by decide, by decide, by decide, rfl⟩
  have hdepth : 4 * p.height ≤ c.options.maxDepth := by decide
  -- every token is one byte long
  let placed := p.tokens.zipIdx.map fun pair => PlacedToken.mk pair.1 pair.2 (pair.2 + 1)
  have htokens : placed.map (·.token) = p.tokens := rfl
  have hlexemes : lexemes "y.m=(a+b)*c^-d".toList = placed.map .token := rfl
  exact ⟨hon, hp, hdepth, (compile_tokens hon hp hdepth htokens).2 _ hlexemes⟩

end Formula
