import Formula.Proofs.Phrase
import Formula.Proofs.Reading

/-! # Levels of the grammar as readers

Each level decides by the next token when to stop (`Stops`).  `Readable` says how a level reads an
operand, whatever stands behind it that does not belong to a tighter level; where operators
associate to the left, the operand is what the rounds of the level go on from.  A level reads
whatever a tighter level reads (`Readable.climb`), also where all expressions end
(`Encloses.climb`).
-/
namespace Formula

/-! ## Tokens that continue an expression -/

/-- The level on which a sign continues the expression before it, if it does. -/
def Sign.joins? : Sign → Option Rank
  | .assign => some .assignment
  | .question => some .conditional
  | .equal | .notEqual | .less | .lessEqual | .greater | .greaterEqual => some .comparison
  | .bars => some .concatenation
  | .plus | .minus => some .sum
  | .times | .slash | .percent => some .product
  | .caret => some .power
  | .bang => some .factorial
  | .dot => some .access
  | .colon => none

/-- The level on which a token continues the expression before it, if it does. -/
def Token.joins? : Token → Option Rank
  | .sign s => s.joins?
  | .name n =>
    if n = "in" ∨ n = "not" then some .membership
    else if n = "or" then some .disjunction
    else if n = "and" then some .conjunction
    else none
  | .bracket .roundOpen | .bracket .squareOpen => some .access
  | _ => none

/-- The token continues no expression on a level from `n` on. -/
def Stops (n : Nat) (t : Token) : Prop := ∀ r ∈ t.joins?, r.tightness < n

instance (n : Nat) (t : Token) : Decidable (Stops n t) :=
  inferInstanceAs (Decidable (∀ r ∈ t.joins?, r.tightness < n))

theorem Stops.mono {n m : Nat} {t : Token} (h : Stops n t) (hnm : n ≤ m) : Stops m t :=
  fun r hr => Nat.lt_of_lt_of_le (h r hr) hnm

theorem Stops.ne {n : Nat} {t k : Token} (h : Stops n t) (hk : ¬ Stops n k) : t ≠ k := by
  rintro rfl
  exact hk h

theorem stops_cons {n : Nat} {k : Token} (h : Stops n k) (ts : List Token) :
    Stops n (ahead (k :: ts)) := h

theorem joins?_ne_factor (t : Token) : t.joins? ≠ some .factor := by
  cases t with
  | sign s => cases s <;> simp [Token.joins?, Sign.joins?]
  | name n =>
    rw [Token.joins?]
    split
    · simp
    · split
      · simp
      · split <;> simp
  | bracket b => cases b <;> simp [Token.joins?]
  | _ => simp [Token.joins?]

/-- No token continues a factor but those that continue a power. -/
theorem Stops.factor {t : Token} (h : Stops Rank.power.tightness t) :
    Stops Rank.factor.tightness t := by
  intro r hr
  have hlt := h r hr
  have hne : r ≠ .factor := by
    rintro rfl
    exact joins?_ne_factor t hr
  cases r <;> first | exact absurd rfl hne | decide | exact absurd hlt (by decide)

/-- The operators of a level, by their signs. -/
def signOp? : Rank → Sign → Option BinaryOp
  | .comparison => Grammar.comparisonOp?
  | .concatenation => Grammar.concatenationOp?
  | .sum => Grammar.sumOp?
  | .product => Grammar.productOp?
  | _ => fun _ => none

theorem signOp?_sign (o : SignOp) : signOp? o.rank o.sign = some o.op := by cases o <;> rfl

theorem SignOp.stops_sign (o : SignOp) : Stops (o.rank.tightness + 1) (.sign o.sign) := by
  cases o <;> decide

theorem joins?_of_signOp? {L : Rank} {s : Sign} {op : BinaryOp} (h : signOp? L s = some op) :
    s.joins? = some L := by
  cases L <;> cases s <;> first | rfl | cases h

/-- Whether the token ends whatever expression stands before it. -/
def Token.closes : Token → Bool
  | .bracket .roundClose | .bracket .squareClose | .bracket .curlyClose | .comma | .semicolon
  | .finish => true
  | _ => false

theorem stops_of_closes {t : Token} (h : t.closes = true) : Stops 0 t := by
  cases t with
  | bracket b =>
    cases b with
    | roundClose | squareClose | curlyClose => decide
    | _ => cases h
  | finish | comma | semicolon => decide
  | _ => cases h

/-! ## First tokens -/

/-- Whether an expression can begin with the token. -/
def Token.opens : Token → Bool
  | .name _ | .number _ | .string _ | .keyword _ | .sign .minus | .sign .plus
  | .bracket .roundOpen | .bracket .squareOpen | .bracket .curlyOpen => true
  | _ => false

theorem ahead_append {ts : List Token} (h : (ahead ts).opens = true) (us : List Token) :
    ahead (ts ++ us) = ahead ts := by
  cases ts with
  | nil => cases h
  | cons t ts => rfl

/-- The tokens begin with no sign, and with the name of an operator only if it is called. -/
structure Leads (ts : List Token) : Prop where
  nonempty : ts ≠ []
  sign : ∀ s, ahead ts ≠ .sign s
  name : ∀ n, ahead ts = .name n →
    NamedOp.ofName? n = none ∨ ahead ts.tail = .bracket .roundOpen

theorem Leads.append {ts : List Token} (h : Leads ts) (us : List Token) : Leads (ts ++ us) := by
  obtain ⟨hnonempty, hsign, hname⟩ := h
  cases ts with
  | nil => exact absurd rfl hnonempty
  | cons t ts =>
    refine ⟨List.cons_ne_nil _ _, hsign, fun n hn => (hname n hn).imp id fun hopen => ?_⟩
    cases ts with
    | nil => cases hopen
    | cons second ts => exact hopen

theorem leads_of_ahead {k : Token} (ts : List Token) (hsign : ∀ s, k ≠ .sign s)
    (hname : ∀ n, k ≠ .name n) : Leads (k :: ts) :=
  ⟨List.cons_ne_nil _ _, hsign, fun n hn => absurd hn (hname n)⟩

theorem leads_name {n : String} (hn : NamedOp.ofName? n = none) (ts : List Token) :
    Leads (.name n :: ts) := by
  refine ⟨List.cons_ne_nil _ _, by simp, ?_⟩
  rintro _ ⟨⟩
  exact .inl hn

/-- What begins with the tokens begins with no operator before its operand: with no sign, and if
with the name of an operator, then no operand follows, or all of it in parentheses. -/
structure Unapplied (ts : List Token) : Prop where
  sign : ∀ s, ahead ts ≠ .sign s
  name : ∀ n, ahead ts = .name n →
    NamedOp.ofName? n = none ∨ Grammar.endsName (ahead ts.tail) = true

theorem Leads.unapplied {ts : List Token} (h : Leads ts) : Unapplied ts :=
  ⟨h.sign, fun n hn => (h.name n hn).imp id fun hopen => by rw [hopen]; rfl⟩

theorem endsName_of_closes {t : Token} (h : t.closes = true) : Grammar.endsName t = true := by
  cases t with
  | bracket b =>
    cases b with
    | roundClose | squareClose | curlyClose => rfl
    | _ => cases h
  | finish | comma | semicolon => rfl
  | _ => cases h

/-! ## The configuration -/

/-- Everything is allowed. -/
structure Options.AllOn (options : Options) : Prop where
  access : options.allowMemberAccess = true
  operators : ∀ switch, options.isOn switch = true

namespace Options.AllOn
variable {options : Options} (h : options.AllOn)
include h

theorem allows (symbol : String) (fixity : Fixity) : options.allows symbol fixity = true := by
  unfold Options.allows
  split
  · exact h.operators _
  · rfl

theorem namedOp?_eq (n : String) : options.namedOp? n = NamedOp.ofName? n :=
  if_pos (h.allows n .before)

end Options.AllOn

/-- Only the names of operators stand for operators, whatever is allowed. -/
theorem Options.ofName?_of_namedOp? {options : Options} {n : String} {op : NamedOp}
    (h : options.namedOp? n = some op) : NamedOp.ofName? n = some op := by
  unfold namedOp? at h
  split at h
  · exact h
  · cases h

namespace Grammar

/-! ## Levels -/

section
variable (g : Grammar) (sub : Level → Reader Term)

/-- The reader of a level. -/
def reader : Rank → Reader Term
  | .assignment => g.assignment sub
  | .conditional => g.conditional sub
  | .membership => g.membership sub
  | .disjunction => g.disjunction sub
  | .conjunction => g.wordChain "and" .and (g.comparison sub)
  | .comparison => g.comparison sub
  | .concatenation => g.chain concatenationOp? (g.chain sumOp? (g.chain productOp? (sub .factor)))
  | .sum => g.chain sumOp? (g.chain productOp? (sub .factor))
  | .product => g.chain productOp? (sub .factor)
  | .factor => g.factor sub
  | .power => g.power sub
  | .factorial => g.factorial sub
  | .access => g.operand sub

/-- What reads the operands of a level.  Those of assignments and of products are one level of
nesting deeper. -/
def below : Rank → Reader Term
  | .assignment => sub .conditional
  | .product => sub .factor
  | L => g.reader sub L.tighter

/-- The rounds of a level whose operators associate to the left. -/
def link? : Rank → Option (Term → Reader (Option Term))
  | .membership => some (g.membershipLink sub)
  | .disjunction => some (g.wordLink "or" .or (g.below sub .disjunction))
  | .conjunction => some (g.wordLink "and" .and (g.below sub .conjunction))
  | .comparison => some (g.chainLink (signOp? .comparison) (g.below sub .comparison))
  | .concatenation => some (g.chainLink (signOp? .concatenation) (g.below sub .concatenation))
  | .sum => some (g.chainLink (signOp? .sum) (g.below sub .sum))
  | .product => some (g.chainLink (signOp? .product) (g.below sub .product))
  | .factorial => some g.bang
  | .access => some (g.access sub)
  | _ => none

/-- On tokens that nothing of a level from `n` on continues, the reader takes `ts` as `t`. -/
def Spells (r : Reader Term) (n : Nat) (ts : List Token) (t : Term) : Prop :=
  ∀ rest, Stops n (ahead rest) → Reads r (ts ++ rest) t rest

/-- On tokens before one that ends all expressions, the reader takes `ts` as `t`. -/
def Encloses (r : Reader Term) (ts : List Token) (t : Term) : Prop :=
  ∀ rest, (ahead rest).closes = true → Reads r (ts ++ rest) t rest

/-- The level reads the tokens as the term.  Where its operators associate to the left, it goes on
from there with its rounds. -/
def Readable (L : Rank) (ts : List Token) (t : Term) : Prop :=
  match g.link? sub L with
  | some link => ∀ rest b us, Stops (L.tightness + 1) (ahead rest) → Repeats link t rest b us →
      Reads (g.reader sub L) (ts ++ rest) b us
  | none => Spells (g.reader sub L) L.tightness ts t

end

section
variable {g : Grammar} {sub : Level → Reader Term} {L : Rank} {ts : List Token} {t : Term}

theorem Spells.encloses {r : Reader Term} {n : Nat} (h : Spells r n ts t) : Encloses r ts t :=
  fun rest hrest => h rest ((stops_of_closes hrest).mono (Nat.zero_le n))

theorem reader_eq {link : Term → Reader (Option Term)} (h : g.link? sub L = some link)
    (hL : L ≠ .access) : g.reader sub L = (g.below sub L >>= whileSome link) := by
  cases L <;> cases h <;> first | rfl | exact absurd rfl hL

theorem readable_of_link {link : Term → Reader (Option Term)} (hlink : g.link? sub L = some link)
    (hL : L ≠ .access) (h : Spells (g.below sub L) (L.tightness + 1) ts t) :
    g.Readable sub L ts t := by
  rw [Readable, hlink]
  intro rest b us hrest hrepeats
  rw [reader_eq hlink hL]
  exact (h rest hrest).bind hrepeats.whileSome

variable (hfinish : g.finish.token = .finish)
include hfinish

theorem chainLink_stops {operand : Reader Term} {rest : List Token}
    (h : Stops L.tightness (ahead rest)) :
    Reads (g.chainLink (signOp? L) operand t) rest none rest := by
  refine reads_peek hfinish fun place hplace => ?_
  split
  · rename_i s hs
    split
    · rename_i op hop
      rw [← hplace, hs] at h
      exact absurd (h L (joins?_of_signOp? hop)) (Nat.lt_irrefl _)
    · exact reads_pure none rest
  · exact reads_pure none rest

theorem wordLink_stops {word : String} {join : Term → Term → Term} {operand : Reader Term}
    {rest : List Token} (h : ahead rest ≠ .name word) :
    Reads (g.wordLink word join operand t) rest none rest := by
  refine reads_peek hfinish fun place hplace => ?_
  rw [if_neg (hplace ▸ h)]
  exact reads_pure none rest

theorem membershipLink_stops {rest : List Token}
    (h : Stops Rank.membership.tightness (ahead rest)) :
    Reads (g.membershipLink sub t) rest none rest := by
  refine reads_peek hfinish fun place hplace => ?_
  have hword : g.membershipWord? place = pure none := by
    unfold membershipWord?
    rw [if_neg (hplace ▸ h.ne (by decide)), if_neg (hplace ▸ h.ne (by decide))]
  rw [hword]
  exact reads_pure none rest

theorem bang_stops {rest : List Token} (h : Stops Rank.factorial.tightness (ahead rest)) :
    Reads (g.bang t) rest none rest := by
  refine reads_peek hfinish fun place hplace => ?_
  rw [if_neg (hplace ▸ h.ne (by decide))]
  exact reads_pure none rest

theorem access_stops {rest : List Token} (h : Stops Rank.access.tightness (ahead rest)) :
    Reads (g.access sub t) rest none rest := by
  refine reads_peek hfinish fun place hplace => ?_
  have hne : ∀ k, ¬ Stops Rank.access.tightness k → place.token ≠ k :=
    fun k hk => hplace ▸ h.ne hk
  split
  · exact absurd ‹_› (hne (.sign .dot) (by decide))
  · exact absurd ‹_› (hne (.bracket .squareOpen) (by decide))
  · exact absurd ‹_› (hne (.bracket .roundOpen) (by decide))
  · exact reads_pure none rest

/-- The rounds of a level end where nothing of the level follows. -/
theorem link_stops {link : Term → Reader (Option Term)} (hlink : g.link? sub L = some link)
    {rest : List Token} (h : Stops L.tightness (ahead rest)) : Reads (link t) rest none rest := by
  cases L <;> cases hlink
  case membership => exact membershipLink_stops hfinish h
  case disjunction => exact wordLink_stops hfinish (h.ne (by decide))
  case conjunction => exact wordLink_stops hfinish (h.ne (by decide))
  case factorial => exact bang_stops hfinish h
  case access => exact access_stops hfinish h
  all_goals exact chainLink_stops hfinish h

theorem Readable.spells (h : g.Readable sub L ts t) : Spells (g.reader sub L) L.tightness ts t := by
  unfold Readable at h
  split at h
  · rename_i link hlink
    intro rest hrest
    exact h rest t rest (hrest.mono (Nat.le_succ _)) (.done (link_stops hfinish hlink hrest))
  · exact h

theorem readable_power (h : Spells (g.factorial sub) Rank.factorial.tightness ts t) :
    g.Readable sub .power ts t := by
  intro rest hrest
  refine (h rest (hrest.mono (by decide))).bind (Repeats.done (reads_peek hfinish ?_)).whileSome
  intro place hplace
  rw [if_neg (hplace ▸ hrest.ne (by decide))]
  exact reads_pure none rest

/-- A factor that begins with no operator is a power. -/
theorem reads_factor (hts : Unapplied ts) {us : List Token}
    (h : Reads (g.power sub) ts t us) : Reads (g.factor sub) ts t us := by
  obtain ⟨hsign, hname⟩ := hts
  refine reads_peek hfinish fun place hplace => ?_
  split
  · exact absurd (hplace.symm.trans ‹_›) (hsign _)
  · exact absurd (hplace.symm.trans ‹_›) (hsign _)
  · rename_i n hn
    split
    · rename_i op hop
      refine reads_peekSecond hfinish fun second hsecond => ?_
      have hoperator := Options.ofName?_of_namedOp? hop
      have hends := (hname n (hplace.symm.trans hn)).resolve_left (by simp [hoperator])
      rw [hsecond, if_pos hends]
      exact h
    · exact h
  · exact h

theorem readable_factor (hleads : Leads ts)
    (h : Spells (g.power sub) Rank.power.tightness ts t) : g.Readable sub .factor ts t :=
  fun rest hrest =>
    reads_factor hfinish (hleads.append rest).unapplied (h rest (hrest.mono (by decide)))

theorem readable_conditional (h : Spells (g.membership sub) Rank.membership.tightness ts t) :
    g.Readable sub .conditional ts t := by
  intro rest hrest
  refine (h rest (hrest.mono (by decide))).bind (reads_peek hfinish fun place hplace => ?_)
  rw [if_neg (hplace ▸ hrest.ne (by decide))]
  exact reads_pure t rest

theorem readable_assignment (h : Spells (sub .conditional) Rank.conditional.tightness ts t) :
    g.Readable sub .assignment ts t := by
  intro rest hrest
  refine (h rest (hrest.mono (by decide))).bind (reads_peek hfinish fun place hplace => ?_)
  rw [if_neg (hplace ▸ hrest.ne (by decide))]
  exact reads_pure t rest

/-- A level reads what the reader of its operands reads. -/
theorem readable_of_below (hL : L ≠ .access)
    (hleads : L = .factor → Leads ts) (h : Spells (g.below sub L) (L.tightness + 1) ts t) :
    g.Readable sub L ts t := by
  cases L with
  | assignment => exact readable_assignment hfinish h
  | conditional => exact readable_conditional hfinish h
  | factor => exact readable_factor hfinish (hleads rfl) h
  | power => exact readable_power hfinish h
  | access => exact absurd rfl hL
  | _ => exact readable_of_link rfl hL h

/-- Where all expressions end, a level reads what the reader of its operands reads. -/
theorem encloses_of_below (hL : L ≠ .access)
    (hleads : L = .factor → ∀ rest, (ahead rest).closes = true → Unapplied (ts ++ rest))
    (h : Encloses (g.below sub L) ts t) : Encloses (g.reader sub L) ts t := by
  intro rest hrest
  have hstops := stops_of_closes hrest
  cases hlink : g.link? sub L with
  | some link =>
    rw [reader_eq hlink hL]
    have hdone := link_stops (t := t) hfinish hlink (hstops.mono (Nat.zero_le _))
    exact (h rest hrest).bind (Repeats.done hdone).whileSome
  | none =>
    cases L with
    | assignment | conditional =>
      refine (h rest hrest).bind (reads_peek hfinish fun place hplace => ?_)
      rw [if_neg (hplace ▸ hstops.ne (by decide))]
      exact reads_pure _ _
    | power =>
      refine (h rest hrest).bind (Repeats.done (reads_peek hfinish ?_)).whileSome
      intro place hplace
      rw [if_neg (hplace ▸ hstops.ne (by decide))]
      exact reads_pure _ _
    | factor => exact reads_factor hfinish (hleads rfl rest hrest) (h rest hrest)
    | _ => cases hlink

end
end Grammar

/-! ## Climbing to looser levels -/

/-- How much deeper than the tightest operands what a level reads may be nested. -/
def Rank.spare : Rank → Nat
  | .assignment => 2
  | .factor | .power | .factorial | .access => 0
  | _ => 1

/-- What holds of a level, and of every looser one as soon as it holds of the next, holds from the
level on. -/
theorem Rank.climb {P : Rank → Prop} {own : Rank} (h : P own)
    (hstep : ∀ L, L ≠ .access → L.tightness < own.tightness → P L.tighter → P L) :
    ∀ L : Rank, L.tightness ≤ own.tightness → P L := by
  intro L hL
  -- from the level itself towards looser ones, one at a time
  obtain ⟨steps, hsteps⟩ := Nat.exists_eq_add_of_le hL
  induction steps generalizing L with
  | zero =>
    obtain rfl := Rank.eq_of_tightness_eq hsteps
    exact h
  | succ steps ih =>
    have haccess : L ≠ .access := by
      rintro rfl
      have := own.tightness_le_access
      omega
    have hnext := Rank.tightness_tighter haccess
    exact hstep L haccess (by omega) (ih L.tighter (by omega) (by omega))

namespace Grammar
variable {g : Grammar} {ts : List Token} {t : Term}

/-- What holds of the reader of the next level at every depth from some on holds of the reader of
the operands. -/
theorem below_of_tighter {P : Reader Term → Prop} {L : Rank} (hL : L ≠ .access) {n : Nat}
    (h : ∀ d, n + L.tighter.spare ≤ d → P (g.reader (g.level d) L.tighter)) :
    ∀ d, n + L.spare ≤ d → P (g.below (g.level d) L) := by
  intro d hd
  cases L with
  | assignment | product =>
    cases d with
    | zero => cases hd
    | succ d => exact h d (Nat.le_of_succ_le_succ hd)
  | access => exact absurd rfl hL
  | _ => exact h d hd

theorem spells_below (hfinish : g.finish.token = .finish) {L : Rank} (hL : L ≠ .access) {n : Nat}
    (h : ∀ d, n + L.tighter.spare ≤ d → g.Readable (g.level d) L.tighter ts t) :
    ∀ d, n + L.spare ≤ d → Spells (g.below (g.level d) L) (L.tightness + 1) ts t := by
  rw [← Rank.tightness_tighter hL]
  exact below_of_tighter (P := fun r => Spells r L.tighter.tightness ts t) hL fun d hd =>
    (h d hd).spells hfinish

section
variable (hfinish : g.finish.token = .finish) {own : Rank} {n : Nat}
include hfinish

/-- **A level reads what a tighter level reads.** -/
theorem Readable.climb (h : ∀ d, n + own.spare ≤ d → g.Readable (g.level d) own ts t)
    (hleads : Rank.factor.tightness < own.tightness → Leads ts) :
    ∀ L : Rank, L.tightness ≤ own.tightness → ∀ d, n + L.spare ≤ d →
      g.Readable (g.level d) L ts t := by
  refine Rank.climb h fun L haccess hlt htighter d hd => ?_
  refine readable_of_below hfinish haccess ?_ (spells_below hfinish haccess htighter d hd)
  rintro rfl
  exact hleads hlt

/-- Where all expressions end, a level reads what a tighter level reads. -/
theorem Encloses.climb
    (h : ∀ d, n + own.spare ≤ d → Encloses (g.reader (g.level d) own) ts t)
    (hleads : Rank.factor.tightness < own.tightness →
      ∀ rest, (ahead rest).closes = true → Unapplied (ts ++ rest)) :
    ∀ L : Rank, L.tightness ≤ own.tightness → ∀ d, n + L.spare ≤ d →
      Encloses (g.reader (g.level d) L) ts t := by
  refine Rank.climb h fun L haccess hlt htighter d hd => ?_
  refine encloses_of_below hfinish haccess ?_
    (below_of_tighter (P := fun r => Encloses r ts t) haccess htighter d hd)
  rintro rfl
  exact hleads hlt

end

/-- From depth `n` on every level reads the tokens as the term, where all expressions end. -/
def Last (g : Grammar) (n : Nat) (ts : List Token) (t : Term) : Prop :=
  ∀ (L : Rank) (d : Nat), n + L.spare ≤ d → Encloses (g.reader (g.level d) L) ts t

namespace Last
variable {n d : Nat} (h : g.Last n ts t)
include h

theorem below {L : Rank} (hL : L ≠ .access) (hd : n + L.spare ≤ d) :
    Encloses (g.below (g.level d) L) ts t :=
  below_of_tighter (P := fun r => Encloses r ts t) hL (h L.tighter) d hd

theorem assignment (hd : n + 3 ≤ d) : Encloses (g.level d .assignment) ts t := by
  cases d with
  | zero => cases hd
  | succ d => exact h .assignment d (Nat.le_of_succ_le_succ hd)

theorem factor (hd : n + 1 ≤ d) : Encloses (g.level d .factor) ts t := by
  cases d with
  | zero => cases hd
  | succ d => exact h .factor d (Nat.le_of_succ_le_succ hd)

end Last
end Grammar
end Formula
