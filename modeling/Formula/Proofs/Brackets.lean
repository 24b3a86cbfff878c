import Formula.Proofs.Joining

/-! # Semicolons outside of brackets

A semicolon ends a statement of the whole text if no bracket is open before it.  The reader of an
expression closes all brackets that it opens, and takes semicolons only inside of round ones
(`crosses_level`).  So a text that can be read is a single statement exactly if none of its
semicolons stands outside of brackets.

`Crosses d m d'` says this of a reader that begins where `d` brackets are open and ends where `d'`
are: whether a semicolon stands outside is then a question about what the reader leaves.
-/
namespace Formula

/-- How many brackets are open behind a token, of `depth` that are open before it. -/
def Token.openBehind (depth : Nat) : Token → Nat
  | .bracket .roundOpen | .bracket .squareOpen | .bracket .curlyOpen => depth + 1
  | .bracket _ => depth - 1
  | _ => depth

/-- A semicolon among the pieces stands outside of all brackets, of which `depth` are open before
the pieces. -/
def OuterSemicolon : Nat → List Lexeme → Prop
  | _, [] => False
  | depth, .rejected _ _ _ :: rest => OuterSemicolon depth rest
  | depth, .token t :: rest =>
    depth = 0 ∧ t.token = .semicolon ∨ OuterSemicolon (t.token.openBehind depth) rest

/-- A semicolon of the source text stands outside of all brackets. -/
def HasOuterSemicolon (source : String) : Prop := OuterSemicolon 0 (lexemes source.toList)

namespace Grammar

/-- Between `s`, where `d` brackets are open, and `r`, where `d'` are open, no semicolon stands
outside. -/
structure Crossing (d : Nat) (s : List Lexeme) (d' : Nat) (r : List Lexeme) : Prop where
  outer : OuterSemicolon d s ↔ OuterSemicolon d' r
  length_le : r.length ≤ s.length

/-- On the pieces `s`, before which `d` brackets are open, the reader takes no semicolon outside of
them and stops where `d'` are open. -/
def Crosses (d : Nat) {α : Type} (m : Reader α) (d' : Nat) (s : List Lexeme) : Prop :=
  ∀ a r, m s = .ok (a, r) → Crossing d s d' r

/-- Neither a bracket nor a semicolon. -/
def IsNeutral (k : Token) : Prop := k ≠ .semicolon ∧ ∀ b, k ≠ .bracket b

theorem IsNeutral.openBehind {k : Token} (h : IsNeutral k) (d : Nat) : k.openBehind d = d := by
  cases k with
  | bracket b => exact absurd rfl (h.2 b)
  | _ => rfl

section
variable {α β : Type} {d d' d'' : Nat} {s r q : List Lexeme} {g : Grammar}

/-! ## Laws of readers -/

theorem Crossing.refl (d : Nat) (s : List Lexeme) : Crossing d s d s := ⟨.rfl, Nat.le_refl _⟩

theorem Crossing.trans (h : Crossing d s d' r) (h' : Crossing d' r d'' q) : Crossing d s d'' q :=
  ⟨h.outer.trans h'.outer, Nat.le_trans h'.length_le h.length_le⟩

theorem Crosses.pure (a : α) : Crosses d (pure a : Reader α) d s := by
  intro b r hrun
  cases hrun
  exact .refl d s

theorem Refuses.crosses {m : Reader α} (h : Refuses m s) : Crosses d m d' s :=
  fun a r hrun => absurd hrun (h (a, r))

theorem Crosses.throw (failure : Failure) : Crosses d (throw failure : Reader α) d' s := nofun

theorem Crosses.fail (place : PlacedToken) (fault : ParseFault) :
    Crosses d (fail place fault : Reader α) d' s := nofun

theorem Crosses.bind {m : Reader α} {f : α → Reader β} (hm : Crosses d m d' s)
    (hf : ∀ a r, r.length ≤ s.length → Crosses d' (f a) d'' r) : Crosses d (m >>= f) d'' s := by
  intro b r hrun
  obtain ⟨a, q, ha, hb⟩ := ok_of_bind hrun
  have hcrossing := hm a q ha
  exact hcrossing.trans (hf a q hcrossing.length_le b r hb)

theorem Crosses.map {m : Reader α} (hm : Crosses d m d' s) (f : α → β) :
    Crosses d (f <$> m) d' s := by
  rw [map_eq_pure_bind]
  exact hm.bind fun _ _ _ => .pure _

theorem Crosses.iterate {step : α → Reader (Option α)} (hstep : ∀ a s, Crosses d (step a) d s)
    (rounds : Nat) (a : α) (s : List Lexeme) : Crosses d (iterate step rounds a) d s := by
  induction rounds generalizing a s with
  | zero => exact .pure a
  | succ rounds ih =>
    refine (hstep a s).bind fun next r _ => ?_
    cases next with
    | none => exact .pure a
    | some b => exact ih b r

/-- What every round of a repetition crosses the repetition crosses. -/
theorem Crosses.whileSome {step : α → Reader (Option α)} (hstep : ∀ a s, Crosses d (step a) d s)
    (a : α) (s : List Lexeme) : Crosses d (whileSome step a) d s :=
  iterate hstep (s.length + 1) a s

/-! ## Single tokens -/

theorem Crosses.peek {f : PlacedToken → Reader α}
    (hf : ∀ t, g.peek s = .ok (t, s) → Crosses d (f t) d' s) : Crosses d (g.peek >>= f) d' s := by
  intro a r hrun
  obtain ⟨t, q, ht, ha⟩ := ok_of_bind hrun
  obtain rfl := peek_eq ht
  exact hf t ht a r ha

theorem peekSecond_eq {t : PlacedToken} (h : g.peekSecond s = .ok (t, r)) : r = s := by
  cases s with
  | nil => cases h; rfl
  | cons l rest =>
    rw [Pairing.peekSecond_cons] at h
    cases hpeek : g.peek rest with
    | error failure => rw [hpeek] at h; cases h
    | ok answer => rw [hpeek] at h; cases h; rfl

/-- The second token is the next one behind the first. -/
theorem peek_tail {t : PlacedToken} (h : g.peekSecond s = .ok (t, s)) :
    g.peek s.tail = .ok (t, s.tail) := by
  cases s with
  | nil => exact h
  | cons l rest =>
    rw [Pairing.peekSecond_cons] at h
    cases hpeek : g.peek rest with
    | error failure => rw [hpeek] at h; cases h
    | ok answer =>
      obtain ⟨u, q⟩ := answer
      obtain rfl := peek_eq hpeek
      rw [hpeek] at h
      cases h
      exact hpeek

theorem advance_eq {t u : PlacedToken} (ht : g.peek s = .ok (t, s))
    (h : g.advance s = .ok (u, r)) : r = s.tail := by
  rw [Grammar.advance, bind_of_ok ht] at h
  cases h
  rfl

theorem takeOperator_eq {t : PlacedToken} (ht : g.peek s = .ok (t, s)) {symbol : String}
    {fixity : Fixity} {answer : Unit} (h : g.takeOperator t symbol fixity s = .ok (answer, r)) :
    r = s.tail := by
  unfold Grammar.takeOperator at h
  split at h
  · obtain ⟨u, q, hadvance, hpure⟩ := ok_of_bind h
    cases hpure
    exact advance_eq ht hadvance
  · cases h

theorem Crosses.peekSecond {f : PlacedToken → Reader α}
    (hf : ∀ t, g.peekSecond s = .ok (t, s) → Crosses d (f t) d' s) :
    Crosses d (g.peekSecond >>= f) d' s := by
  intro a r hrun
  obtain ⟨t, q, ht, ha⟩ := ok_of_bind hrun
  obtain rfl := peekSecond_eq ht
  exact hf t ht a r ha

/-- A token that is no semicolon outside of brackets is crossed. -/
theorem Crossing.token {t : PlacedToken} (h : d ≠ 0 ∨ t.token ≠ .semicolon) :
    Crossing d (.token t :: s) (t.token.openBehind d) s :=
  ⟨or_iff_right fun ⟨hd, ht⟩ => h.elim (· hd) (· ht), Nat.le_succ _⟩

/-- Where nothing is left, a reader that takes a token takes none. -/
theorem Crossing.nil (h : Crossing d' [] d'' r) : Crossing d [] d'' r :=
  ⟨h.outer, h.length_le⟩

/-- Takes the next token, where a semicolon or the end makes the reader fail. -/
theorem Crosses.take (hfinish : g.finish.token = .finish) {f : PlacedToken → Reader α}
    (hf : ∀ t r, s = .token t :: r → Crosses (t.token.openBehind d) (f t) d' r)
    (hrefuses : ∀ t r, t.token = .semicolon ∨ t.token = .finish → Refuses (f t) r) :
    Crosses d (g.advance >>= f) d' s := by
  intro a r hrun
  cases s with
  | nil => exact absurd hrun (hrefuses g.finish [] (.inr hfinish) (a, r))
  | cons l rest =>
    cases l with
    | rejected => cases hrun
    | token t =>
      by_cases ht : t.token = .semicolon
      · exact absurd hrun (hrefuses t rest (.inl ht) (a, r))
      · exact (Crossing.token (.inr ht)).trans (hf t rest rfl a r hrun)

/-- Takes a token that has been looked at. -/
theorem Crosses.takeSeen {t : PlacedToken} (ht : g.peek s = .ok (t, s))
    (h : d ≠ 0 ∨ t.token ≠ .semicolon) {f : PlacedToken → Reader α}
    (hf : ∀ r, r.length ≤ s.length → Crosses (t.token.openBehind d) (f t) d' r) :
    Crosses d (g.advance >>= f) d' s := by
  intro a r hrun
  cases s with
  | nil =>
    cases ht
    exact (hf [] (Nat.le_refl _) a r hrun).nil
  | cons l rest =>
    cases l with
    | rejected => cases ht
    | token =>
      cases ht
      exact (Crossing.token h).trans (hf rest (Nat.le_succ _) a r hrun)

/-- Takes a token that has been looked at and is neither a bracket nor a semicolon. -/
theorem Crosses.takeNeutral {t : PlacedToken} (ht : g.peek s = .ok (t, s))
    (hneutral : IsNeutral t.token) {f : PlacedToken → Reader α}
    (hf : ∀ r, Crosses d (f t) d' r) : Crosses d (g.advance >>= f) d' s :=
  takeSeen ht (.inr hneutral.1) fun r _ => by
    rw [hneutral.openBehind]
    exact hf r

theorem Crosses.accept {k : Token} (hk : d ≠ 0 ∨ k ≠ .semicolon) {f : Bool → Reader α}
    (htrue : ∀ r, r.length ≤ s.length → Crosses (k.openBehind d) (f true) d' r)
    (hfalse : Crosses d (f false) d' s) : Crosses d (g.accept k >>= f) d' s := by
  unfold Grammar.accept
  rw [bind_assoc]
  refine .peek fun t ht => ?_
  split
  · rename_i htoken
    subst htoken
    rw [bind_assoc]
    exact takeSeen ht hk fun r hr => htrue r hr
  · exact hfalse

theorem Crosses.expect {k : Token} (hk : d ≠ 0 ∨ k ≠ .semicolon) :
    Crosses d (g.expect k) (k.openBehind d) s := by
  refine .peek fun t ht => ?_
  split
  · rename_i htoken
    subst htoken
    exact takeSeen ht hk fun r _ => .pure ()
  · exact .fail _ _

theorem Crosses.expectWord (word : String) : Crosses d (g.expectWord word) d s := by
  refine .peek fun t ht => ?_
  split
  · rename_i htoken
    exact takeNeutral ht (by rw [htoken]; exact ⟨nofun, nofun⟩) fun r => .pure ()
  · exact .fail _ _

theorem Crosses.takeOperator {t : PlacedToken} (ht : g.peek s = .ok (t, s))
    (hneutral : IsNeutral t.token) (symbol : String) (fixity : Fixity) :
    Crosses d (g.takeOperator t symbol fixity) d s := by
  unfold Grammar.takeOperator
  split
  · exact takeNeutral ht hneutral fun r => .pure ()
  · exact .fail _ _

/-- Takes an operator of two tokens that have been looked at. -/
theorem Crosses.takeOperatorAndNext {t u : PlacedToken} (ht : g.peek s = .ok (t, s))
    (hneutral : IsNeutral t.token) (hu : g.peekSecond s = .ok (u, s))
    (hneutral' : IsNeutral u.token) {symbol : String} {fixity : Fixity} {f : PlacedToken → Reader α}
    (hf : ∀ r, Crosses d (f u) d' r) :
    Crosses d (g.takeOperator t symbol fixity >>= fun _ => g.advance >>= f) d' s := by
  intro a r hrun
  obtain ⟨_, q, htaken, hrest⟩ := ok_of_bind hrun
  refine (takeOperator ht hneutral _ _ _ q htaken).trans ?_
  obtain rfl := takeOperator_eq ht htaken
  exact takeNeutral (peek_tail hu) hneutral' hf a r hrest

theorem isNeutral_sign {t : PlacedToken} {sign : Sign} (h : t.token = .sign sign) :
    IsNeutral t.token := by
  rw [h]
  exact ⟨nofun, nofun⟩

theorem isNeutral_of_keyOf? {k : Token} {key : String} (h : keyOf? k = some key) :
    IsNeutral k := by
  cases k <;> cases h <;> exact ⟨nofun, nofun⟩

theorem isNeutral_of_memberName? {k : Token} {name : String} (h : memberName? k = some name) :
    IsNeutral k := by
  cases k <;> cases h <;> exact ⟨nofun, nofun⟩

theorem isNeutral_name {t : PlacedToken} {name : String} (h : t.token = .name name) :
    IsNeutral t.token := by
  rw [h]
  exact ⟨nofun, nofun⟩

end

/-! ## The readers of the grammar -/

section
variable {g : Grammar} {d : Nat} {s : List Lexeme}

theorem crosses_chain {op? : Sign → Option BinaryOp} {operand : Reader Term}
    (h : ∀ s, Crosses d operand d s) (s : List Lexeme) :
    Crosses d (g.chain op? operand) d s := by
  refine (h s).bind fun t r _ => .whileSome (fun left s => ?_) t r
  refine .peek fun place hplace => ?_
  split
  · rename_i sign hsign
    split
    · exact (Crosses.takeOperator hplace (isNeutral_sign hsign) _ _).bind fun _ r _ =>
        (h r).bind fun _ _ _ => .pure _
    · exact .pure none
  · exact .pure none

theorem crosses_wordChain {word : String} {join : Term → Term → Term} {operand : Reader Term}
    (h : ∀ s, Crosses d operand d s) (s : List Lexeme) :
    Crosses d (g.wordChain word join operand) d s := by
  refine (h s).bind fun t r _ => .whileSome (fun left s => ?_) t r
  refine .peek fun place hplace => ?_
  split
  · rename_i hword
    exact (Crosses.takeOperator hplace (isNeutral_name hword) _ _).bind fun _ r _ =>
      (h r).bind fun _ _ _ => .pure _
  · exact .pure none

/-- If an operator is called, its name is the next token. -/
theorem Crosses.calledOperator {α : Type} {d' : Nat} {f : Option NamedOp → Reader α}
    (hsome : ∀ op t, g.peek s = .ok (t, s) → IsNeutral t.token → Crosses d (f (some op)) d' s)
    (hnone : Crosses d (f none) d' s) : Crosses d (g.calledOperator? >>= f) d' s := by
  unfold calledOperator?
  rw [bind_assoc]
  refine .peek fun t ht => ?_
  split
  · rename_i name hname
    split
    · rename_i op _
      rw [bind_assoc]
      refine .peekSecond fun second _ => ?_
      rw [pure_bind]
      split
      · exact hsome op t ht (isNeutral_name hname)
      · exact hnone
    · exact hnone
  · exact hnone

/-- Words of membership are names. -/
theorem Crosses.membershipWord {α : Type} {d' : Nat} {f : Option Bool → Reader α}
    {place : PlacedToken}
    (hin : IsNeutral place.token → Crosses d (f (some false)) d' s)
    (hnotIn : ∀ second, IsNeutral place.token → g.peekSecond s = .ok (second, s) →
      IsNeutral second.token → Crosses d (f (some true)) d' s)
    (hnone : Crosses d (f none) d' s) : Crosses d (g.membershipWord? place >>= f) d' s := by
  unfold membershipWord?
  split
  · rename_i hword
    exact hin (isNeutral_name hword)
  · split
    · rename_i hword
      rw [bind_assoc]
      refine .peekSecond fun second hsecond => ?_
      rw [pure_bind]
      split
      · rename_i hword'
        exact hnotIn second (isNeutral_name hword) hsecond (isNeutral_name hword')
      · exact hnone
    · exact hnone

variable {sub : Level → Reader Term} (hsub : ∀ level d s, Crosses d (sub level) d s)
include hsub

theorem crosses_listUntil (close : Token) (hsemicolon : close ≠ .semicolon)
    (hclose : close.openBehind (d + 1) = d) (s : List Lexeme) :
    Crosses (d + 1) (g.listUntil sub close) d s := by
  have hlink : ∀ items s, Crosses (d + 1) (g.listLink sub items) (d + 1) s := fun items s =>
    .accept (k := .comma) (.inr nofun)
      (fun r _ => (hsub .assignment _ r).bind fun _ _ _ => .pure _) (.pure none)
  have hexpect : ∀ s, Crosses (d + 1) (g.expect close) d s := fun s => by
    have h := Crosses.expect (g := g) (d := d + 1) (s := s) (.inr hsemicolon)
    rwa [hclose] at h
  refine .accept (.inr hsemicolon) (fun r _ => ?_) ?_
  · rw [hclose]
    exact .pure []
  · exact (hsub .assignment _ s).bind fun first r _ => (Crosses.whileSome hlink _ r).bind
      fun items q _ => (hexpect q).bind fun _ _ _ => .pure items

theorem crosses_fieldsUntil (hfinish : g.finish.token = .finish) {rounds : Nat}
    (hrounds : s.length < rounds) (fields : List (String × Term)) :
    Crosses (d + 1) (g.fieldsUntil sub rounds fields) d s := by
  induction rounds generalizing s fields with
  | zero => omega
  | succ rounds ih =>
    refine Crosses.accept (k := .bracket .curlyClose) (.inr nofun) (fun r _ => .pure fields)
      (.take hfinish (fun t r hs => ?_) fun t r ht => ?_)
    · cases hkey : keyOf? t.token with
      | none => exact .fail _ _
      | some key =>
        dsimp only
        split
        · exact .throw _
        · rw [(isNeutral_of_keyOf? hkey).openBehind]
          refine (Crosses.expect (k := .sign .colon) (.inr nofun)).bind fun _ q hq => ?_
          refine (hsub .assignment _ q).bind fun value p hp => ?_
          refine .accept (k := .comma) (.inr nofun) (fun o ho => ?_) ?_
          · exact ih (by rw [hs, List.length_cons] at hrounds; omega) _
          · exact (Crosses.expect (k := .bracket .curlyClose) (.inr nofun)).bind
              fun _ _ _ => .pure _
    · rcases ht with ht | ht <;> rw [ht] <;> exact nofun

/-- Inside of a bracket statements may be separated. -/
theorem crosses_statements (s : List Lexeme) :
    Crosses (d + 1) (g.statements sub) (d + 1) s := by
  rw [statements_eq]
  refine (hsub .assignment _ s).bind fun first r _ => .peek fun t ht => ?_
  split
  · refine Crosses.bind (.whileSome (fun found s => ?_) _ r) fun _ _ _ => .pure _
    obtain ⟨found, ended⟩ := found
    cases ended with
    | true => exact .pure none
    | false =>
      rw [statementLink_eq]
      refine .peek fun t ht => ?_
      split
      · rename_i hsemicolon
        refine .takeSeen ht (.inl (Nat.succ_ne_zero d)) fun r _ => .peek fun u hu => ?_
        rw [hsemicolon]
        split
        · exact .pure _
        · exact (hsub .assignment _ r).bind fun _ _ _ => .pure _
      · exact .pure none
  · exact .pure first

theorem crosses_arms (s : List Lexeme) : Crosses d (g.arms sub) d s := by
  refine .whileSome (fun found s => ?_) [] s
  refine .peek fun t ht => ?_
  split
  · rename_i hwhen
    exact .takeNeutral ht (isNeutral_name hwhen) fun r => (hsub .assignment _ r).bind
      fun condition q _ => (Crosses.expectWord "then").bind fun _ p _ =>
        (hsub .assignment _ p).bind fun _ _ _ => .pure _
  · split
    · exact .fail _ _
    · exact .pure none

theorem crosses_caseBlock (s : List Lexeme) : Crosses d (g.caseBlock sub) d s := by
  refine .peek fun t ht => ?_
  extract_lets withSubject
  have hsubject : ∀ subject s, Crosses d (withSubject subject) d s := by
    intro subject s
    refine (crosses_arms hsub s).bind fun arms r _ => .peek fun t ht => ?_
    extract_lets withLast
    have hlast : ∀ otherwise s, Crosses d (withLast otherwise) d s := fun otherwise s =>
      (Crosses.expectWord "end").bind fun _ _ _ => .pure _
    split
    · rename_i helse
      exact .takeNeutral ht (isNeutral_name helse) fun r =>
        ((hsub .assignment _ r).map some).bind fun otherwise q _ => hlast otherwise q
    · exact hlast none r
  split
  · exact hsubject none s
  · exact ((hsub .assignment _ s).map some).bind fun subject r _ => hsubject subject r

theorem crosses_name (place : PlacedToken) (name : String) (s : List Lexeme) :
    Crosses d (g.name sub place name) d s := by
  unfold Grammar.name
  split
  · exact crosses_caseBlock hsub s
  · split
    · exact .fail _ _
    · split <;> exact .pure _

theorem crosses_atom (hfinish : g.finish.token = .finish) (s : List Lexeme) :
    Crosses d (g.atom sub) d s := by
  refine .take hfinish (fun t r _ => ?_) fun t r ht => ?_
  · split
    · rename_i name hname
      rw [(isNeutral_name hname).openBehind]
      exact crosses_name hsub t name r
    · rename_i htoken
      rw [htoken]
      exact .pure _
    · rename_i htoken
      rw [htoken]
      exact .pure _
    · rename_i htoken
      rw [htoken]
      exact .pure _
    · rename_i htoken
      rw [htoken]
      exact .pure _
    · rename_i htoken
      rw [htoken]
      exact .pure _
    · rename_i htoken
      rw [htoken]
      exact (crosses_statements hsub r).bind fun inner q _ =>
        (Crosses.expect (k := .bracket .roundClose) (.inr nofun)).bind fun _ _ _ => .pure inner
    · rename_i htoken
      rw [htoken]
      split
      · exact (crosses_listUntil hsub (.bracket .squareClose) nofun rfl r).map _
      · exact .fail _ _
    · rename_i htoken
      rw [htoken]
      exact fun a q hrun =>
        (crosses_fieldsUntil hsub hfinish (Nat.lt_succ_self r.length) []).map _ a q hrun
    · exact .fail _ _
  · rcases ht with ht | ht <;> rw [ht] <;> exact nofun

theorem crosses_access (hfinish : g.finish.token = .finish) (target : Term) (s : List Lexeme) :
    Crosses d (g.access sub target) d s := by
  refine .peek fun t ht => ?_
  split
  · rename_i hdot
    split
    · refine .takeNeutral ht (isNeutral_sign hdot) fun r => .take hfinish (fun u q _ => ?_) ?_
      · split
        · rename_i name hname
          rw [(isNeutral_of_memberName? hname).openBehind]
          exact .pure _
        · exact .fail _ _
      · intro u q hu
        rcases hu with hu | hu <;> rw [hu] <;> exact nofun
    · exact .throw _
  · rename_i hopen
    split
    · refine .takeSeen ht (.inr (by rw [hopen]; nofun)) fun r _ => ?_
      rw [hopen]
      exact (hsub .assignment _ r).bind fun key q _ =>
        (Crosses.expect (k := .bracket .squareClose) (.inr nofun)).bind fun _ _ _ => .pure _
    · exact .throw _
  · rename_i hopen
    refine .takeSeen ht (.inr (by rw [hopen]; nofun)) fun r _ => ?_
    rw [hopen]
    exact (crosses_listUntil hsub (.bracket .roundClose) nofun rfl r).bind fun _ _ _ => .pure _
  · exact .pure none

theorem crosses_operand (hfinish : g.finish.token = .finish) (s : List Lexeme) :
    Crosses d (g.operand sub) d s := by
  refine .calledOperator (fun op t ht hneutral => ?_) ?_
  · exact .takeNeutral ht hneutral fun r => (crosses_atom hsub hfinish r).bind
      fun _ q _ => .whileSome (crosses_access hsub hfinish) _ q
  · exact (crosses_atom hsub hfinish s).bind
      fun _ r _ => .whileSome (crosses_access hsub hfinish) _ r

theorem crosses_factorial (hfinish : g.finish.token = .finish) (s : List Lexeme) :
    Crosses d (g.factorial sub) d s := by
  refine (crosses_operand hsub hfinish s).bind fun t r _ => .whileSome (fun inner s => ?_) t r
  refine .peek fun t ht => ?_
  split
  · rename_i hbang
    exact (Crosses.takeOperator ht (isNeutral_sign hbang) _ _).bind fun _ _ _ => .pure _
  · exact .pure none

theorem crosses_power (hfinish : g.finish.token = .finish) (s : List Lexeme) :
    Crosses d (g.power sub) d s := by
  refine (crosses_factorial hsub hfinish s).bind fun t r _ => .whileSome (fun base s => ?_) t r
  refine .peek fun t ht => ?_
  split
  · rename_i hcaret
    exact (Crosses.takeOperator ht (isNeutral_sign hcaret) _ _).bind fun _ r _ =>
      (hsub .factor _ r).bind fun _ _ _ => .pure _
  · exact .pure none

theorem crosses_factor (hfinish : g.finish.token = .finish) (s : List Lexeme) :
    Crosses d (g.factor sub) d s := by
  refine .peek fun t ht => ?_
  split
  · rename_i hminus
    exact (Crosses.takeOperator ht (isNeutral_sign hminus) _ _).bind fun _ r _ =>
      (hsub .factor _ r).map _
  · rename_i hplus
    exact (Crosses.takeOperator ht (isNeutral_sign hplus) _ _).bind fun _ r _ =>
      (hsub .factor _ r).map _
  · rename_i name hname
    split
    · refine .peekSecond fun second _ => ?_
      split
      · exact crosses_power hsub hfinish s
      · exact .takeNeutral ht (isNeutral_name hname) fun r => (hsub .factor _ r).map _
    · exact crosses_power hsub hfinish s
  · exact crosses_power hsub hfinish s

theorem crosses_disjunction (s : List Lexeme) : Crosses d (g.disjunction sub) d s :=
  crosses_wordChain (crosses_wordChain (crosses_chain (crosses_chain (crosses_chain
    (crosses_chain (hsub .factor d)))))) s

theorem crosses_membership (s : List Lexeme) : Crosses d (g.membership sub) d s := by
  refine (crosses_disjunction hsub s).bind fun t r _ => .whileSome (fun left s => ?_) t r
  refine .peek fun t ht => .membershipWord (fun hin => ?_) (fun second hnot hsecond hin => ?_) ?_
  · exact (Crosses.takeOperator ht hin _ _).bind fun _ r _ =>
      (crosses_disjunction hsub r).bind fun _ _ _ => .pure _
  · exact .takeOperatorAndNext ht hnot hsecond hin fun r =>
      (crosses_disjunction hsub r).bind fun _ _ _ => .pure _
  · exact .pure none

theorem crosses_conditional (s : List Lexeme) : Crosses d (g.conditional sub) d s := by
  refine (crosses_membership hsub s).bind fun condition r _ => .peek fun t ht => ?_
  split
  · rename_i hquestion
    exact (Crosses.takeOperator ht (isNeutral_sign hquestion) _ _).bind fun _ r _ =>
      (hsub .conditional _ r).bind fun yes q _ =>
        (Crosses.expect (k := .sign .colon) (.inr nofun)).bind fun _ p _ =>
          (hsub .conditional _ p).bind fun _ _ _ => .pure _
  · exact .pure _

theorem crosses_assignment (s : List Lexeme) : Crosses d (g.assignment sub) d s := by
  refine (hsub .conditional _ s).bind fun left r _ => .peek fun t ht => ?_
  split
  · rename_i hassign
    refine (Crosses.takeOperator ht (isNeutral_sign hassign) _ _).bind fun _ r _ => ?_
    split
    · split
      · split
        · exact (hsub .assignment _ r).map _
        · exact .fail _ _
      · exact .fail _ _
    · split
      · exact (hsub .assignment _ r).map _
      · exact .fail _ _
  · exact .pure left

end

/-- **An expression crosses no semicolon outside of brackets, and closes the brackets that it
opens.** -/
theorem crosses_level {g : Grammar} (hfinish : g.finish.token = .finish) (depth : Nat) (l : Level)
    (d : Nat) (s : List Lexeme) : Crosses d (g.level depth l) d s := by
  induction depth generalizing l d s with
  | zero => exact .peek fun t _ => .fail t _
  | succ depth ih =>
    cases l with
    | assignment => exact crosses_assignment ih s
    | conditional => exact crosses_conditional ih s
    | factor => exact crosses_factor ih hfinish s

end Grammar
end Formula
