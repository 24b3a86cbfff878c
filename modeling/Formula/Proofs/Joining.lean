import Formula.Proofs.CanonicalText
import Formula.Proofs.PairedReaders
import Formula.Proofs.Scanning

/-! # Statements of two texts behind each other

What is read from a text, and from another text behind a semicolon, is read from both as one text:
the statements of the first and then the statements of the second (`whole_joined`).

On the way it is shown what no expression begins with (`refuses_level`), so that behind the
semicolon indeed the first statement of the second text is read.
-/
namespace Formula

/-- The term is a single statement or a row of statements. -/
inductive Term.MadeOf : Term → Term → List Term → Prop
  | single (t : Term) : MadeOf t t []
  | row (first : Term) (rest : List Term) : MadeOf (.sequence first rest) first rest

namespace Grammar

open Pairing

section
variable {g : Grammar} {s r : List Lexeme} {α β : Type}

/-! ## What no expression begins with -/

/-- The reader has no answer on these pieces. -/
def Refuses (m : Reader α) (s : List Lexeme) : Prop := ∀ answer, m s ≠ .ok answer

theorem Refuses.bind {m : Reader α} (h : Refuses m s) (f : α → Reader β) : Refuses (m >>= f) s := by
  intro answer hrun
  rw [reader_bind] at hrun
  cases hm : m s with
  | error failure => rw [hm] at hrun; cases hrun
  | ok first => exact h first hm

theorem Refuses.fail (place : PlacedToken) (fault : ParseFault) :
    Refuses (fail place fault : Reader α) s := nofun

theorem peek_eq {t : PlacedToken} (h : g.peek s = .ok (t, r)) : r = s := by
  cases s with
  | nil => cases h; rfl
  | cons l rest =>
    cases l with
    | token => cases h; rfl
    | rejected => cases h

theorem Refuses.peek {f : PlacedToken → Reader α}
    (hf : ∀ t, g.peek s = .ok (t, s) → Refuses (f t) s) : Refuses (g.peek >>= f) s := by
  intro answer hrun
  rw [reader_bind] at hrun
  cases hpeek : g.peek s with
  | error failure => rw [hpeek] at hrun; cases hrun
  | ok first =>
    obtain ⟨t, r⟩ := first
    obtain rfl := peek_eq hpeek
    rw [hpeek] at hrun
    exact hf t hpeek answer hrun

section
variable {sub : Level → Reader Term}
  (hnext : ∀ t, g.peek s = .ok (t, s) → t.token = .finish ∨ t.token = .bracket .roundClose)
include hnext

theorem refuses_atom : Refuses (g.atom sub) s := by
  unfold Grammar.atom Grammar.advance
  simp only [bind_assoc, pure_bind]
  refine .peek fun t ht => ?_
  rcases hnext t ht with h | h <;> rw [h] <;> exact nofun

theorem refuses_power : Refuses (g.power sub) s := by
  have hoperand : Refuses (g.operand sub) s := by
    unfold Grammar.operand Grammar.calledOperator?
    rw [bind_assoc]
    refine .peek fun t ht => ?_
    rcases hnext t ht with h | h <;> rw [h] <;> exact (refuses_atom hnext).bind _
  exact (hoperand.bind _).bind _

/-- **No expression begins at the end of the text or with a closing parenthesis.** -/
theorem refuses_level (depth : Nat) (l : Level) : Refuses (g.level depth l) s := by
  induction depth generalizing l with
  | zero => exact .peek fun t _ => .fail t _
  | succ depth ih =>
    cases l with
    | assignment => exact (ih .conditional).bind _
    | conditional =>
      have hcomparison : Refuses (g.comparison (g.level depth)) s :=
        ((((ih .factor).bind _).bind _).bind _).bind _
      exact (((hcomparison.bind _).bind _).bind _).bind _
    | factor =>
      refine .peek fun t ht => ?_
      rcases hnext t ht with h | h <;> rw [h] <;> exact refuses_power hnext

end

/-! ## Rounds of statements -/

variable (hfinish : g.finish.token = .finish) {sub : Level → Reader Term}
include hfinish

/-- What a round of statements can do. -/
theorem statementLink_cases {found : List Term} {x : Option (List Term × Bool)}
    (h : g.statementLink sub (found, false) s = .ok (x, r)) :
    x = none ∧ r = s ∨ ∃ place rest, place.token = .semicolon ∧ s = .token place :: rest ∧
      (x = some (found, true) ∧ r = rest ∨
        ∃ statement, x = some (found ++ [statement], false) ∧
          sub .assignment rest = .ok (statement, r)) := by
  rw [statementLink_eq] at h
  obtain ⟨place, q, hpeek, hlink⟩ := ok_of_bind h
  obtain rfl := peek_eq hpeek
  split at hlink
  · rename_i hsemicolon
    right
    cases q with
    | nil =>
      cases hpeek
      rw [hfinish] at hsemicolon
      cases hsemicolon
    | cons l rest =>
      cases l with
      | rejected => cases hpeek
      | token =>
        cases hpeek
        refine ⟨place, rest, hsemicolon, rfl, ?_⟩
        obtain ⟨_, q, hadvance, hbehind⟩ := ok_of_bind hlink
        cases hadvance
        obtain ⟨second, q, hsecond, hlast⟩ := ok_of_bind hbehind
        obtain rfl := peek_eq hsecond
        split at hlast
        · cases hlast
          exact .inl ⟨rfl, rfl⟩
        · obtain ⟨statement, q, hstatement, hlast⟩ := ok_of_bind hlast
          cases hlast
          exact .inr ⟨statement, rfl, hstatement⟩
  · cases hlink
    exact .inl ⟨rfl, rfl⟩

omit hfinish in
/-- Statements are a first one and rounds of further ones. -/
theorem statements_cases {t : Term} (h : g.statements sub s = .ok (t, r)) :
    ∃ first q found rounds, sub .assignment s = .ok (first, q) ∧ q.length < rounds ∧
      iterate (g.statementLink sub) rounds ([], false) q = .ok (found, r) ∧
      t.MadeOf first found.1 := by
  rw [statements_eq] at h
  obtain ⟨first, q, hfirst, hrest⟩ := ok_of_bind h
  obtain ⟨place, p, hpeek, hmore⟩ := ok_of_bind hrest
  obtain rfl := peek_eq hpeek
  split at hmore
  · obtain ⟨found, o, hrounds, hlast⟩ := ok_of_bind hmore
    cases hlast
    exact ⟨first, p, found, p.length + 1, hfirst, Nat.lt_succ_self _, hrounds, .row first found.1⟩
  · rename_i hsemicolon
    cases hmore
    refine ⟨t, r, ([], false), r.length + 1, hfirst, Nat.lt_succ_self _, ?_, .single t⟩
    have hnone : g.statementLink sub ([], false) r = .ok (none, r) := by
      rw [statementLink_eq, bind_of_ok hpeek, if_neg hsemicolon]
      rfl
    rw [iterate, bind_of_ok hnone]
    rfl

end

/-! ## Statements before and behind a semicolon -/

section
variable {J : Pairing} {g g' : Grammar} {sub sub' : Level → Reader Term} {s s' : List Lexeme}
  (hJ : J.Sound g g') (hsub : ∀ level, J.Pairs (sub level) (sub' level))
  (hright : ∀ failure, ¬ J.excusesRight failure) (hs : J.Continues s s')
include hJ hsub hright hs

/-- Rounds of statements that end with the left text go on behind it on the right, unless the text
ends with a semicolon. -/
theorem iterate_reaches {found all : List Term} {ended : Bool} {rounds rounds' : Nat}
    (hrun : iterate (g.statementLink sub) rounds (found, false) s = .ok ((all, ended), []))
    (hlast : ∀ t, s.getLast? = some (.token t) → t.token ≠ .semicolon)
    (hrounds' : s'.length < rounds') :
    ∃ more, J.tail.length < more ∧
      iterate (g'.statementLink sub') rounds' (found, false) s'
        = iterate (g'.statementLink sub') more (all, false) J.tail := by
  induction rounds generalizing s s' found rounds' with
  | zero =>
    cases hrun
    obtain ⟨_, hnil, rfl⟩ := hs
    cases hnil
    exact ⟨rounds', hrounds', rfl⟩
  | succ rounds ih =>
    obtain ⟨x, r, hlink, hrest⟩ := ok_of_bind hrun
    rcases statementLink_cases hJ.finish hlink with ⟨rfl, rfl⟩ | ⟨place, rest, hplace, rfl, hx⟩
    · cases hrest
      obtain ⟨_, hnil, rfl⟩ := hs
      cases hnil
      exact ⟨rounds', hrounds', rfl⟩
    · rcases hx with ⟨rfl, rfl⟩ | ⟨statement, rfl, -⟩
      · -- a semicolon that nothing follows is the last token
        have hend := (iterate_ended g sub found rounds r).symm.trans hrest
        cases hend
        exact absurd hplace (hlast place rfl)
      · have hstep := statementLink_orStops hJ hsub [] (found, false) hs
        rcases hstep.of_ok hright hlink with ⟨y, r', hlink', hxy, htaken, hr⟩ | ⟨hnever, -, -⟩
        · obtain ⟨hrel, hshorter⟩ := hxy
          have hless := hshorter rfl
          obtain ⟨rounds', rfl⟩ := Nat.exists_eq_add_of_lt hrounds'
          cases hrel with
          | @some _ b hb =>
            subst hb
            have hlength := hs.length_eq
            have hlength' := hr.length_eq
            have hlast' : ∀ t, r.getLast? = some (.token t) → t.token ≠ .semicolon :=
              fun t ht => hlast t (htaken.getLast? ht)
            obtain ⟨more, hmore, hreach⟩ := ih hr hrest hlast'
              (show r'.length < s'.length + rounds' by omega)
            refine ⟨more, hmore, ?_⟩
            have hround : g'.statementLink sub' (found, false) s'
                = .ok (some (found ++ [statement], false), r') := hlink'
            rw [iterate, bind_of_ok hround]
            exact hreach
        · exact absurd rfl (hnever _)

/-- The statements of a text before a semicolon are read, and then what stands behind it. -/
theorem statements_before {t : Term} {semicolon : PlacedToken} {behind : List Lexeme}
    (htail : J.tail = .token semicolon :: behind) (hsemicolon : semicolon.token = .semicolon)
    (hrun : g.statements sub s = .ok (t, []))
    (hlast : ∀ t, s.getLast? = some (.token t) → t.token ≠ .semicolon) :
    ∃ first rest rounds, t.MadeOf first rest ∧ J.tail.length < rounds ∧
      g'.statements sub' s'
        = (do
          let found ← iterate (g'.statementLink sub') rounds (rest, false)
          pure (Term.sequence first found.1)) J.tail := by
  obtain ⟨first, q, ⟨rest, ended⟩, rounds, hfirst, hrounds, hrest, hmade⟩ := statements_cases hrun
  obtain ⟨_, q', hfirst', rfl, htaken, hq⟩ := (hsub _ s s' hs).of_ok hright hfirst
  have hlast' : ∀ t, q.getLast? = some (.token t) → t.token ≠ .semicolon :=
    fun t ht => hlast t (htaken.getLast? ht)
  -- behind the first statement stands a semicolon, in the text or behind it
  have hnext : ∃ place more, place.token = .semicolon ∧ q' = .token place :: more := by
    cases q with
    | nil =>
      obtain ⟨_, hnil, rfl⟩ := hq
      cases hnil
      exact ⟨semicolon, behind, hsemicolon, htail⟩
    | cons l q =>
      obtain ⟨rounds, rfl⟩ := Nat.exists_eq_add_of_lt hrounds
      obtain ⟨x, r, hlink, hmore⟩ := ok_of_bind hrest
      rcases statementLink_cases hJ.finish hlink with ⟨rfl, rfl⟩ | ⟨place, more, hplace, hcons, -⟩
      · cases hmore
      · rw [hcons] at hq
        obtain ⟨place', more', rfl, hmatch, -⟩ := hJ.cons hq
        exact ⟨place', more', hmatch.token ▸ hplace, rfl⟩
  obtain ⟨place, more, hplace, hcons⟩ := hnext
  obtain ⟨rounds', hrounds', hreach⟩ :=
    iterate_reaches hJ hsub hright hq hrest hlast' (Nat.lt_succ_self _)
  refine ⟨first, rest, rounds', hmade, hrounds', ?_⟩
  have hpeek : g'.peek q' = .ok (place, q') := by rw [hcons]; rfl
  rw [statements_eq, bind_of_ok hfirst', bind_of_ok hpeek, if_pos hplace, reader_bind, reader_bind]
  exact congrArg (· >>= _) hreach

end

section
variable {J : Pairing} {g g' : Grammar} {sub sub' : Level → Reader Term} {s s' : List Lexeme}
  (hJ : J.Sound g g') (hsub : ∀ level, J.Pairs (sub level) (sub' level))
  (hright : ∀ failure, ¬ J.excusesRight failure) (hleft : ∀ failure, ¬ J.excusesLeft failure)
  (hrefuses : ∀ s, (∀ t, g.peek s = .ok (t, s) →
    t.token = .finish ∨ t.token = .bracket .roundClose) → Refuses (sub .assignment) s)
include hJ hsub hright hleft hrefuses

/-- The statements of a text behind a semicolon are read behind those that have been read. -/
theorem iterate_behind (hs : J.Continues s s') {t : Term} {semicolon : PlacedToken}
    (hsemicolon : semicolon.token = .semicolon) (hrun : g.statements sub s = .ok (t, []))
    (front : List Term) {rounds : Nat} (hrounds : s'.length + 1 < rounds) :
    ∃ first rest ended r', t.MadeOf first rest ∧ J.Continues [] r' ∧
      iterate (g'.statementLink sub') rounds (front, false) (.token semicolon :: s')
        = .ok ((front ++ first :: rest, ended), r') := by
  obtain ⟨first, q, ⟨rest, ended⟩, rounds₁, hfirst, hrounds₁, hrest, hmade⟩ := statements_cases hrun
  obtain ⟨_, q', hfirst', rfl, htaken, hq⟩ := (hsub _ s s' hs).of_ok hright hfirst
  -- an expression is read from the text, so it begins with a token that may begin one
  have hnext : ∃ u', g'.peek s' = .ok (u', s') ∧
      ¬ (u'.token = .finish ∨ u'.token = .bracket .roundClose) := by
    rcases hJ.peeks hs with ⟨u, u', hnext, hu, hu'⟩ | ⟨e, e', -, he, -⟩
    · refine ⟨u', hu', fun hends => ?_⟩
      have hsame : u.token = u'.token ∨ u.token = .finish := by
        cases hnext with
        | token h => exact .inl h.token
        | finish h => exact .inr h.finish
      refine hrefuses s (fun v hv => ?_) _ hfirst
      cases hu.symm.trans hv
      rcases hsame with h | h
      · exact h ▸ hends
      · exact .inl h
    · refine absurd hfirst (hrefuses s (fun v hv => ?_) _)
      cases he.symm.trans hv
  obtain ⟨u', hpeek, hopens⟩ := hnext
  have hlink : g'.statementLink sub' (front, false) (.token semicolon :: s')
      = .ok (some (front ++ [first], false), q') := by
    have htake : g'.advance (.token semicolon :: s') = .ok (semicolon, s') := rfl
    have hsemicolon' : g'.peek (.token semicolon :: s')
        = .ok (semicolon, .token semicolon :: s') := rfl
    rw [statementLink_eq, bind_of_ok hsemicolon', if_pos hsemicolon, bind_of_ok htake,
      bind_of_ok hpeek, if_neg hopens, bind_of_ok hfirst']
    rfl
  obtain ⟨rounds, rfl⟩ := Nat.exists_eq_add_of_lt hrounds
  have hlength := hs.length_eq
  have hlength' := hq.length_eq
  have hle := htaken.length_le
  rw [iterate, bind_of_ok hlink]
  have hmore := iterate_statements_orStops hJ hsub (front ++ [first]) ([], false) hq hrounds₁
    (show q'.length < s'.length + 1 + rounds by omega)
  rcases hmore.of_ok hright hrest with ⟨_, r', hrun', rfl, -, hr⟩ | ⟨-, -, hexcused⟩
  · exact ⟨first, rest, ended, r', hmade, hr, by simpa using hrun'⟩
  · exact absurd (hexcused ⟨.parse .noTarget, 0⟩) (hleft _)

end
/-! ## Whole texts -/

section
variable {g : Grammar} {s r : List Lexeme} {t : Term}

/-- A whole text is read to its end. -/
theorem whole_cases (hfinish : g.finish.token = .finish) (hplain : Holds (· ≠ .finish) s)
    (h : g.whole s = .ok (t, r)) :
    g.statements (g.level g.options.maxDepth) s = .ok (t, []) := by
  obtain ⟨term, q, hstatements, hrest⟩ := ok_of_bind h
  obtain ⟨place, p, hpeek, hlast⟩ := ok_of_bind hrest
  obtain rfl := peek_eq hpeek
  split at hlast
  · rename_i hplace
    cases hlast
    have htaken := takes_statements hfinish hstatements
    cases r with
    | nil => exact hstatements
    | cons l rest =>
      cases l with
      | rejected => cases hpeek
      | token =>
        cases hpeek
        obtain ⟨ts, rfl⟩ := htaken
        exact absurd hplace (hplain place (by simp))
  · cases hlast

end

namespace Pairing

/-- A reading beside one of a text that goes on.  It may fail at its end. -/
def before (tail : List Lexeme) : Pairing where
  pieces := Eq
  failures := fun _ _ => True
  tail := tail
  excusesLeft := fun _ => True
  excusesRight := fun _ => False

/-- A reading beside one of the same text further behind. -/
def further (distance : Nat) : Pairing where
  pieces := fun l l' => l' = l.moved distance
  failures := fun _ _ => True
  tail := []
  excusesLeft := fun _ => False
  excusesRight := fun _ => False

section
variable (options : Options) (constants : Dict Value) {finish : PlacedToken}
  (finish' : PlacedToken) (hfinish : finish.token = .finish)
include hfinish

theorem before_sound {semicolon : PlacedToken} (hsemicolon : semicolon.token = .semicolon)
    (behind : List Lexeme) :
    (before (.token semicolon :: behind)).Sound ⟨options, constants, finish⟩
      ⟨options, constants, finish'⟩ where
  token := by
    rintro t _ rfl
    exact ⟨t, rfl, rfl, fun _ => trivial⟩
  rejected := by
    rintro fault start stop _ rfl
    exact ⟨start, stop, rfl, trivial⟩
  tail := .inr ⟨semicolon, behind, rfl, hfinish, .inr ⟨hsemicolon, fun _ => trivial⟩⟩
  constants := rfl
  allows _ _ := rfl
  conditional := rfl
  array := rfl
  member := rfl
  definition := rfl
  namedOp _ := rfl

theorem further_sound (hfinish' : finish'.token = .finish) (distance : Nat) :
    (further distance).Sound ⟨options, constants, finish⟩ ⟨options, constants, finish'⟩ where
  token := by
    rintro t _ rfl
    exact ⟨_, rfl, rfl, fun _ => trivial⟩
  rejected := by
    rintro fault start stop _ rfl
    exact ⟨_, _, rfl, trivial⟩
  tail := .inl ⟨rfl, hfinish, .inl ⟨hfinish.trans hfinish'.symm, fun _ => trivial⟩⟩
  constants := rfl
  allows _ _ := rfl
  conditional := rfl
  array := rfl
  member := rfl
  definition := rfl
  namedOp _ := rfl

end

theorem before_continues (s behind : List Lexeme) : (before behind).Continues s (s ++ behind) :=
  ⟨s, List.forall₂_same.mpr fun _ _ => rfl, rfl⟩

theorem further_continues (distance : Nat) (s : List Lexeme) :
    (further distance).Continues s (s.map (.moved distance)) :=
  ⟨s.map (.moved distance), by simp [further, List.forall₂_same], by simp [further]⟩

end Pairing

open Pairing

/-- **Two texts with a semicolon between them are read as the statements of both**, the first of
which does not end with a semicolon. -/
theorem whole_joined {options : Options} {constants : Dict Value}
    {finish finish₁ finish₂ semicolon : PlacedToken} (hfinish : finish.token = .finish)
    (hfinish₁ : finish₁.token = .finish) (hfinish₂ : finish₂.token = .finish)
    (hsemicolon : semicolon.token = .semicolon) {s₁ s₂ r₁ r₂ : List Lexeme} {t₁ t₂ : Term}
    (h₁ : (Grammar.mk options constants finish₁).whole s₁ = .ok (t₁, r₁))
    (h₂ : (Grammar.mk options constants finish₂).whole s₂ = .ok (t₂, r₂))
    (hplain₁ : Holds (· ≠ .finish) s₁) (hplain₂ : Holds (· ≠ .finish) s₂)
    (hlast : ∀ t, s₁.getLast? = some (.token t) → t.token ≠ .semicolon) (distance : Nat) :
    ∃ first₁ rest₁ first₂ rest₂ r, t₁.MadeOf first₁ rest₁ ∧ t₂.MadeOf first₂ rest₂ ∧
      (Grammar.mk options constants finish).whole
          (s₁ ++ Lexeme.token semicolon :: s₂.map (.moved distance))
        = .ok (.sequence first₁ (rest₁ ++ first₂ :: rest₂), r) := by
  have hread₁ := whole_cases hfinish₁ hplain₁ h₁
  have hread₂ := whole_cases hfinish₂ hplain₂ h₂
  have hJ₁ := before_sound options constants finish hfinish₁ hsemicolon
    (s₂.map (.moved distance))
  have hJ₂ := further_sound options constants finish hfinish₂ hfinish distance
  obtain ⟨first₁, rest₁, rounds, hmade₁, hrounds, hbefore⟩ := statements_before hJ₁
    (pairs_level hJ₁ (pairs_limit hJ₁ rfl) _) (fun _ => id) (before_continues s₁ _) rfl
    hsemicolon hread₁ hlast
  obtain ⟨first₂, rest₂, ended, r, hmade₂, hr, hbehind⟩ := iterate_behind hJ₂
    (pairs_level hJ₂ (pairs_limit hJ₂ rfl) _) (fun _ => id) (fun _ => id)
    (fun s hs => refuses_level hs _ _) (further_continues distance s₂) hsemicolon hread₂ rest₁
    hrounds
  refine ⟨first₁, rest₁, first₂, rest₂, r, hmade₁, hmade₂, ?_⟩
  -- nothing is left behind the statements of the second text
  obtain ⟨_, hnil, rfl⟩ := hr
  cases hnil
  let g : Grammar := ⟨options, constants, finish⟩
  have hstatements : g.statements (g.level options.maxDepth)
      (s₁ ++ Lexeme.token semicolon :: s₂.map (.moved distance))
      = .ok (.sequence first₁ (rest₁ ++ first₂ :: rest₂), []) :=
    hbefore.trans (bind_of_ok hbehind)
  have hpeek : g.peek [] = .ok (finish, []) := rfl
  refine (bind_of_ok hstatements).trans ?_
  rw [bind_of_ok hpeek, if_pos hfinish]
  rfl

end Grammar

/-! ## Texts -/

/-- One text and another behind it, with a line for the semicolon between them. -/
def joined (first second : String) : String := first ++ "\n;\n" ++ second

theorem lexemes_joined {first : String} (hclosed : CommentsClosed 0 first.toList)
    (htokens : AllTokens (lexemes first.toList)) (second : String) :
    ∃ semicolon distance, semicolon.token = .semicolon ∧
      lexemes (joined first second).toList
        = lexemes first.toList
          ++ Lexeme.token semicolon :: (lexemes second.toList).map (.moved distance) := by
  have htext : (joined first second).toList
      = first.toList ++ '\n' :: ';' :: '\n' :: second.toList := by
    simp [joined, String.toList_append]
  have hback : ∀ offset, lexemesFrom 0 offset (';' :: '\n' :: second.toList)
      = Lexeme.token ⟨.semicolon, offset, offset + 1⟩
        :: (lexemes second.toList).map (.moved (offset + 2)) := by
    intro offset
    have hscan : Scan.scan ';' ('\n' :: second.toList) = ⟨.token .semicolon, 1⟩ :=
      Scan.scan_plain (by decide) rfl
    rw [lexemesFrom, hscan]
    simp only [Lexeme.ofReading?, Nat.sub_self]
    rw [lexemesFrom_cons_gap (by decide), lexemes, ← lexemesFrom_moved, Nat.zero_add]
    rfl
  let start := 0 + byteLength first.toList + ('\n' : Char).utf8Size
  refine ⟨⟨.semicolon, start, start + 1⟩, start + 2, rfl, ?_⟩
  rw [htext, lexemes, lexemesFrom_append (by decide) _ 0 (Nat.zero_le _) hclosed htokens, hback]
  rfl

/-- The token of the end is none of the tokens of a text. -/
theorem holds_ne_finish (text : List Char) : Grammar.Holds (· ≠ .finish) (lexemes text) :=
  holds_lexemesFrom (fun c rest t ht => by
    rintro rfl
    exact Scan.reading_ne_finish c rest ht) 0 0 text

section
variable {options : Options} {constants : Dict Value} {source : String} {t : Term}
  (h : Term.parse options constants source = .ok t)
include h

theorem Term.whole_of_parse :
    ∃ r, (Grammar.mk options constants (finishOf source.toList)).whole (lexemes source.toList)
      = .ok (t, r) := by
  unfold Term.parse at h
  dsimp only at h
  split at h
  · rename_i term r hrun
    cases h
    exact ⟨r, hrun⟩
  · cases h

/-- A text that is parsed is read to its end. -/
theorem Term.statements_of_parse :
    let g : Grammar := ⟨options, constants, finishOf source.toList⟩
    g.statements (g.level options.maxDepth) (lexemes source.toList) = .ok (t, []) := by
  obtain ⟨r, hrun⟩ := Term.whole_of_parse h
  exact Grammar.whole_cases rfl (holds_ne_finish _) hrun

end

/-- **The text of two texts is parsed as the statements of the first and then those of the
second.** -/
theorem Term.parse_joined {options : Options} {constants : Dict Value} {first second : String}
    {t₁ t₂ : Term} (h₁ : Term.parse options constants first = .ok t₁)
    (h₂ : Term.parse options constants second = .ok t₂)
    (hclosed : CommentsClosed 0 first.toList)
    (hlast : ∀ t, (lexemes first.toList).getLast? = some (.token t) → t.token ≠ .semicolon) :
    ∃ first₁ rest₁ first₂ rest₂, t₁.MadeOf first₁ rest₁ ∧ t₂.MadeOf first₂ rest₂ ∧
      Term.parse options constants (joined first second)
        = .ok (.sequence first₁ (rest₁ ++ first₂ :: rest₂)) := by
  obtain ⟨r₁, hrun₁⟩ := Term.whole_of_parse h₁
  obtain ⟨r₂, hrun₂⟩ := Term.whole_of_parse h₂
  have htokens : AllTokens (lexemes first.toList) := by
    obtain ⟨ts, hts⟩ := Grammar.takes_statements rfl (Term.statements_of_parse h₁)
    rw [List.append_nil] at hts
    rw [hts]
    simp [AllTokens]
  obtain ⟨semicolon, distance, hsemicolon, hlexemes⟩ :=
    lexemes_joined hclosed htokens second
  obtain ⟨first₁, rest₁, first₂, rest₂, r, hmade₁, hmade₂, hrun⟩ :=
    Grammar.whole_joined (show (finishOf (joined first second).toList).token = .finish from rfl)
      rfl rfl hsemicolon hrun₁ hrun₂ (holds_ne_finish _) (holds_ne_finish _) hlast distance
  refine ⟨first₁, rest₁, first₂, rest₂, hmade₁, hmade₂, ?_⟩
  rw [← hlexemes] at hrun
  unfold Term.parse
  dsimp only
  rw [StateT.run, hrun]

end Formula
