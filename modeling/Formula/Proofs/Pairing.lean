import Formula.Term.Parser
import Mathlib.Data.List.Forall2

/-! # Two readings side by side

A reader is compared with another one on pieces of text that correspond one by one; on the right
more may stand behind them.  Both have to answer the same and to leave pieces that correspond, or to
fail in ways that correspond (`Pairing.Agrees`).  As with runs, failures of one side may be excused.

Where the left text is at its end and the right one goes on, it goes on with a semicolon.  A reader
that reads an expression makes no difference between the two, apart from failing; so all failures
of the left reading are excused then.
-/
namespace Formula
namespace Grammar

/-- What it takes for two readings to correspond. -/
structure Pairing where
  /-- The pieces of text correspond. -/
  pieces : Lexeme → Lexeme → Prop
  /-- The failures correspond. -/
  failures : Failure → Failure → Prop
  /-- What stands on the right behind the pieces that correspond. -/
  tail : List Lexeme
  /-- The left reading may fail so, whatever the right one does. -/
  excusesLeft : Failure → Prop
  /-- The right reading may fail so, whatever the left one does. -/
  excusesRight : Failure → Prop

/-- From `s` to `r` a reader takes tokens. -/
def Takes (s r : List Lexeme) : Prop := ∃ ts : List PlacedToken, s = ts.map .token ++ r

theorem Takes.refl (s : List Lexeme) : Takes s s := ⟨[], rfl⟩

theorem Takes.trans {s r q : List Lexeme} (h : Takes s r) (hr : Takes r q) : Takes s q := by
  obtain ⟨ts, rfl⟩ := h
  obtain ⟨us, rfl⟩ := hr
  exact ⟨ts ++ us, by rw [List.map_append, List.append_assoc]⟩

theorem takes_cons (t : PlacedToken) (s : List Lexeme) : Takes (.token t :: s) s := ⟨[t], rfl⟩

theorem Takes.length_le {s r : List Lexeme} (h : Takes s r) : r.length ≤ s.length := by
  obtain ⟨ts, rfl⟩ := h
  rw [List.length_append]
  exact Nat.le_add_left _ _

theorem reader_bind {α β : Type} (m : Reader α) (f : α → Reader β) (s : List Lexeme) :
    (m >>= f) s = m s >>= fun answer => f answer.1 answer.2 := rfl

theorem Takes.getLast? {s r : List Lexeme} (h : Takes s r) {l : Lexeme} (hl : r.getLast? = some l) :
    s.getLast? = some l := by
  obtain ⟨ts, rfl⟩ := h
  rw [List.getLast?_append, hl]
  rfl

/-- How a reading of the pieces `s` fails: at rejected text that only tokens stand before, or
because tokens are no expression or reach for what is not permitted. -/
inductive FailsOn (s : List Lexeme) : Failure → Prop
  | rejected {fault : LexFault} {start stop : Nat} {rest : List Lexeme}
      (h : Takes s (.rejected fault start stop :: rest)) : FailsOn s ⟨.lex fault, start⟩
  | parse (fault : ParseFault) (offset : Nat) : FailsOn s ⟨.parse fault, offset⟩
  | access (fault : AccessFault) (offset : Nat) : FailsOn s ⟨.access fault, offset⟩

theorem FailsOn.longer {s r : List Lexeme} {f : Failure} (h : FailsOn r f) (hr : Takes s r) :
    FailsOn s f := by
  cases h with
  | rejected h => exact .rejected (hr.trans h)
  | parse fault offset => exact .parse fault offset
  | access fault offset => exact .access fault offset

/-- Looking at the next token fails only where it is none. -/
theorem failsOn_of_peek {g : Grammar} {s : List Lexeme} {f : Failure} (h : g.peek s = .error f) :
    FailsOn s f := by
  cases s with
  | nil => cases h
  | cons l rest =>
    cases l with
    | token t => cases h
    | rejected fault start stop =>
      cases h
      exact .rejected (Takes.refl _)

theorem bind_of_ok {α β : Type} {m : Reader α} {f : α → Reader β} {s r : List Lexeme} {a : α}
    (h : m s = .ok (a, r)) : (m >>= f) s = f a r := by
  rw [reader_bind, h]
  rfl

theorem ok_of_bind {α β : Type} {m : Reader α} {f : α → Reader β} {s r : List Lexeme} {b : β}
    (h : (m >>= f) s = .ok (b, r)) : ∃ a q, m s = .ok (a, q) ∧ f a q = .ok (b, r) := by
  rw [reader_bind] at h
  cases hm : m s with
  | error failure => rw [hm] at h; cases h
  | ok answer =>
    rw [hm] at h
    exact ⟨answer.1, answer.2, rfl, h⟩

namespace Pairing

section
variable (J : Pairing)

/-- The pieces on the left correspond to those on the right before the tail. -/
def Continues (s s' : List Lexeme) : Prop :=
  ∃ front, List.Forall₂ J.pieces s front ∧ s' = front ++ J.tail

/-- The tokens are the same, and so are the failures at them. -/
structure Matches (t t' : PlacedToken) : Prop where
  token : t.token = t'.token
  failures : ∀ fault, J.failures ⟨fault, t.start⟩ ⟨fault, t'.start⟩

/-- Behind the left text stands the end, on the right the end or a semicolon. -/
structure Ends (t t' : PlacedToken) : Prop where
  finish : t.token = .finish
  right : J.Matches t t' ∨ t'.token = .semicolon ∧ ∀ failure, J.excusesLeft failure

/-- The next tokens. -/
inductive Next : List Lexeme → List Lexeme → PlacedToken → PlacedToken → Prop
  | token {t t' : PlacedToken} {rest rest' : List Lexeme} (h : J.Matches t t')
      (hrest : J.Continues rest rest') : Next (.token t :: rest) (.token t' :: rest') t t'
  | finish {t t' : PlacedToken} {s' : List Lexeme} (h : J.Ends t t') (hs : J.Continues [] s') :
      Next [] s' t t'

/-- The grammars differ in the place of the end and the limit of nesting only, pieces that
correspond are the same tokens or are rejected for the same fault, and the tail is empty or begins
with a semicolon. -/
structure Sound (g g' : Grammar) : Prop where
  token : ∀ t l, J.pieces (.token t) l → ∃ t', l = .token t' ∧ J.Matches t t'
  rejected : ∀ fault start stop l, J.pieces (.rejected fault start stop) l →
    ∃ start' stop', l = .rejected fault start' stop' ∧
      J.failures ⟨.lex fault, start⟩ ⟨.lex fault, start'⟩
  tail : J.tail = [] ∧ J.Ends g.finish g'.finish ∨
    ∃ t more, J.tail = .token t :: more ∧ J.Ends g.finish t
  constants : g.constants = g'.constants
  allows : ∀ symbol fixity, g.options.allows symbol fixity = g'.options.allows symbol fixity
  conditional : g.options.allowsConditional = g'.options.allowsConditional
  array : g.options.allowsArray = g'.options.allowsArray
  member : g.options.allowMemberAccess = g'.options.allowMemberAccess
  definition : g.options.allowsDefinition = g'.options.allowsDefinition
  namedOp : ∀ name, g.options.namedOp? name = g'.options.namedOp? name

/-- The same answers, with what is left of the pieces `s` on the left when tokens have been taken,
or failures that correspond or are excused. -/
inductive Outcome (s : List Lexeme) {α β : Type} (Q : α → List Lexeme → β → Prop) :
    Except Failure (α × List Lexeme) → Except Failure (β × List Lexeme) → Prop
  | ok {a : α} {b : β} {r r' : List Lexeme} (h : Q a r b) (htaken : Takes s r)
      (hr : J.Continues r r') : Outcome s Q (.ok (a, r)) (.ok (b, r'))
  | error {f f' : Failure} (h : J.failures f f') (hfails : FailsOn s f) :
      Outcome s Q (.error f) (.error f')
  | left {f : Failure} (h : J.excusesLeft f) (y : Except Failure (β × List Lexeme)) :
      Outcome s Q (.error f) y
  | right {f : Failure} (h : J.excusesRight f) (x : Except Failure (α × List Lexeme)) :
      Outcome s Q x (.error f)

/-- On these pieces the readers do the same. -/
def Agrees (s s' : List Lexeme) {α β : Type} (Q : α → List Lexeme → β → Prop) (m : Reader α)
    (m' : Reader β) : Prop :=
  J.Outcome s Q (m s) (m' s')

/-- On these pieces the readers do the same, or the left one stops at its end with an answer that
satisfies `P`, and all its failures are excused. -/
def AgreesOrStops (s s' : List Lexeme) {α β : Type} (P : α → Prop) (Q : α → List Lexeme → β → Prop)
    (m : Reader α) (m' : Reader β) : Prop :=
  J.Agrees s s' Q m m' ∨
    (∀ failure, J.excusesLeft failure) ∧ ∃ a, P a ∧ m s = .ok (a, [])

/-- On all pieces that correspond the readers do the same. -/
def Pairs {α : Type} (m m' : Reader α) : Prop :=
  ∀ s s', J.Continues s s' → J.Agrees s s' (fun a _ b => a = b) m m'

/-- On all pieces that correspond the steps do the same, and take a piece if they answer. -/
def Steps {α β : Type} (F : α → β → Prop) (step : α → Reader (Option α))
    (step' : β → Reader (Option β)) : Prop :=
  ∀ a b, F a b → ∀ s s', J.Continues s s' →
    J.Agrees s s' (fun x r y => Option.Rel F x y ∧ (x.isSome = true → r.length < s.length))
      (step a) (step' b)

end

section
variable {J : Pairing} {s s' : List Lexeme} {α β γ δ : Type} {Q R : α → List Lexeme → β → Prop}
  {S : γ → List Lexeme → δ → Prop}

theorem Continues.length_eq (h : J.Continues s s') : s'.length = s.length + J.tail.length := by
  obtain ⟨front, hfront, rfl⟩ := h
  rw [List.length_append, hfront.length_eq]

theorem Outcome.longer {r : List Lexeme} {x : Except Failure (α × List Lexeme)}
    {y : Except Failure (β × List Lexeme)} (h : J.Outcome r Q x y) (hr : Takes s r) :
    J.Outcome s Q x y := by
  cases h with
  | ok hab htaken hs => exact .ok hab (hr.trans htaken) hs
  | error h hfails => exact .error h (hfails.longer hr)
  | left h y => exact .left h y
  | right h x => exact .right h x

/-! ## Laws of readers -/

theorem Agrees.pure (hs : J.Continues s s') {a : α} {b : β} (h : Q a s b) :
    J.Agrees s s' Q (pure a) (pure b) := .ok h (Takes.refl s) hs

theorem Agrees.throw {f f' : Failure} (h : J.failures f f') (hfails : FailsOn s f) :
    J.Agrees s s' Q (throw f) (throw f') := .error h hfails

theorem Agrees.bind {m : Reader α} {m' : Reader β} {f : α → Reader γ} {f' : β → Reader δ}
    (h : J.Agrees s s' R m m')
    (hf : ∀ a b r r', R a r b → Takes s r → J.Continues r r' → J.Agrees r r' S (f a) (f' b)) :
    J.Agrees s s' S (m >>= f) (m' >>= f') := by
  unfold Agrees at h ⊢
  rw [reader_bind, reader_bind]
  generalize m s = x at h
  generalize m' s' = y at h
  cases h with
  | @ok a b r r' hab htaken hr => exact (hf a b r r' hab htaken hr).longer htaken
  | error h hfails => exact .error h hfails
  | left h y => exact .left h _
  | right h x => exact .right h _

theorem Agrees.mono {m : Reader α} {m' : Reader β} (h : J.Agrees s s' R m m')
    (hR : ∀ a r b, Takes s r → R a r b → Q a r b) : J.Agrees s s' Q m m' := by
  unfold Agrees at h ⊢
  generalize m s = x at h
  generalize m' s' = y at h
  cases h with
  | ok hab htaken hr => exact .ok (hR _ _ _ htaken hab) htaken hr
  | error h hfails => exact .error h hfails
  | left h y => exact .left h y
  | right h x => exact .right h x

theorem Agrees.map {m : Reader α} {m' : Reader β} (h : J.Agrees s s' R m m') {f : α → γ}
    {f' : β → δ} (hf : ∀ a r b, R a r b → S (f a) r (f' b)) :
    J.Agrees s s' S (f <$> m) (f' <$> m') := by
  rw [map_eq_pure_bind, map_eq_pure_bind]
  exact h.bind fun a b r _ hab _ hr => .pure hr (hf a r b hab)

/-- A reader that may stop at the end, behind one that does not. -/
theorem Agrees.bind_orStops {P : γ → Prop} {m : Reader α} {m' : Reader β} {f : α → Reader γ}
    {f' : β → Reader δ} (h : J.Agrees s s' R m m')
    (hf : ∀ a b r r', R a r b → Takes s r → J.Continues r r' →
      J.AgreesOrStops r r' P S (f a) (f' b)) :
    J.AgreesOrStops s s' P S (m >>= f) (m' >>= f') := by
  unfold AgreesOrStops Agrees
  rw [reader_bind, reader_bind]
  unfold Agrees at h
  generalize m s = x at h
  generalize m' s' = y at h
  cases h with
  | @ok a b r r' hab htaken hr =>
    rcases hf a b r r' hab htaken hr with hagrees | ⟨hexcused, c, hc, hrun⟩
    · exact .inl (hagrees.longer htaken)
    · exact .inr ⟨hexcused, c, hc, hrun⟩
  | error h hfails => exact .inl (.error h hfails)
  | left h y => exact .inl (.left h _)
  | right h x => exact .inl (.right h _)

theorem AgreesOrStops.map {P : α → Prop} {m : Reader α} {m' : Reader β}
    (h : J.AgreesOrStops s s' P R m m') {f : α → γ} {f' : β → δ}
    (hf : ∀ a r b, R a r b → S (f a) r (f' b)) :
    J.AgreesOrStops s s' (fun _ => True) S (do pure (f (← m))) (do pure (f' (← m'))) := by
  rcases h with hagrees | ⟨hexcused, a, -, hrun⟩
  · exact .inl (hagrees.bind fun a b r _ hab _ hr => .pure hr (hf a r b hab))
  · refine .inr ⟨hexcused, f a, trivial, ?_⟩
    rw [reader_bind, hrun]
    rfl

/-- Rounds of steps that may stop at the end of the left text come to the same end, or stop there;
each round takes a piece. -/
theorem AgreesOrStops.iterate {F : α → β → Prop} {P : Option α → Prop}
    {step : α → Reader (Option α)} {step' : β → Reader (Option β)}
    (hstep : ∀ a b, F a b → ∀ s s', J.Continues s s' →
      J.AgreesOrStops s s' P
        (fun x r y => Option.Rel F x y ∧ (x.isSome = true → r.length < s.length))
        (step a) (step' b))
    (hend : ∀ next, P (some next) → ∀ rounds,
      ∃ last, Grammar.iterate step rounds next [] = .ok (last, []))
    {a : α} {b : β} (hab : F a b) {rounds rounds' : Nat} (hs : J.Continues s s')
    (hrounds : s.length < rounds) (hrounds' : s'.length < rounds') :
    J.AgreesOrStops s s' (fun _ => ∃ x, P x) (fun x _ y => F x y)
      (Grammar.iterate step rounds a) (Grammar.iterate step' rounds' b) := by
  induction rounds generalizing rounds' s s' a b with
  | zero => omega
  | succ rounds ih =>
    obtain ⟨rounds', rfl⟩ := Nat.exists_eq_add_of_lt hrounds'
    rcases hstep a b hab s s' hs with hagrees | ⟨hexcused, x, hx, hrun⟩
    · refine hagrees.bind_orStops fun x y r r' hxy _ hr => ?_
      obtain ⟨hrel, hshorter⟩ := hxy
      cases hrel with
      | none => exact .inl (.pure hr hab)
      | some hcd =>
        have hless := hshorter rfl
        have hlength := hs.length_eq
        have hlength' := hr.length_eq
        exact ih hcd hr (by omega) (by omega)
    · refine .inr ⟨hexcused, ?_⟩
      rw [Grammar.iterate, reader_bind, hrun]
      cases x with
      | none => exact ⟨a, ⟨none, hx⟩, rfl⟩
      | some next =>
        obtain ⟨last, hlast⟩ := hend next hx rounds
        exact ⟨last, ⟨some next, hx⟩, hlast⟩

/-- Rounds of steps that do the same come to the same end. -/
theorem Agrees.iterate {F : α → β → Prop} {step : α → Reader (Option α)}
    {step' : β → Reader (Option β)} (hstep : J.Steps F step step') {a : α} {b : β} (hab : F a b)
    {rounds rounds' : Nat} (hs : J.Continues s s') (hrounds : s.length < rounds)
    (hrounds' : s'.length < rounds') :
    J.Agrees s s' (fun x _ y => F x y) (Grammar.iterate step rounds a)
      (Grammar.iterate step' rounds' b) := by
  have h := AgreesOrStops.iterate (P := fun _ => False)
    (fun a b hab s s' hs => .inl (hstep a b hab s s' hs)) (fun _ h => h.elim) hab hs hrounds
    hrounds'
  rcases h with hagrees | ⟨-, -, ⟨-, hnever⟩, -⟩
  · exact hagrees
  · exact hnever.elim

theorem Agrees.whileSome {F : α → β → Prop} {step : α → Reader (Option α)}
    {step' : β → Reader (Option β)} (hstep : J.Steps F step step') {a : α} {b : β} (hab : F a b)
    (hs : J.Continues s s') :
    J.Agrees s s' (fun x _ y => F x y) (whileSome step a) (whileSome step' b) :=
  show J.Agrees s s' _ (Grammar.iterate step (s.length + 1) a) _ from
    .iterate hstep hab hs (Nat.lt_succ_self _) (Nat.lt_succ_self _)

/-! ## What follows where the left reading answers -/

section
variable (hright : ∀ failure, ¬ J.excusesRight failure) {m : Reader α} {m' : Reader β} {a : α}
  {r : List Lexeme} (hrun : m s = .ok (a, r))
include hright hrun

theorem Agrees.of_ok (h : J.Agrees s s' Q m m') :
    ∃ b r', m' s' = .ok (b, r') ∧ Q a r b ∧ Takes s r ∧ J.Continues r r' := by
  unfold Agrees at h
  rw [hrun] at h
  generalize m' s' = y at h
  cases h with
  | ok hab htaken hr => exact ⟨_, _, rfl, hab, htaken, hr⟩
  | right hexcused => exact absurd hexcused (hright _)

theorem AgreesOrStops.of_ok {P : α → Prop} (h : J.AgreesOrStops s s' P Q m m') :
    (∃ b r', m' s' = .ok (b, r') ∧ Q a r b ∧ Takes s r ∧ J.Continues r r') ∨
      P a ∧ r = [] ∧ ∀ failure, J.excusesLeft failure := by
  rcases h with hagrees | ⟨hexcused, last, hlast, hstops⟩
  · exact .inl (hagrees.of_ok hright hrun)
  · rw [hrun] at hstops
    cases hstops
    exact .inr ⟨hlast, rfl, hexcused⟩

end

/-! ## Single tokens -/

variable {g g' : Grammar} {t t' : PlacedToken} {rest rest' : List Lexeme}

theorem Matches.fail (h : J.Matches t t') (fault : ParseFault) :
    J.Agrees s s' Q (fail t fault) (fail t' fault) := .error (h.failures _) (.parse _ _)

/-- At the end both readings fail, or the left one alone, which is excused then. -/
theorem Ends.fail (h : J.Ends t t') (fault : Token → ParseFault) :
    J.Agrees s s' Q (fail t (fault t.token)) (fail t' (fault t'.token)) := by
  rcases h.right with hsame | ⟨-, hexcused⟩
  · rw [hsame.token]
    exact hsame.fail _
  · exact .left (hexcused _) _

/-- What a reader sees at the end of the left text. -/
theorem Ends.tokens (h : J.Ends t t') :
    t.token = .finish ∧ (t'.token = .finish ∨ t'.token = .semicolon) := by
  refine ⟨h.finish, ?_⟩
  rcases h.right with hsame | ⟨hright, -⟩
  · exact .inl (hsame.token.symm.trans h.finish)
  · exact .inr hright

theorem Ends.both (h : J.Ends t t') {P : Token → Prop} (hfinish : P .finish)
    (hsemicolon : P .semicolon) : P t.token ∧ P t'.token := by
  obtain ⟨hleft, hright | hright⟩ := h.tokens <;> rw [hleft, hright]
  · exact ⟨hfinish, hfinish⟩
  · exact ⟨hfinish, hsemicolon⟩

theorem Ends.ne (h : J.Ends t t') {k : Token} (hfinish : k ≠ .finish)
    (hsemicolon : k ≠ .semicolon) : t.token ≠ k ∧ t'.token ≠ k :=
  h.both (P := (· ≠ k)) hfinish.symm hsemicolon.symm

theorem Agrees.advance (hrest : J.Continues rest rest') :
    J.Agrees (.token t :: rest) (.token t' :: rest') (fun a r b => a = t ∧ r = rest ∧ b = t')
      g.advance g'.advance :=
  .ok ⟨rfl, rfl, rfl⟩ (takes_cons _ _) hrest

theorem peekSecond_cons (g : Grammar) (l : Lexeme) (rest : List Lexeme) :
    g.peekSecond (l :: rest) = (fun answer => (answer.1, l :: rest)) <$> g.peek rest := by
  cases rest with
  | nil => rfl
  | cons second rest => cases second <;> rfl

section
variable (hJ : J.Sound g g')
include hJ

theorem Sound.finish : g.finish.token = .finish := by
  rcases hJ.tail with ⟨-, h⟩ | ⟨_, _, -, h⟩
  · exact h.finish
  · exact h.finish

theorem Sound.cons (hs : J.Continues (.token t :: rest) s') :
    ∃ t' rest', s' = .token t' :: rest' ∧ J.Matches t t' ∧ J.Continues rest rest' := by
  obtain ⟨front, hfront, rfl⟩ := hs
  cases hfront with
  | cons hl hrest =>
    obtain ⟨t', rfl, ht⟩ := hJ.token t _ hl
    exact ⟨t', _, rfl, ht, _, hrest, rfl⟩

/-- Both readings see the next tokens, or rejected text. -/
theorem Sound.peeks (hs : J.Continues s s') :
    (∃ t t', J.Next s s' t t' ∧ g.peek s = .ok (t, s) ∧ g'.peek s' = .ok (t', s')) ∨
      ∃ f f', J.failures f f' ∧ g.peek s = .error f ∧ g'.peek s' = .error f' := by
  obtain ⟨front, hfront, rfl⟩ := hs
  cases hfront with
  | nil =>
    have hnil : J.Continues [] ([] ++ J.tail) := ⟨[], .nil, rfl⟩
    rcases hJ.tail with ⟨htail, hend⟩ | ⟨t, more, htail, hend⟩
    all_goals
      rw [htail] at hnil ⊢
      exact .inl ⟨_, _, .finish hend hnil, rfl, rfl⟩
  | @cons l l' rest front hl hfront =>
    have hrest : J.Continues rest (front ++ J.tail) := ⟨front, hfront, rfl⟩
    cases l with
    | token t =>
      obtain ⟨t', rfl, ht⟩ := hJ.token t l' hl
      exact .inl ⟨t, t', .token ht hrest, rfl, rfl⟩
    | rejected fault start stop =>
      obtain ⟨start', stop', rfl, hfault⟩ := hJ.rejected fault start stop l' hl
      exact .inr ⟨_, _, hfault, rfl, rfl⟩

/-- What both readings do at the next tokens, if the left one may stop at its end. -/
theorem AgreesOrStops.peek (hs : J.Continues s s') {P : γ → Prop} {f : PlacedToken → Reader γ}
    {f' : PlacedToken → Reader δ}
    (hf : ∀ t t', J.Next s s' t t' → J.AgreesOrStops s s' P S (f t) (f' t')) :
    J.AgreesOrStops s s' P S (g.peek >>= f) (g'.peek >>= f') := by
  unfold AgreesOrStops Agrees
  rw [reader_bind, reader_bind]
  rcases hJ.peeks hs with ⟨t, t', hnext, ht, ht'⟩ | ⟨e, e', he, ht, ht'⟩
  · rw [ht, ht']
    exact hf t t' hnext
  · rw [ht, ht']
    exact .inl (.error he (failsOn_of_peek ht))

/-- What both readings do at the next tokens. -/
theorem Agrees.peek (hs : J.Continues s s') {f : PlacedToken → Reader γ}
    {f' : PlacedToken → Reader δ}
    (hf : ∀ t t', J.Next s s' t t' → J.Agrees s s' S (f t) (f' t')) :
    J.Agrees s s' S (g.peek >>= f) (g'.peek >>= f') := by
  have h := AgreesOrStops.peek (P := fun _ => False) hJ hs fun t t' hnext => .inl (hf t t' hnext)
  rcases h with hagrees | ⟨-, -, hnever, -⟩
  · exact hagrees
  · exact hnever.elim

/-- What both readings do at the tokens behind the next ones. -/
theorem Agrees.peekSecond (hrest : J.Continues rest rest') {f : PlacedToken → Reader γ}
    {f' : PlacedToken → Reader δ}
    (hf : ∀ u u', J.Next rest rest' u u' →
      J.Agrees (.token t :: rest) (.token t' :: rest') S (f u) (f' u')) :
    J.Agrees (.token t :: rest) (.token t' :: rest') S (g.peekSecond >>= f)
      (g'.peekSecond >>= f') := by
  unfold Agrees
  rw [reader_bind, reader_bind, peekSecond_cons, peekSecond_cons]
  rcases hJ.peeks hrest with ⟨u, u', hnext, hu, hu'⟩ | ⟨e, e', he, hu, hu'⟩
  · rw [hu, hu']
    exact hf u u' hnext
  · rw [hu, hu']
    exact .error he ((failsOn_of_peek hu).longer (takes_cons _ _))

/-- Takes the next tokens.  At the end nothing can be made of them. -/
theorem Agrees.take (hs : J.Continues s s') {f : PlacedToken → Reader γ}
    {f' : PlacedToken → Reader δ}
    (hf : ∀ t t' rest rest', s = .token t :: rest → J.Matches t t' → J.Continues rest rest' →
      J.Agrees rest rest' S (f t) (f' t'))
    (hend : ∀ t t' r', s = [] → J.Ends t t' → J.Agrees [] r' S (f t) (f' t')) :
    J.Agrees s s' S (g.advance >>= f) (g'.advance >>= f') := by
  unfold Grammar.advance
  simp only [bind_assoc, pure_bind]
  refine Agrees.peek hJ hs fun t t' hnext => ?_
  cases hnext with
  | @token _ _ rest rest' ht hrest =>
    exact (hf t t' rest rest' rfl ht hrest).longer (takes_cons _ _)
  | @finish _ _ s' h _ => exact hend t t' s'.tail rfl h

theorem Agrees.takeOperator (ht : J.Matches t t') (hrest : J.Continues rest rest')
    (symbol : String) (fixity : Fixity) :
    J.Agrees (.token t :: rest) (.token t' :: rest') (fun _ r _ => r = rest)
      (g.takeOperator t symbol fixity) (g'.takeOperator t' symbol fixity) := by
  unfold Grammar.takeOperator
  rw [hJ.allows]
  split
  · exact (Agrees.advance hrest).bind fun _ _ _ _ h _ hr => .pure hr h.2.1
  · exact ht.fail _

variable (hs : J.Continues s s') {k : Token} (hfinish : k ≠ .finish) (hsemicolon : k ≠ .semicolon)
include hs hfinish hsemicolon

theorem Agrees.accept :
    J.Agrees s s' (fun a r b => a = b ∧ (a = true → r.length < s.length)) (g.accept k)
      (g'.accept k) := by
  refine Agrees.peek hJ hs fun t t' hnext => ?_
  cases hnext with
  | @token _ _ rest _ ht hrest =>
    rw [ht.token]
    split
    · refine (Agrees.advance hrest).bind fun _ _ _ _ h _ hr => .pure hr ⟨rfl, fun _ => ?_⟩
      rw [h.2.1]
      exact Nat.lt_succ_self _
    · exact .pure hs ⟨rfl, nofun⟩
  | finish h =>
    obtain ⟨hleft, hright⟩ := h.ne hfinish hsemicolon
    rw [if_neg hleft, if_neg hright]
    exact .pure hs ⟨rfl, nofun⟩

theorem Agrees.expect :
    J.Agrees s s' (fun _ r _ => r.length < s.length) (g.expect k) (g'.expect k) := by
  refine Agrees.peek hJ hs fun t t' hnext => ?_
  cases hnext with
  | @token _ _ rest _ ht hrest =>
    rw [ht.token]
    split
    · refine (Agrees.advance hrest).bind fun _ _ _ _ h _ hr => .pure hr ?_
      rw [h.2.1]
      exact Nat.lt_succ_self _
    · exact ht.fail _
  | finish h =>
    obtain ⟨hleft, hright⟩ := h.ne hfinish hsemicolon
    rw [if_neg hleft, if_neg hright]
    exact h.fail _

end

theorem Agrees.expectWord (hJ : J.Sound g g') (hs : J.Continues s s') (word : String) :
    J.Agrees s s' (fun _ r _ => r.length < s.length) (g.expectWord word) (g'.expectWord word) := by
  refine Agrees.peek hJ hs fun t t' hnext => ?_
  cases hnext with
  | @token _ _ rest _ ht hrest =>
    rw [ht.token]
    split
    · refine (Agrees.advance hrest).bind fun _ _ _ _ h _ hr => .pure hr ?_
      rw [h.2.1]
      exact Nat.lt_succ_self _
    · exact ht.fail _
  | finish h =>
    obtain ⟨hleft, hright⟩ := h.ne (k := .name word) nofun nofun
    rw [if_neg hleft, if_neg hright]
    exact h.fail (.expectedWord word)

/-- A reader that stops at the end of the left text does not find a bracket there. -/
theorem AgreesOrStops.expect (hJ : J.Sound g g') {P : α → Prop} {m m' : Reader α}
    (h : J.AgreesOrStops s s' P (fun a _ b => a = b) m m') {k : Token} (hfinish : k ≠ .finish)
    (hsemicolon : k ≠ .semicolon) :
    J.Agrees s s' (fun a _ b => a = b)
      (do
        let a ← m
        g.expect k
        pure a)
      (do
        let a ← m'
        g'.expect k
        pure a) := by
  rcases h with hagrees | ⟨hexcused, a, -, hrun⟩
  · refine hagrees.bind fun a b r r' hab _ hr => ?_
    exact (Agrees.expect hJ hr hfinish hsemicolon).bind fun _ _ _ _ _ _ hr => .pure hr hab
  · have hnone : g.expect k [] = .error ⟨.parse (.expected k g.finish.token), g.finish.start⟩ := by
      change (if g.finish.token = k then _ else _ : Reader Unit) [] = _
      rw [if_neg (hJ.finish ▸ hfinish.symm)]
      rfl
    unfold Agrees
    rw [reader_bind, hrun]
    change J.Outcome s _ (g.expect k [] >>= _) _
    rw [hnone]
    exact .left (hexcused _) _

end
end Pairing
end Grammar
end Formula
