import Formula.Proofs.Layout
import Formula.Proofs.Names
import Formula.Token.Cursor

/-! # Looking ahead and going back

A cursor reads its text piece by piece, and only as far as it is asked to look.  If all of the text
is tokens, nothing of this can be seen: what a read answers depends on nothing but the place of the
cursor, and is the token of that place, or the end where there are no more (`reads_tokens`).  So a
place can be gone back to at any time.

What has been read is always a front part of the tokens, and what has not been read is the rest of
them (`Filled`); one lemma for each action keeps that.
-/
namespace Formula
namespace Cursor

/-! ## What a caller does -/

/-- What a caller can do with a cursor.  It may go to any place, one that was saved or not. -/
inductive Action
  | peek
  | peekAt (n : Nat)
  | advance
  | save
  | restore (mark : Nat)

/-- What the caller is told. -/
inductive Answer
  | read (outcome : Except Error PlacedToken)
  | mark (place : Nat)
  | nothing
  deriving DecidableEq

/-- Carries out an action. -/
def act (c : Cursor) : Action → Answer × Cursor
  | .peek => (.read c.peek.1, c.peek.2)
  | .peekAt n => (.read (c.peekAt n).1, (c.peekAt n).2)
  | .advance => (.read c.advance.1, c.advance.2)
  | .save => (.mark c.save, c)
  | .restore mark => (.nothing, c.restore mark)

/-- The cursor behind a row of actions. -/
def after (c : Cursor) : List Action → Cursor
  | [] => c
  | action :: rest => (c.act action).2.after rest

/-- The answers to a row of actions. -/
def answers (c : Cursor) : List Action → List Answer
  | [] => []
  | action :: rest => (c.act action).1 :: (c.act action).2.answers rest

/-! ## What has been read -/

/-- What has been read and what has not, of a text that is these tokens: a front part of them and
the rest, or all of them and the end. -/
inductive Filled (source : String) (found : List PlacedToken) :
    List PlacedToken → List Lexeme → Prop
  | partly {buffer later : List PlacedToken} (h : buffer ++ later = found) :
      Filled source found buffer (later.map .token)
  | wholly (pending : List Lexeme) :
      Filled source found (found ++ [finishOf source.toList]) pending

/-- The cursor stands in a text that is these tokens. -/
structure Within (source : String) (found : List PlacedToken) (c : Cursor) : Prop where
  source_eq : c.source = source
  filled : Filled source found c.buffer c.pending

section
variable {source : String} {found buffer : List PlacedToken} {pending : List Lexeme}

theorem hasEnded_finish : hasEnded (found ++ [finishOf source.toList]) = true := by
  simp [hasEnded, finishOf]

theorem not_hasEnded (hplain : ∀ t ∈ buffer, t.token ≠ .finish) : hasEnded buffer = false := by
  unfold hasEnded
  cases hlast : buffer.getLast? with
  | none => rfl
  | some t => simpa using hplain t (List.mem_of_getLast? hlast)

/-- The buffer holds the first tokens. -/
theorem Filled.isPrefix (h : Filled source found buffer pending) :
    buffer <+: found ++ [finishOf source.toList] := by
  cases h with
  | @partly _ later h => exact ⟨later ++ [finishOf source.toList], by rw [← h, List.append_assoc]⟩
  | wholly => exact List.prefix_refl _

variable (hplain : ∀ t ∈ found, t.token ≠ .finish)
include hplain

/-- **Reading on finds no fault** and ends when there are enough tokens, or no more. -/
theorem fill_of_filled (h : Filled source found buffer pending) (index : Nat) :
    ∃ buffer' pending', fill source index buffer pending = (.ok (), buffer', pending') ∧
      Filled source found buffer' pending' ∧
      (index < buffer'.length ∨ buffer' = found ++ [finishOf source.toList]) := by
  cases h with
  | wholly =>
    refine ⟨_, pending, ?_, .wholly pending, .inr rfl⟩
    cases pending with
    | nil => rw [fill, if_pos (.inr hasEnded_finish)]
    | cons lexeme rest => cases lexeme <;> rw [fill, if_pos (.inr hasEnded_finish)]
  | @partly _ later h =>
    induction later generalizing buffer with
    | nil =>
      rw [List.append_nil] at h
      rw [List.map_nil, fill, h, not_hasEnded hplain]
      by_cases hindex : index < found.length
      · exact ⟨found, [], if_pos (.inl hindex), .partly (List.append_nil found), .inl hindex⟩
      · exact ⟨_, [], if_neg (by simpa using hindex), .wholly [], .inr rfl⟩
    | cons t later ih =>
      have hended : hasEnded buffer = false := not_hasEnded fun u hu =>
        hplain u (h ▸ List.mem_append_left _ hu)
      rw [List.map_cons, fill, hended]
      by_cases hindex : index < buffer.length
      · exact ⟨buffer, _, if_pos (.inl hindex), .partly h, .inl hindex⟩
      · rw [if_neg (by simpa using hindex)]
        exact ih (by rw [List.append_assoc, List.singleton_append, h])

end

/-! ## Actions -/

section
variable {source : String} {found : List PlacedToken} {c c' : Cursor}
  (hplain : ∀ t ∈ found, t.token ≠ .finish)
include hplain

/-- **Looking ahead answers the token of the place**, or the end, and does not move the cursor. -/
theorem Within.peekAt (h : c.Within source found) (n : Nat) :
    ∃ t, (found ++ [finishOf source.toList])[min (c.place + n) found.length]? = some t ∧
      (c.peekAt n).1 = .ok t ∧ (c.peekAt n).2.place = c.place ∧
      (c.peekAt n).2.Within source found := by
  obtain ⟨buffer, pending, hfill, hfilled, henough⟩ :=
    fill_of_filled hplain h.filled (c.place + n)
  have hnext : c.peekAt n = (.ok ((buffer[min (c.place + n) (buffer.length - 1)]?).getD
      (finishOf c.source.toList)), { c with buffer, pending }) := by
    unfold Cursor.peekAt
    rw [h.source_eq, hfill]
  -- where the buffer ends too soon it holds all tokens, so both bounds cut at the same one
  have hplace : buffer[min (c.place + n) (buffer.length - 1)]?
      = (found ++ [finishOf source.toList])[min (c.place + n) found.length]? := by
    rcases henough with hindex | hall
    · have hle := hfilled.isPrefix.length_le
      rw [List.length_append, List.length_singleton] at hle
      rw [Nat.min_eq_left (by omega), Nat.min_eq_left (by omega)]
      obtain ⟨rest, hrest⟩ := hfilled.isPrefix
      rw [← hrest, List.getElem?_append_left hindex]
    · rw [hall, List.length_append, List.length_singleton, Nat.add_sub_cancel]
  obtain ⟨t, ht⟩ : ∃ t, (found ++ [finishOf source.toList])[min (c.place + n) found.length]?
      = some t := by
    refine ⟨_, List.getElem?_eq_getElem ?_⟩
    rw [List.length_append, List.length_singleton]
    omega
  rw [hnext]
  exact ⟨t, ht, by rw [hplace, ht]; rfl, rfl, h.source_eq, hfilled⟩

/-- **Advancing answers the token of the place** and goes on behind it, unless it is the end. -/
theorem Within.advance (h : c.Within source found) :
    ∃ t, (found ++ [finishOf source.toList])[min c.place found.length]? = some t ∧
      c.advance.1 = .ok t ∧
      c.advance.2.place = (if t.token = .finish then c.place else c.place + 1) ∧
      c.advance.2.Within source found := by
  obtain ⟨t, ht, hread, hplace, hwithin⟩ := h.peekAt hplain 0
  refine ⟨t, ht, ?_⟩
  have hpeek : c.peek = (.ok t, c.peek.2) := Prod.ext hread rfl
  unfold Cursor.advance
  rw [hpeek]
  dsimp only
  split
  · exact ⟨rfl, hplace, hwithin⟩
  · exact ⟨rfl, congrArg (· + 1) hplace, hwithin.source_eq, hwithin.filled⟩

/-- Every action leaves the cursor in its text. -/
theorem Within.act (h : c.Within source found) (action : Action) :
    (c.act action).2.Within source found := by
  cases action with
  | peek =>
    obtain ⟨_, _, _, _, hwithin⟩ := h.peekAt hplain 0
    exact hwithin
  | peekAt n =>
    obtain ⟨_, _, _, _, hwithin⟩ := h.peekAt hplain n
    exact hwithin
  | advance =>
    obtain ⟨_, _, _, _, hwithin⟩ := h.advance hplain
    exact hwithin
  | save => exact h
  | restore mark => exact ⟨h.source_eq, h.filled⟩

theorem Within.after (h : c.Within source found) (actions : List Action) :
    (c.after actions).Within source found := by
  induction actions generalizing c with
  | nil => exact h
  | cons action rest ih => exact ih (h.act hplain action)

/-- **At the same place an action does the same**, whatever has been read. -/
theorem Within.act_eq (h : c.Within source found) (h' : c'.Within source found)
    (hplace : c.place = c'.place) (action : Action) :
    (c.act action).1 = (c'.act action).1 ∧ (c.act action).2.place = (c'.act action).2.place := by
  have hpeek : ∀ n, (c.peekAt n).1 = (c'.peekAt n).1 ∧
      (c.peekAt n).2.place = (c'.peekAt n).2.place := by
    intro n
    obtain ⟨t, ht, hread, hstays, -⟩ := h.peekAt hplain n
    obtain ⟨t', ht', hread', hstays', -⟩ := h'.peekAt hplain n
    rw [← hplace, ht] at ht'
    obtain rfl := Option.some.inj ht'
    exact ⟨hread.trans hread'.symm, by rw [hstays, hstays', hplace]⟩
  cases action with
  | peek => exact ⟨congrArg Answer.read (hpeek 0).1, (hpeek 0).2⟩
  | peekAt n => exact ⟨congrArg Answer.read (hpeek n).1, (hpeek n).2⟩
  | advance =>
    obtain ⟨t, ht, hread, hmoves, -⟩ := h.advance hplain
    obtain ⟨t', ht', hread', hmoves', -⟩ := h'.advance hplain
    rw [← hplace, ht] at ht'
    obtain rfl := Option.some.inj ht'
    refine ⟨congrArg Answer.read (hread.trans hread'.symm), ?_⟩
    change c.advance.2.place = c'.advance.2.place
    rw [hmoves, hmoves', hplace]
  | save => exact ⟨congrArg Answer.mark hplace, hplace⟩
  | restore mark => exact ⟨rfl, rfl⟩

theorem Within.answers_eq (h : c.Within source found) (h' : c'.Within source found)
    (hplace : c.place = c'.place) (actions : List Action) :
    c.answers actions = c'.answers actions := by
  induction actions generalizing c c' with
  | nil => rfl
  | cons action rest ih =>
    obtain ⟨hanswer, hplaces⟩ := h.act_eq hplain h' hplace action
    exact congrArg₂ List.cons hanswer (ih (h.act hplain action) (h'.act hplain action) hplaces)

end

/-- **A cursor reads the tokens of its text.**  Let a text be tokens, the last of which is the end.
Whatever has been done with a cursor on it, looking `n` places ahead answers the token that stands
there, or the end, and does not move the cursor; advancing answers the token at the cursor, and goes
on by one unless that is the end.  A cursor that is sent back to a place answers everything as it
did there, whatever has been read in the meantime. -/
theorem reads_tokens {source : String} {tokens : List PlacedToken}
    (h : tokenize source = .ok tokens) (before : List Action) :
    tokens.getLast? = some (finishOf source.toList) ∧
      let c := (start source).after before
      (∀ n, ∃ t, tokens[min (c.place + n) (tokens.length - 1)]? = some t ∧
        (c.peekAt n).1 = .ok t ∧ (c.peekAt n).2.place = c.place) ∧
      (∃ t, tokens[min c.place (tokens.length - 1)]? = some t ∧ c.advance.1 = .ok t ∧
        c.advance.2.place = if t.token = .finish then c.place else c.place + 1) ∧
      ∀ between later, ((c.after between).restore c.save).answers later = c.answers later := by
  obtain ⟨found, hfound, rfl⟩ := Scan.ok_of_map h
  have hlexemes : lexemes source.toList = found.map .token := tokensOf_eq_ok_iff.mp hfound
  have hplain : ∀ t ∈ found, t.token ≠ .finish := by
    intro t ht
    refine holds_lexemesFrom (T := (· ≠ .finish)) (fun c rest k hk => ?_) 0 0 source.toList t ?_
    · rintro rfl
      exact Scan.reading_ne_finish c rest hk
    · change Lexeme.token t ∈ lexemes source.toList
      rw [hlexemes]
      exact List.mem_map_of_mem ht
  have hstart : (start source).Within source found :=
    ⟨rfl, by rw [start, hlexemes]; exact .partly rfl⟩
  refine ⟨List.getLast?_concat, ?_⟩
  intro c
  have hc : c.Within source found := hstart.after hplain before
  rw [List.length_append, List.length_singleton, Nat.add_sub_cancel]
  refine ⟨fun n => ?_, ?_, fun between later => ?_⟩
  · obtain ⟨t, ht, hread, hplace, -⟩ := hc.peekAt hplain n
    exact ⟨t, ht, hread, hplace⟩
  · obtain ⟨t, ht, hread, hplace, -⟩ := hc.advance hplain
    exact ⟨t, ht, hread, hplace⟩
  · have hback := hc.after hplain between
    have hrestored : ((c.after between).restore c.save).Within source found :=
      ⟨hback.source_eq, hback.filled⟩
    exact hrestored.answers_eq hplain hc rfl later

/-- From behind the first token a caller looks far past the end and advances to it, and goes
back. -/
theorem reads_tokens_past_end :
    let tokens : List PlacedToken :=
      [⟨.name "a", 0, 1⟩, ⟨.sign .times, 1, 4⟩, ⟨.name "b", 4, 5⟩, ⟨.finish, 5, 5⟩]
    let c := (start "a•b").after [.advance]
    let later : List Action := [.advance, .peekAt 1, .peek]
    tokenize "a•b" = .ok tokens ∧ c.place = 1 ∧ (c.peekAt 9).1 = .ok ⟨.finish, 5, 5⟩ ∧
      ((c.after [.peekAt 9, .advance, .advance, .advance]).restore c.save).answers later
        = c.answers later ∧
      c.answers later = [.read (.ok ⟨.sign .times, 1, 4⟩), .read (.ok ⟨.finish, 5, 5⟩),
        .read (.ok ⟨.name "b", 4, 5⟩)] := by
  have htokens : tokenize "a•b" = .ok [⟨.name "a", 0, 1⟩, ⟨.sign .times, 1, 4⟩,
      ⟨.name "b", 4, 5⟩, ⟨.finish, 5, 5⟩] := by decide +kernel
  have hplace : ((start "a•b").after [.advance]).place = 1 := by decide +kernel
  obtain ⟨-, hlook, -, hback⟩ := reads_tokens htokens [.advance]
  refine ⟨htokens, hplace, ?_, hback _ _, by decide +kernel⟩
  obtain ⟨t, ht, hread, -⟩ := hlook 9
  rw [hplace] at ht
  rw [hread, ← Option.some.inj ht]

end Cursor
end Formula
