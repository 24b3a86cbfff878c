import Formula.Term.Parser

/-! # What readers take

`Reads r ts a us` says that a reader answers `a` on tokens `ts`, wherever in a text these stand, and
leaves `us`.  Tokens decide by themselves what is read: places matter to failures only.

A repeating reader is described by `Repeats`, which says what its rounds make of a term and of the
tokens behind it.  This is what lets operators associate to the left: the operand that has been read
so far stands for all rounds before.
-/
namespace Formula

/-- The next token; behind the last stands the end. -/
def ahead (ts : List Token) : Token := ts.headD .finish

@[simp] theorem ahead_nil : ahead [] = .finish := rfl

@[simp] theorem ahead_cons (t : Token) (ts : List Token) : ahead (t :: ts) = t := rfl

theorem length_lt_of_cons_append (t : Token) (ts us : List Token) :
    us.length < (t :: (ts ++ us)).length := by
  rw [List.length_cons, List.length_append]
  omega

namespace Grammar

/-- The reader takes the tokens before `us` from `ts` and answers `a`. -/
def Reads {α : Type} (r : Reader α) (ts : List Token) (a : α) (us : List Token) : Prop :=
  ∀ placed : List PlacedToken, placed.map (·.token) = ts →
    ∃ left : List PlacedToken, left.map (·.token) = us ∧
      r (placed.map .token) = .ok (a, left.map .token)

/-- Rounds of a step that take `a` on `ts` to `b` on `us`, where the step does not answer. -/
inductive Repeats {α : Type} (step : α → Reader (Option α)) :
    α → List Token → α → List Token → Prop
  | done {a : α} {ts : List Token} (h : Reads (step a) ts none ts) : Repeats step a ts a ts
  | more {a b c : α} {ts us vs : List Token} (h : Reads (step a) ts (some b) us)
      (shorter : us.length < ts.length) (rest : Repeats step b us c vs) : Repeats step a ts c vs

section
variable {α β : Type} {ts us vs : List Token}

theorem reads_pure (a : α) (ts : List Token) : Reads (pure a) ts a ts :=
  fun placed hplaced => ⟨placed, hplaced, rfl⟩

theorem Reads.bind {m : Reader α} {f : α → Reader β} {a : α} {b : β} (hm : Reads m ts a us)
    (hf : Reads (f a) us b vs) : Reads (m >>= f) ts b vs := by
  intro placed hplaced
  obtain ⟨left, hleft, hrun⟩ := hm placed hplaced
  obtain ⟨last, hlast, hrun'⟩ := hf left hleft
  refine ⟨last, hlast, ?_⟩
  change (m (placed.map .token) >>= fun out => f out.1 out.2) = _
  rw [hrun]
  exact hrun'

theorem Reads.map {m : Reader α} {a : α} (f : α → β) (hm : Reads m ts a us) :
    Reads (f <$> m) ts (f a) us := by
  rw [map_eq_pure_bind]
  exact hm.bind (reads_pure (f a) us)

theorem Repeats.iterate {step : α → Reader (Option α)} {a b : α} (h : Repeats step a ts b us) :
    ∀ rounds, ts.length < rounds → Reads (iterate step rounds a) ts b us := by
  induction h with
  | done h =>
    intro rounds hrounds
    obtain ⟨rounds, rfl⟩ := Nat.exists_eq_add_of_lt hrounds
    exact h.bind (reads_pure _ _)
  | more h shorter _ ih =>
    intro rounds hrounds
    cases rounds with
    | zero => omega
    | succ rounds => exact h.bind (ih rounds (by omega))

theorem Repeats.whileSome {step : α → Reader (Option α)} {a b : α} (h : Repeats step a ts b us) :
    Reads (whileSome step a) ts b us := by
  intro placed hplaced
  have hlength : ts.length = (placed.map Lexeme.token).length := by simp [← hplaced]
  exact h.iterate ((placed.map Lexeme.token).length + 1) (by omega) placed hplaced

variable {g : Grammar}

theorem reads_peek_cons {f : PlacedToken → Reader β} {b : β} {k : Token}
    (h : ∀ t : PlacedToken, t.token = k → Reads (f t) (k :: ts) b us) :
    Reads (g.peek >>= f) (k :: ts) b us := by
  intro placed hplaced
  obtain ⟨t, placed, rfl, ht, _⟩ := List.map_eq_cons_iff.mp hplaced
  exact h t ht (t :: placed) hplaced

theorem reads_peekSecond_cons {f : PlacedToken → Reader β} {b : β} {k second : Token}
    (h : ∀ t : PlacedToken, t.token = second → Reads (f t) (k :: second :: ts) b us) :
    Reads (g.peekSecond >>= f) (k :: second :: ts) b us := by
  intro placed hplaced
  obtain ⟨t, placed, rfl, _, htail⟩ := List.map_eq_cons_iff.mp hplaced
  obtain ⟨next, placed, rfl, hnext, _⟩ := List.map_eq_cons_iff.mp htail
  exact h next hnext (t :: next :: placed) hplaced

section
variable (hfinish : g.finish.token = .finish)
include hfinish

theorem reads_peek {f : PlacedToken → Reader β} {b : β}
    (h : ∀ t : PlacedToken, t.token = ahead ts → Reads (f t) ts b us) :
    Reads (g.peek >>= f) ts b us := by
  rintro placed rfl
  cases placed with
  | nil => exact h g.finish hfinish [] rfl
  | cons t placed => exact h t rfl (t :: placed) rfl

theorem reads_peekSecond {f : PlacedToken → Reader β} {b : β}
    (h : ∀ t : PlacedToken, t.token = ahead ts.tail → Reads (f t) ts b us) :
    Reads (g.peekSecond >>= f) ts b us := by
  rintro placed rfl
  cases placed with
  | nil => exact h g.finish hfinish [] rfl
  | cons t placed =>
    cases placed with
    | nil => exact h g.finish hfinish [t] rfl
    | cons second placed => exact h second rfl (t :: second :: placed) rfl

end

theorem reads_advance {f : PlacedToken → Reader β} {b : β} {k : Token}
    (h : ∀ t : PlacedToken, t.token = k → Reads (f t) ts b us) :
    Reads (g.advance >>= f) (k :: ts) b us := by
  intro placed hplaced
  obtain ⟨t, placed, rfl, ht, hplaced⟩ := List.map_eq_cons_iff.mp hplaced
  exact h t ht placed hplaced

theorem reads_expect (k : Token) (ts : List Token) : Reads (g.expect k) (k :: ts) () ts := by
  intro placed hplaced
  obtain ⟨t, placed, rfl, ht, hplaced⟩ := List.map_eq_cons_iff.mp hplaced
  refine ⟨placed, hplaced, ?_⟩
  change (if t.token = k then _ else _ : Reader Unit) _ = _
  rw [if_pos ht]
  rfl

theorem reads_accept (k : Token) (ts : List Token) : Reads (g.accept k) (k :: ts) true ts := by
  intro placed hplaced
  obtain ⟨t, placed, rfl, ht, hplaced⟩ := List.map_eq_cons_iff.mp hplaced
  refine ⟨placed, hplaced, ?_⟩
  change (if t.token = k then _ else _ : Reader Bool) _ = _
  rw [if_pos ht]
  rfl

theorem reads_accept_not (hfinish : g.finish.token = .finish) {k : Token} (h : ahead ts ≠ k) :
    Reads (g.accept k) ts false ts := by
  refine reads_peek hfinish fun t ht => ?_
  rw [if_neg (ht ▸ h)]
  exact reads_pure false ts

theorem reads_takeOperator {symbol : String} {fixity : Fixity}
    (hallows : g.options.allows symbol fixity = true) (t : PlacedToken) (k : Token)
    (ts : List Token) : Reads (g.takeOperator t symbol fixity) (k :: ts) () ts := by
  unfold takeOperator
  rw [if_pos hallows]
  exact reads_advance fun _ _ => reads_pure () ts

end
end Grammar
end Formula
