import Formula.Proofs.Cutting
import Formula.Proofs.Names
import Formula.Proofs.Raising

/-! # White space and comments between tokens

White space and closed comments may be put in before and behind every token of a text: the text has
the same tokens as before, and under every configuration and all constants it compiles to the same
program, or fails for the same fault (`compile_layout`).

A text can be cut where a token begins or ends (`Borders`).  In front of the cut every token stays
what it was, and every comment is closed, because a token stands behind it; and no reader of the
grammar asks where a token stands, but to report a fault.
-/
namespace Formula

/-- White space and closed comments in a row.  The end mark of a comment stands nowhere within
it. -/
inductive IsLayout : List Char → Prop
  | nil : IsLayout []
  | blank {c : Char} {rest : List Char} (hc : Scan.isGap c = true) (h : IsLayout rest) :
      IsLayout (c :: rest)
  | comment {inner rest : List Char} (hinner : ¬ ['*', '/'] <:+: inner)
      (h : IsLayout rest) : IsLayout ('/' :: '*' :: (inner ++ '*' :: '/' :: rest))

namespace Lexeme

/-- What was found, wherever it stands. -/
def reading : Lexeme → Reading
  | token t => .token t.token
  | rejected fault _ _ => .rejected fault

theorem reading_moved (distance : Nat) (l : Lexeme) : (l.moved distance).reading = l.reading := by
  cases l <;> rfl

end Lexeme

/-! ## What a text is taken apart into, wherever it stands -/

section
variable {c : Char} {front back gap rest inner : List Char}

theorem map_reading_lexemesFrom (skip offset offset' : Nat) (text : List Char) :
    (lexemesFrom skip offset text).map Lexeme.reading
      = (lexemesFrom skip offset' text).map Lexeme.reading := by
  have hstart : ∀ distance, (lexemesFrom skip distance text).map Lexeme.reading
      = (lexemesFrom skip 0 text).map Lexeme.reading := by
    intro distance
    rw [← Nat.zero_add distance, lexemesFrom_moved, List.map_map]
    exact List.map_congr_left fun l _ => l.reading_moved _
  rw [hstart offset, hstart offset']

/-- The first piece, and those behind it. -/
theorem map_reading_cons (offset : Nat) (c : Char) (rest : List Char) :
    (lexemesFrom 0 offset (c :: rest)).map Lexeme.reading
      = (if (Scan.scan c rest).reading = .gap then [] else [(Scan.scan c rest).reading])
        ++ (lexemesFrom ((Scan.scan c rest).length - 1) (offset + c.utf8Size) rest).map
          Lexeme.reading := by
  rw [lexemesFrom]
  cases (Scan.scan c rest).reading <;> rfl

theorem commentLength_inner (hinner : ¬ ['*', '/'] <:+: inner) (rest : List Char) :
    Scan.commentLength (inner ++ '*' :: '/' :: rest) = inner.length + 2 := by
  induction inner with
  | nil => rfl
  | cons c inner ih =>
    have hlater : ¬ ['*', '/'] <:+: inner := fun h => hinner (List.infix_cons h)
    have hmark : ∀ d more, inner ++ '*' :: '/' :: rest = d :: more → ¬ (c = '*' ∧ d = '/') := by
      rintro d more htext ⟨rfl, rfl⟩
      cases inner with
      | nil => cases htext
      | cons e inner =>
        obtain ⟨rfl, -⟩ := List.cons.inj htext
        exact hinner ⟨[], inner, rfl⟩
    have hih := ih hlater
    cases htext : inner ++ '*' :: '/' :: rest with
    | nil => simp at htext
    | cons d more =>
      rw [htext] at hih
      rw [List.cons_append, htext, Scan.commentLength_cons_cons (hmark d more htext), hih,
        List.length_cons]
      omega

/-- Layout is no part of any token. -/
theorem lexemesFrom_layout (hgap : IsLayout gap) (offset : Nat) (back : List Char) :
    lexemesFrom 0 offset (gap ++ back) = lexemesFrom 0 (offset + byteLength gap) back := by
  induction hgap generalizing offset with
  | nil => rfl
  | @blank c rest hc _ ih =>
    rw [List.cons_append, lexemesFrom_cons_gap hc, ih, byteLength_cons, Nat.add_assoc]
  | @comment inner rest hinner _ ih =>
    let letters := '*' :: (inner ++ ['*', '/'])
    have htext : '/' :: '*' :: (inner ++ '*' :: '/' :: rest) ++ back
        = '/' :: (letters ++ (rest ++ back)) := by simp [letters]
    have hscan : Scan.scan '/' (letters ++ (rest ++ back)) = ⟨.gap, 1 + letters.length⟩ := by
      have hlength := commentLength_inner hinner (rest ++ back)
      have hslash : Scan.isGap '/' = false := by decide
      simp [Scan.scan, hslash, letters, hlength]
      omega
    have hstop : byteLength ('/' :: '*' :: (inner ++ '*' :: '/' :: rest))
        = ('/' : Char).utf8Size + byteLength letters + byteLength rest := by
      simp [letters]
      omega
    rw [htext, lexemesFrom, hscan, hstop]
    simp only [Lexeme.ofReading?, Nat.add_sub_cancel_left]
    rw [lexemesFrom_skip, ih]
    simp only [Nat.add_assoc]

/-- Layout is separated from what stands before it. -/
theorem IsLayout.separates (h : IsLayout (c :: gap)) : Scan.separates c = true := by
  cases h with
  | blank hc => simp [Scan.separates, hc]
  | comment => rfl

/-! ## Where a text can be cut -/

/-- Between the two texts a token ends or begins, or the whole text ends.  The first `skip`
characters belong to the piece before. -/
def Borders : Nat → List Char → List Char → Prop
  | 0, [], back => ∀ c ∈ back.head?, ∃ t, (Scan.scan c back.tail).reading = .token t
  | _ + 1, [], _ => False
  | skip + 1, _ :: front, back => Borders skip front back
  | 0, c :: front, back =>
    (∃ t, Scan.scan c (front ++ back) = ⟨.token t, 1 + front.length⟩) ∨
      Borders ((Scan.scan c (front ++ back)).length - 1) front back

theorem Borders.le {skip : Nat} (h : Borders skip front back) : skip ≤ front.length := by
  induction front generalizing skip with
  | nil =>
    cases skip with
    | zero => exact Nat.le_refl _
    | succ skip => exact h.elim
  | cons c front ih =>
    cases skip with
    | zero => exact Nat.zero_le _
    | succ skip => exact Nat.succ_le_succ (ih h)

theorem Borders.of_gap (hc : Scan.isGap c = true) (h : Borders 0 (c :: front) back) :
    Borders 0 front back := by
  have hscan : Scan.scan c (front ++ back)
      = ⟨.gap, 1 + ((front ++ back).takeWhile Scan.isGap).length⟩ := by
    rw [Scan.scan, if_pos hc]
  rcases h with ⟨t, ht⟩ | hlater
  · rw [hscan] at ht
    cases ht
  · rw [hscan, Nat.add_sub_cancel_left] at hlater
    cases front with
    | nil =>
      have hnone := Nat.le_zero.mp hlater.le
      rwa [hnone] at hlater
    | cons next front =>
      by_cases hnext : Scan.isGap next = true
      · right
        rw [List.cons_append, List.takeWhile_cons_of_pos hnext] at hlater
        rw [Scan.scan, if_pos hnext, Nat.add_sub_cancel_left]
        exact hlater
      · rwa [List.cons_append, List.takeWhile_cons_of_neg hnext] at hlater

/-- A text can be cut at its end. -/
theorem borders_nil {skip : Nat} (hskip : skip ≤ front.length) : Borders skip front [] := by
  induction front generalizing skip with
  | nil =>
    obtain rfl := Nat.le_zero.mp hskip
    rintro c ⟨⟩
  | cons c front ih =>
    cases skip with
    | succ skip => exact ih (Nat.le_of_succ_le_succ hskip)
    | zero =>
      right
      rw [List.append_nil]
      have hle := Scan.scan_length_le c front
      exact ih (by omega)

/-- A comment that ends before the text does is closed. -/
theorem closed_of_commentLength_le
    (hle : Scan.commentLength (front ++ back) ≤ front.length) (hback : back ≠ []) :
    ['*', '/'] <:+: front := by
  induction front with
  | nil =>
    cases back with
    | nil => exact absurd rfl hback
    | cons c back =>
      rw [List.nil_append, Scan.commentLength.eq_def] at hle
      dsimp only at hle
      split at hle <;> simp at hle
  | cons c front ih =>
    cases htext : front ++ back with
    | nil => simp [hback] at htext
    | cons d more =>
      by_cases hmark : c = '*' ∧ d = '/'
      · obtain ⟨rfl, rfl⟩ := hmark
        cases front with
        | nil =>
          rw [List.singleton_append, show back = '/' :: more from htext] at hle
          exact absurd hle (by simp [Scan.commentLength])
        | cons e front =>
          obtain ⟨rfl, -⟩ := List.cons.inj htext
          exact ⟨[], front, rfl⟩
      · rw [List.cons_append, htext, Scan.commentLength_cons_cons hmark, ← htext,
          List.length_cons] at hle
        exact List.infix_cons (ih (by omega))

/-- What stands before the cut stays the same, whatever layout is put in. -/
theorem scan_layout {d : Char} (hd : Scan.separates d = true) (hc : ¬ Scan.isGap c = true)
    (hle : (Scan.scan c (front ++ back)).length ≤ 1 + front.length)
    (hclosed : back = [] → CommentsClosed 0 (c :: front))
    (htoken : ∀ fault, (Scan.scan c (front ++ back)).reading ≠ .rejected fault) :
    Scan.scan c (front ++ d :: rest) = Scan.scan c (front ++ back) := by
  by_cases hopens : c = '/' ∧ (front ++ back).head? = some '*'
  · have hlength : (Scan.scan c (front ++ back)).length
        = 2 + Scan.commentLength ((front ++ back).drop 1) := by
      rw [Scan.scan, if_neg hc, if_pos hopens]
    rw [hlength] at hle
    cases front with
    | nil =>
      simp only [List.length_nil] at hle
      omega
    | cons star front =>
      have hopens' : c = '/' ∧ (star :: front).head? = some '*' := hopens
      have hmark : ['*', '/'] <:+: (star :: front).drop 1 := by
        by_cases hback : back = []
        · exact ((commentsClosed_cons _ _).mp (hclosed hback)).1 hopens'
        · refine closed_of_commentLength_le ?_ hback
          simp only [List.cons_append, List.drop_succ_cons, List.drop_zero, List.length_cons]
            at hle ⊢
          omega
      rw [Scan.scan_comment_append hc hopens' hmark, Scan.scan_comment_append hc hopens' hmark]
  · cases hreading : (Scan.scan c (front ++ back)).reading with
    | gap => exact absurd hreading (Scan.reading_ne_gap hc hopens)
    | token t => exact Scan.scan_replaced hd hreading hle rest
    | rejected fault => exact absurd hreading (htoken fault)

/-- **Layout that is put in where a text can be cut changes no token**, if it does not stand in a
comment that is open at the end of the text. -/
theorem map_reading_layout (hgap : IsLayout gap) {skip : Nat} (hcut : Borders skip front back)
    (hclosed : back = [] → CommentsClosed skip front) (offset offset' : Nat)
    (htokens : AllTokens (lexemesFrom skip offset (front ++ back))) :
    (lexemesFrom skip offset' (front ++ (gap ++ back))).map Lexeme.reading
      = (lexemesFrom skip offset (front ++ back)).map Lexeme.reading := by
  have hbehind : ∀ start start', (lexemesFrom 0 start' (gap ++ back)).map Lexeme.reading
      = (lexemesFrom 0 start back).map Lexeme.reading := by
    intro start start'
    rw [lexemesFrom_layout hgap]
    exact map_reading_lexemesFrom _ _ _ _
  induction front generalizing skip offset offset' with
  | nil =>
    obtain rfl := Nat.le_zero.mp hcut.le
    exact hbehind offset offset'
  | cons c front ih =>
    cases skip with
    | succ skip =>
      exact ih hcut (fun hback => (commentsClosed_skip _ _ _).mp (hclosed hback)) _ _ htokens
    | zero =>
      by_cases hc : Scan.isGap c = true
      · rw [List.cons_append, lexemesFrom_cons_gap hc] at htokens ⊢
        rw [List.cons_append, lexemesFrom_cons_gap hc]
        exact ih (hcut.of_gap hc) (fun hback => (hclosed hback).of_gap hc) _ _ htokens
      · have hmore : AllTokens (lexemesFrom ((Scan.scan c (front ++ back)).length - 1)
            (offset + c.utf8Size) (front ++ back)) := by
          rw [List.cons_append, lexemesFrom] at htokens
          split at htokens
          · exact fun l hl => htokens l (.tail _ hl)
          · exact htokens
        have htoken : ∀ fault, (Scan.scan c (front ++ back)).reading ≠ .rejected fault := by
          intro fault hfault
          rw [List.cons_append, lexemesFrom, hfault] at htokens
          obtain ⟨t, ht⟩ := htokens _ (.head _)
          cases ht
        have hle : (Scan.scan c (front ++ back)).length ≤ 1 + front.length := by
          rcases hcut with ⟨t, ht⟩ | hlater
          · exact Nat.le_of_eq (congrArg Scan.length ht)
          · have hskip := hlater.le
            omega
        have hscan : Scan.scan c (front ++ (gap ++ back)) = Scan.scan c (front ++ back) := by
          cases gap with
          | nil => rfl
          | cons d gap => exact scan_layout hgap.separates hc hle hclosed htoken
        rw [List.cons_append, map_reading_cons, hscan, List.cons_append, map_reading_cons]
        congr 1
        rcases hcut with ⟨t, ht⟩ | hlater
        · rw [ht, Nat.add_sub_cancel_left, lexemesFrom_skip, lexemesFrom_skip]
          exact hbehind _ _
        · refine ih hlater (fun hback => ?_) _ _ hmore
          have hhere := ((commentsClosed_cons _ _).mp (hclosed hback)).2
          rwa [hback, List.append_nil]

/-! ## A text can be cut at its tokens -/

/-- A comment with something behind it is closed. -/
theorem closed_of_commentLength_lt {text : List Char}
    (hlt : Scan.commentLength text < text.length) : ['*', '/'] <:+: text := by
  have hshort : Scan.commentLength (text.take (text.length - 1) ++ text.drop (text.length - 1))
      ≤ (text.take (text.length - 1)).length := by
    rw [List.take_append_drop, List.length_take]
    omega
  have hbehind : text.drop (text.length - 1) ≠ [] := by
    rw [ne_eq, List.drop_eq_nil_iff]
    omega
  exact (closed_of_commentLength_le hshort hbehind).trans (List.take_prefix _ _).isInfix

theorem length_eq_of_byteLength_take {n : Nat} (hle : n ≤ (front ++ back).length)
    (h : byteLength ((front ++ back).take n) = byteLength front) : n = front.length := by
  rcases Nat.le_total n front.length with hshort | hlong
  · have hsplit := congrArg byteLength (List.take_append_drop n front)
    rw [List.take_append_of_le_length hshort] at h
    rw [byteLength_append, h] at hsplit
    have hnone := congrArg List.length (eq_nil_of_byteLength (Nat.add_eq_left.mp hsplit))
    rw [List.length_drop, List.length_nil] at hnone
    omega
  · obtain ⟨more, rfl⟩ := Nat.exists_eq_add_of_le hlong
    rw [List.take_length_add_append, byteLength_append] at h
    have hnone := congrArg List.length (eq_nil_of_byteLength (Nat.add_eq_left.mp h))
    rw [List.length_take, List.length_nil] at hnone
    rw [List.length_append] at hle
    omega

/-- A token of a text is found at its first character or behind it. -/
theorem mem_lexemesFrom_cons {t : PlacedToken} {offset : Nat}
    (h : .token t ∈ lexemesFrom 0 offset (c :: rest)) :
    (∃ token, (Scan.scan c rest).reading = .token token ∧
        t = ⟨token, offset, offset + byteLength ((c :: rest).take (Scan.scan c rest).length)⟩) ∨
      .token t ∈ lexemesFrom ((Scan.scan c rest).length - 1) (offset + c.utf8Size) rest := by
  rw [lexemesFrom] at h
  cases hreading : (Scan.scan c rest).reading with
  | gap =>
    rw [hreading] at h
    exact .inr h
  | token token =>
    rw [hreading] at h
    rcases List.mem_cons.mp h with heq | hlater
    · cases heq
      exact .inl ⟨token, rfl, rfl⟩
    · exact .inr hlater
  | rejected fault =>
    rw [hreading] at h
    rcases List.mem_cons.mp h with heq | hlater
    · cases heq
    · exact .inr hlater

/-- A token of a text begins within it, and not behind its own end. -/
theorem place_of_mem {t : PlacedToken} {skip offset : Nat} {text : List Char}
    (h : .token t ∈ lexemesFrom skip offset text) :
    offset ≤ t.start ∧ t.start ≤ t.stop ∧ t.start < offset + byteLength text := by
  induction text generalizing skip offset with
  | nil => cases skip <;> cases h
  | cons c rest ih =>
    have hsize := c.utf8Size_pos
    rw [byteLength_cons]
    cases skip with
    | succ skip =>
      have hlater := ih h
      omega
    | zero =>
      rcases mem_lexemesFrom_cons h with ⟨token, -, rfl⟩ | hlater
      · refine ⟨Nat.le_refl _, Nat.le_add_right _ _, ?_⟩
        dsimp only
        omega
      · have hfound := ih hlater
        omega

theorem skip_lt_length {t : PlacedToken} {skip offset : Nat} {text : List Char}
    (h : .token t ∈ lexemesFrom skip offset text) : skip < text.length := by
  induction text generalizing skip offset with
  | nil => cases skip <;> cases h
  | cons c rest ih =>
    cases skip with
    | succ skip => exact Nat.succ_lt_succ (ih h)
    | zero => exact Nat.zero_lt_succ _

/-- **A text can be cut where one of its tokens begins or ends.** -/
theorem borders_of_mem {t : PlacedToken} {skip offset : Nat}
    (h : .token t ∈ lexemesFrom skip offset (front ++ back))
    (hplace : offset + byteLength front = t.start ∨ offset + byteLength front = t.stop) :
    Borders skip front back := by
  induction front generalizing skip offset with
  | nil =>
    obtain ⟨hstart, hstop, -⟩ := place_of_mem h
    rw [byteLength_nil, Nat.add_zero] at hplace
    have hhere : t.start = offset := by omega
    rw [List.nil_append] at h
    cases back with
    | nil => cases skip <;> cases h
    | cons c back =>
      have hsize := c.utf8Size_pos
      cases skip with
      | succ skip =>
        have hbehind := (@place_of_mem t skip (offset + c.utf8Size) _ h).1
        omega
      | zero =>
        rcases mem_lexemesFrom_cons h with ⟨token, htoken, -⟩ | hlater
        · rintro _ ⟨⟩
          exact ⟨token, htoken⟩
        · have hbehind := (place_of_mem hlater).1
          omega
  | cons c front ih =>
    rw [byteLength_cons, ← Nat.add_assoc] at hplace
    cases skip with
    | succ skip => exact ih h hplace
    | zero =>
      rw [List.cons_append] at h
      rcases mem_lexemesFrom_cons h with ⟨token, htoken, rfl⟩ | hlater
      · left
        have hsize := c.utf8Size_pos
        have hlength : (Scan.scan c (front ++ back)).length = (c :: front).length := by
          refine @length_eq_of_byteLength_take _ back _ (Scan.scan_length_le _ _) ?_
          rw [byteLength_cons, List.cons_append]
          dsimp only at hplace
          omega
        refine ⟨token, ?_⟩
        rw [← htoken, Nat.add_comm, ← List.length_cons, ← hlength]
      · exact .inr (ih hlater hplace)

/-- No comment is open behind the last token of a text that ends with it. -/
theorem closed_of_mem {t : PlacedToken} {skip offset : Nat} {text : List Char}
    (h : .token t ∈ lexemesFrom skip offset text) (hplace : offset + byteLength text = t.stop) :
    CommentsClosed skip text := by
  induction text generalizing skip offset with
  | nil => cases skip <;> cases h
  | cons c rest ih =>
    rw [byteLength_cons, ← Nat.add_assoc] at hplace
    cases skip with
    | succ skip => exact (commentsClosed_skip _ _ _).mpr (ih h hplace)
    | zero =>
      rw [commentsClosed_cons]
      rcases mem_lexemesFrom_cons h with ⟨token, htoken, rfl⟩ | hlater
      · refine ⟨fun hopens => ?_, ?_⟩
        · obtain ⟨rfl, hstar⟩ := hopens
          rw [Scan.scan, if_neg (by decide), if_pos ⟨rfl, hstar⟩] at htoken
          cases htoken
        · have hlength : (Scan.scan c rest).length = (c :: rest).length := by
            refine @length_eq_of_byteLength_take _ [] _ ?_ ?_
            · rw [List.append_nil]
              exact Scan.scan_length_le _ _
            · rw [List.append_nil, byteLength_cons]
              dsimp only at hplace
              omega
          exact commentsClosed_of_length_le (by rw [hlength]; exact Nat.le_refl _)
      · refine ⟨fun hopens => closed_of_commentLength_lt ?_, ih hlater hplace⟩
        have hbehind := skip_lt_length hlater
        obtain ⟨rfl, hstar⟩ := hopens
        rw [Scan.scan, if_neg (by decide), if_pos ⟨rfl, hstar⟩] at hbehind
        rw [List.length_drop]
        dsimp only at hbehind
        omega

/-! ## Where the tokens stand does not matter -/

namespace Grammar

/-- The same tokens and the same faults, in whatever places. -/
def elsewhere : Pairing where
  pieces l l' := l.reading = l'.reading
  failures failure failure' := failure.fault = failure'.fault
  tail := []
  excusesLeft _ := False
  excusesRight _ := False

theorem elsewhere_sound (options : Options) (constants : Dict Value) (text text' : List Char) :
    elsewhere.Sound ⟨options, constants, finishOf text⟩ ⟨options, constants, finishOf text'⟩ where
  token := by
    rintro t (t' | ⟨fault, start, stop⟩) h
    · exact ⟨t', rfl, Reading.token.inj h, fun _ => rfl⟩
    · cases h
  rejected := by
    rintro fault start stop (t' | ⟨fault', start', stop'⟩) h
    · cases h
    · cases h
      exact ⟨start', stop', rfl, rfl⟩
  tail := .inl ⟨rfl, rfl, .inl ⟨rfl, fun _ => rfl⟩⟩
  constants := rfl
  allows _ _ := rfl
  conditional := rfl
  array := rfl
  member := rfl
  definition := rfl
  namedOp _ := rfl

end Grammar

/-- The places of the tokens do not matter to what a text is parsed as, nor to the fault for which
it is refused. -/
theorem Term.parse_elsewhere {options : Options} {constants : Dict Value} {source changed : String}
    (h : (lexemes source.toList).map Lexeme.reading = (lexemes changed.toList).map Lexeme.reading) :
    (Term.parse options constants changed).mapError Error.fault
      = (Term.parse options constants source).mapError Error.fault := by
  have hsound := Grammar.elsewhere_sound options constants source.toList changed.toList
  have hpieces : List.Forall₂ Grammar.elsewhere.pieces (lexemes source.toList)
      (lexemes changed.toList) := by
    rwa [← List.forall₂_eq_eq_eq, List.forall₂_map_left_iff, List.forall₂_map_right_iff] at h
  have hcontinues : Grammar.elsewhere.Continues (lexemes source.toList) (lexemes changed.toList) :=
    ⟨_, hpieces, (List.append_nil _).symm⟩
  have hwhole := Grammar.pairs_whole hsound (Grammar.pairs_limit hsound rfl) rfl
    (fun hall => hall ⟨.parse .noTarget, 0⟩) _ _ hcontinues
  unfold Grammar.Pairing.Agrees at hwhole
  unfold Term.parse
  dsimp only
  rw [StateT.run, StateT.run]
  generalize (Grammar.mk options constants (finishOf source.toList)).whole
    (lexemes source.toList) = x at hwhole ⊢
  generalize (Grammar.mk options constants (finishOf changed.toList)).whole
    (lexemes changed.toList) = y at hwhole ⊢
  cases hwhole with
  | ok heq => rw [heq]
  | error heq => exact congrArg Except.error heq.symm
  | left hnever => exact hnever.elim
  | right hnever => exact hnever.elim

theorem tokensOf_eq_ok_iff {source : String} {pieces : List Lexeme} {tokens : List PlacedToken} :
    tokensOf source pieces = .ok tokens ↔ pieces = tokens.map .token := by
  induction pieces generalizing tokens with
  | nil => cases tokens <;> simp [tokensOf]
  | cons l pieces ih =>
    cases l with
    | token t =>
      constructor
      · intro h
        obtain ⟨more, hmore, rfl⟩ := Scan.ok_of_map h
        rw [List.map_cons, ih.mp hmore]
      · intro h
        cases tokens with
        | nil => cases h
        | cons t' more =>
          rw [List.map_cons, List.cons.injEq, Lexeme.token.injEq] at h
          rw [tokensOf, ih.mpr h.2, h.1]
          rfl
    | rejected fault start stop => cases tokens <;> simp [tokensOf]

/-- What reads like tokens is these tokens, elsewhere. -/
theorem exists_tokensOf {source : String} {pieces : List Lexeme} {found : List PlacedToken}
    (h : pieces.map Lexeme.reading = (found.map Lexeme.token).map Lexeme.reading) :
    ∃ others, tokensOf source pieces = .ok others ∧
      others.map PlacedToken.token = found.map PlacedToken.token := by
  induction pieces generalizing found with
  | nil =>
    cases found with
    | nil => exact ⟨[], rfl, rfl⟩
    | cons => cases h
  | cons l pieces ih =>
    cases found with
    | nil => cases h
    | cons t found =>
      obtain ⟨hhere, hlater⟩ := List.cons.inj h
      obtain ⟨others, hothers, hsame⟩ := ih hlater
      cases l with
      | token t' =>
        refine ⟨t' :: others, ?_, ?_⟩
        · rw [tokensOf, hothers]
          rfl
        · rw [List.map_cons, List.map_cons, hsame, Reading.token.inj hhere]
      | rejected => cases hhere

/-- **White space and comments change nothing before and behind a token.**  Let all of a text be
tokens, and put in white space or closed comments where one of them begins or ends; at the end of
the text, no comment may be open.  Then the tokens are the same, and under every configuration and
all constants the text compiles to the same program, or it fails for the same fault. -/
theorem compile_layout (c : Compiler) {source changed : String} {front gap back : List Char}
    {tokens : List PlacedToken} {t : PlacedToken} (hsource : source.toList = front ++ back)
    (hchanged : changed.toList = front ++ (gap ++ back)) (hgap : IsLayout gap)
    (htokens : tokenize source = .ok tokens) (ht : t ∈ tokens)
    (hplace : byteLength front = t.start ∨ byteLength front = t.stop)
    (hclosed : t.token = .finish → CommentsClosed 0 source.toList) :
    (tokenize changed).map (List.map PlacedToken.token)
        = .ok (tokens.map PlacedToken.token) ∧
      ((c.compile changed).map Expression.program).mapError Error.fault
        = ((c.compile source).map Expression.program).mapError Error.fault := by
  obtain ⟨found, hfound, rfl⟩ := Scan.ok_of_map htokens
  have hpieces : lexemesFrom 0 0 (front ++ back) = found.map .token := by
    rw [← hsource]
    exact tokensOf_eq_ok_iff.mp hfound
  have hall : AllTokens (lexemesFrom 0 0 (front ++ back)) := by
    rw [hpieces]
    intro l hl
    obtain ⟨t, -, rfl⟩ := List.mem_map.mp hl
    exact ⟨t, rfl⟩
  have hcut : Borders 0 front back ∧ (back = [] → CommentsClosed 0 front) := by
    rcases List.mem_append.mp ht with hmem | hfinish
    · have hlexeme : .token t ∈ lexemesFrom 0 0 (front ++ back) := by
        rw [hpieces]
        exact List.mem_map_of_mem hmem
      refine ⟨borders_of_mem hlexeme (by omega), ?_⟩
      rintro rfl
      rw [List.append_nil] at hlexeme
      have hstart := (place_of_mem hlexeme).2.2
      exact closed_of_mem hlexeme (by omega)
    · obtain rfl := List.mem_singleton.mp hfinish
      have hend : byteLength front = byteLength source.toList := by
        rcases hplace with h | h <;> exact h
      rw [hsource, byteLength_append] at hend
      obtain rfl := eq_nil_of_byteLength (Nat.add_eq_left.mp hend.symm)
      refine ⟨borders_nil (Nat.zero_le _), fun _ => ?_⟩
      have hnone := hclosed rfl
      rwa [hsource, List.append_nil] at hnone
  have hsame : (lexemes changed.toList).map Lexeme.reading
      = (lexemes source.toList).map Lexeme.reading := by
    rw [hsource, hchanged]
    exact map_reading_layout hgap hcut.1 hcut.2 0 0 hall
  constructor
  · have hreadings : (lexemes changed.toList).map Lexeme.reading
        = (found.map Lexeme.token).map Lexeme.reading := by
      rw [hsame, ← hpieces, hsource]
      rfl
    obtain ⟨others, hothers, htokens⟩ := @exists_tokensOf changed _ _ hreadings
    rw [tokenize, hothers]
    simp only [Functor.map, Except.map, List.map_append, htokens]
    rfl
  · have hcode : ∀ text, ((c.compile text).map Expression.program).mapError Error.fault
        = ((Term.parse c.options c.constants text).mapError Error.fault).map Term.code := by
      intro text
      unfold Compiler.compile
      cases Term.parse c.options c.constants text <;> rfl
    rw [hcode, hcode, Term.parse_elsewhere hsame.symm]

/-- `b/a`, with a comment before the second name: the stroke before it and the one that opens it
stay apart. -/
theorem compile_layout_between_strokes :
    let c : Compiler := {}
    let tokens : List PlacedToken :=
      [⟨.name "b", 0, 1⟩, ⟨.sign .slash, 1, 2⟩, ⟨.name "a", 2, 3⟩, ⟨.finish, 3, 3⟩]
    IsLayout "/* / */".toList ∧ tokenize "b/a" = .ok tokens ∧
      ((c.compile "b//* / */a").map Expression.program).mapError Error.fault
        = .ok [.var "b", .var "a", .binary .divide] ∧
      ((tokenize "b//* / */a").map (List.map PlacedToken.token)
          = .ok (tokens.map PlacedToken.token) ∧
        ((c.compile "b//* / */a").map Expression.program).mapError Error.fault
          = ((c.compile "b/a").map Expression.program).mapError Error.fault) := by
  intro c tokens
  have hgap : IsLayout "/* / */".toList := @IsLayout.comment [' ', '/', ' '] [] (by decide) .nil
  have htokens : tokenize "b/a" = .ok tokens := rfl
  refine ⟨hgap, htokens, rfl, ?_⟩
  exact @compile_layout c "b/a" "b//* / */a" ['b', '/'] _ ['a'] tokens ⟨.name "a", 2, 3⟩ rfl rfl
    hgap htokens (by decide) (.inl rfl) nofun

end
end Formula
