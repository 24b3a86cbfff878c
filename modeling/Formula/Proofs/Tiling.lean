import Formula.Proofs.NumberTexts

/-! # Tokens tile their text

The tokens of a text stand in it one behind the other, each in characters of its own.  Before them,
between them and behind the last are white space and closed comments, and nothing else; only behind
the last token may a comment be left open (`Tiling`).

What a token stands in is all that makes it: read as a text of its own, it is that token again
(`tokenize_tiles`).
-/
namespace Formula

/-- What may stand behind the last token: layout, and perhaps a comment that is never closed. -/
inductive IsTrail : List Char → Prop
  | closed {gap : List Char} (h : IsLayout gap) : IsTrail gap
  | opened {gap inner : List Char} (h : IsLayout gap) (hinner : ¬ ['*', '/'] <:+: inner) :
      IsTrail (gap ++ '/' :: '*' :: inner)

/-- Read as a text of their own, the letters are this token and nothing else. -/
def IsTokenText (letters : List Char) (t : Token) : Prop :=
  tokenize (String.ofList letters)
    = .ok [⟨t, 0, byteLength letters⟩, finishOf letters]

/-- A text that begins at byte `offset` is taken up by the tokens and by layout around them.  Each
token covers the bytes of the letters that it stands in. -/
inductive Tiling : Nat → List Char → List PlacedToken → Prop
  | trail {offset : Nat} {gap : List Char} (h : IsTrail gap) : Tiling offset gap []
  | token {offset : Nat} {gap letters rest : List Char} {t : PlacedToken}
      {tokens : List PlacedToken} (hgap : IsLayout gap) (hletters : letters ≠ [])
      (halone : IsTokenText letters t.token) (hstart : t.start = offset + byteLength gap)
      (hstop : t.stop = t.start + byteLength letters) (h : Tiling t.stop rest tokens) :
      Tiling offset (gap ++ (letters ++ rest)) (t :: tokens)

/-! ## Layout -/

section
variable {gap gap' inner text : List Char}

theorem IsLayout.append (h : IsLayout gap) (h' : IsLayout gap') : IsLayout (gap ++ gap') := by
  induction h with
  | nil => exact h'
  | blank hc _ ih => exact .blank hc ih
  | comment hinner _ ih => simpa using IsLayout.comment hinner ih

theorem IsLayout.append_trail (h : IsLayout gap) (h' : IsTrail gap') : IsTrail (gap ++ gap') := by
  cases h' with
  | closed h' => exact .closed (h.append h')
  | opened h' hinner =>
    rw [← List.append_assoc]
    exact .opened (h.append h') hinner

/-- More layout may stand in front. -/
theorem Tiling.layout {offset : Nat} {tokens : List PlacedToken} (hgap : IsLayout gap)
    (h : Tiling (offset + byteLength gap) text tokens) : Tiling offset (gap ++ text) tokens := by
  cases h with
  | trail h => exact .trail (hgap.append_trail h)
  | token hgap' hletters halone hstart hstop h =>
    rw [← List.append_assoc]
    refine .token (hgap.append hgap') hletters halone ?_ hstop h
    rw [hstart, byteLength_append, Nat.add_assoc]

/-- Behind its opening, a comment goes up to its first end mark, or up to the end of the text. -/
theorem comment_cases (text : List Char) :
    (∃ inner back, ¬ ['*', '/'] <:+: inner ∧ text = inner ++ '*' :: '/' :: back ∧
        Scan.commentLength text = inner.length + 2) ∨
      ¬ ['*', '/'] <:+: text ∧ Scan.commentLength text = text.length := by
  induction text with
  | nil => exact .inr ⟨by simp, rfl⟩
  | cons c text ih =>
    cases text with
    | nil => exact .inr ⟨by simp [List.infix_cons_iff], by simp [Scan.commentLength]⟩
    | cons d text =>
      by_cases hmark : c = '*' ∧ d = '/'
      · obtain ⟨rfl, rfl⟩ := hmark
        exact .inl ⟨[], text, by simp, rfl, rfl⟩
      · have hhere : ¬ ['*', '/'] <+: c :: d :: text := by simpa [eq_comm] using hmark
        rw [Scan.commentLength_cons_cons hmark]
        rcases ih with ⟨inner, back, hinner, htext, hlength⟩ | ⟨hopen, hlength⟩
        · refine .inl ⟨c :: inner, back, ?_, congrArg (c :: ·) htext, ?_⟩
          · rw [List.infix_cons_iff, not_or]
            refine ⟨fun hprefix => hhere ?_, hinner⟩
            rw [htext, ← List.cons_append]
            exact hprefix.trans (List.prefix_append _ _)
          · simp only [hlength, List.length_cons]
            omega
        · refine .inr ⟨?_, ?_⟩
          · rw [List.infix_cons_iff, not_or]
            exact ⟨hhere, hopen⟩
          · simp only [hlength, List.length_cons]
            omega

end

/-! ## Pieces -/

namespace Scan

theorem mantissa_pos {c : Char} {rest : List Char}
    (h : isDigit c = true ∨ (c = '.' ∧ rest.head?.any isDigit = true)) :
    0 < (mantissa (c :: rest)).2.2 := by
  rcases h with hdigit | ⟨rfl, -⟩
  · simp only [mantissa, List.takeWhile_cons_of_pos hdigit, List.length_cons]
    omega
  · have hpoint : isDigit '.' = false := by decide
    simp [mantissa, hpoint]

theorem length_number_pos {c : Char} {rest : List Char}
    (h : isDigit c = true ∨ (c = '.' ∧ rest.head?.any isDigit = true)) :
    0 < (number (c :: rest)).length := by
  have hcode : ∀ (base : Nat) (text : List Char), 0 < (code base text).length := by
    intro base text
    unfold code
    dsimp only
    split <;> simp [malformedNumber]
  have hdecimal : 0 < (decimal (c :: rest)).length := by
    rw [decimal_eq]
    exact Nat.lt_of_lt_of_le (mantissa_pos h) (le_length_decimalEnd _ _ _ _ _)
  unfold number
  split <;> first | exact hcode _ _ | exact hdecimal

/-- Every piece takes characters. -/
theorem scan_length_pos (c : Char) (rest : List Char) : 0 < (scan c rest).length := by
  unfold scan
  split
  · simp
  split
  · simp
  split
  · exact length_number_pos ‹_›
  split
  · simp [string]
  split
  · simp [word]
  split
  · simp [dollarName]
  split
  · rename_i token length hsome
    unfold punctuation? at hsome
    dsimp only at hsome
    split at hsome <;> (try split at hsome) <;> cases hsome <;> simp
  · simp

end Scan

section
variable {c : Char} {rest letters back : List Char} {offset : Nat}

/-- The letters that a token is found in are that token by themselves. -/
theorem isTokenText_of_scan {t : Token}
    (h : Scan.scan c (letters ++ back) = ⟨.token t, (c :: letters).length⟩) :
    IsTokenText (c :: letters) t := by
  have hcut : Scan.scan c letters = Scan.scan c (letters ++ back) := by
    refine Scan.scan_cut (congrArg Scan.reading h) ?_
    rw [h, List.length_cons, Nat.add_comm]
  exact tokenize_eq_one_iff.mpr (lexemes_cons_eq_iff.mpr (hcut.trans h))

/-- The piece at the beginning of a text, and the text behind it. -/
theorem exists_split_scan (c : Char) (rest : List Char) :
    ∃ letters back, rest = letters ++ back ∧ (Scan.scan c rest).length = (c :: letters).length := by
  have hpos := Scan.scan_length_pos c rest
  have hle := Scan.scan_length_le c rest
  refine ⟨rest.take ((Scan.scan c rest).length - 1), rest.drop ((Scan.scan c rest).length - 1),
    (List.take_append_drop _ _).symm, ?_⟩
  rw [List.length_cons, List.length_take]
  omega

/-- What stands behind the piece at the beginning of a text is read on its own. -/
theorem lexemesFrom_split (hlength : (Scan.scan c (letters ++ back)).length = (c :: letters).length)
    (offset : Nat) :
    lexemesFrom 0 offset (c :: (letters ++ back))
      = (Lexeme.ofReading? (Scan.scan c (letters ++ back)).reading offset
            (offset + byteLength (c :: letters))).toList
          ++ lexemesFrom 0 (offset + byteLength (c :: letters)) back := by
  have htake : (c :: (letters ++ back)).take (c :: letters).length = c :: letters :=
    List.take_left' rfl
  rw [lexemesFrom, hlength, htake, List.length_cons, Nat.add_sub_cancel, lexemesFrom_skip,
    byteLength_cons, Nat.add_assoc]
  cases Lexeme.ofReading? _ _ _ <;> rfl

/-- A comment at the beginning of a text is closed, or it is left open and nothing follows it. -/
theorem comment_split (hstar : (letters ++ back).head? = some '*')
    (hlength : (Scan.scan '/' (letters ++ back)).length = ('/' :: letters).length) :
    IsLayout ('/' :: letters) ∨ back = [] ∧ IsTrail ('/' :: letters) := by
  rw [Scan.scan, if_neg (by decide), if_pos ⟨rfl, hstar⟩] at hlength
  cases letters with
  | nil =>
    simp only [List.length_cons, List.length_nil] at hlength
    omega
  | cons star letters =>
    obtain rfl := Option.some.inj hstar
    have hcomment : Scan.commentLength (letters ++ back) = letters.length := by
      simp only [List.cons_append, List.drop_one, List.tail_cons, List.length_cons] at hlength
      omega
    rcases comment_cases (letters ++ back) with ⟨inner, behind, hinner, htext, hmark⟩ |
      ⟨hopen, hall⟩
    · left
      have hsplit : letters ++ back = (inner ++ ['*', '/']) ++ behind := by simpa using htext
      obtain ⟨rfl, -⟩ := List.append_inj hsplit (by rw [← hcomment, hmark]; simp)
      exact .comment hinner .nil
    · right
      obtain rfl : back = [] := by
        rw [← List.length_eq_zero_iff]
        rw [List.length_append] at hall
        omega
      rw [List.append_nil] at hopen
      exact ⟨rfl, .opened .nil hopen⟩

/-- **A text all of whose pieces are tokens is tiled by them.** -/
theorem tiling_of_lexemesFrom (text : List Char) {tokens : List PlacedToken}
    (h : lexemesFrom 0 offset text = tokens.map .token) : Tiling offset text tokens := by
  induction hn : text.length using Nat.strongRecOn generalizing text offset tokens with
  | ind n ih =>
    subst hn
    cases text with
    | nil =>
      obtain rfl := List.map_eq_nil_iff.mp h.symm
      exact .trail (.closed .nil)
    | cons c rest =>
      obtain ⟨letters, back, rfl, hlength⟩ := exists_split_scan c rest
      have hshorter : back.length < (c :: (letters ++ back)).length := by
        rw [List.length_cons, List.length_append]
        omega
      by_cases hgap : Scan.isGap c = true
      · rw [lexemesFrom_cons_gap hgap] at h
        exact Tiling.layout (.blank hgap .nil) (ih _ (Nat.lt_succ_self _) _ h rfl)
      rw [lexemesFrom_split hlength] at h
      cases hreading : (Scan.scan c (letters ++ back)).reading with
      | gap =>
        have hcomment : c = '/' ∧ (letters ++ back).head? = some '*' := by
          by_contra hnone
          exact Scan.reading_ne_gap hgap hnone hreading
        obtain ⟨rfl, hstar⟩ := hcomment
        rw [hreading] at h
        have hbehind := ih _ hshorter back h rfl
        rcases comment_split hstar hlength with hlayout | ⟨hnone, htrail⟩
        · exact Tiling.layout hlayout hbehind
        · subst hnone
          obtain rfl := List.map_eq_nil_iff.mp h.symm
          rw [List.append_nil]
          exact .trail htrail
      | token t =>
        rw [hreading] at h
        obtain ⟨t', tokens, rfl⟩ : ∃ t' more, tokens = t' :: more := by
          cases tokens with
          | nil => cases h
          | cons t' more => exact ⟨t', more, rfl⟩
        obtain ⟨hhere, hlater⟩ := List.cons.inj h
        obtain rfl := Lexeme.token.inj hhere
        have hscan : Scan.scan c (letters ++ back) = ⟨.token t, (c :: letters).length⟩ := by
          rw [← hreading, ← hlength]
        change Tiling offset ([] ++ ((c :: letters) ++ back)) _
        exact .token .nil (List.cons_ne_nil c letters) (isTokenText_of_scan hscan) rfl rfl
          (ih _ hshorter back hlater rfl)
      | rejected fault =>
        rw [hreading] at h
        cases tokens with
        | nil => cases h
        | cons t' more => cases (List.cons.inj h).1

/-! ## Where the tokens stand -/

namespace Tiling
variable {text : List Char} {tokens : List PlacedToken}

/-- Every token stands in letters of the text, which alone are that token. -/
theorem exists_letters (h : Tiling offset text tokens) {t : PlacedToken} (ht : t ∈ tokens) :
    ∃ front letters back, text = front ++ (letters ++ back) ∧ letters ≠ [] ∧
      offset + byteLength front = t.start ∧ offset + byteLength (front ++ letters) = t.stop ∧
      IsTokenText letters t.token := by
  induction h with
  | trail => cases ht
  | @token offset gap here rest t' tokens _ hletters halone hstart hstop _ ih =>
    rcases List.mem_cons.mp ht with rfl | hlater
    · refine ⟨gap, here, rest, rfl, hletters, hstart.symm, ?_, halone⟩
      rw [byteLength_append]
      omega
    · obtain ⟨front, letters, back, rfl, hne, hfirst, hlast, hself⟩ := ih hlater
      refine ⟨gap ++ (here ++ front), letters, back, by simp, hne, ?_, ?_, hself⟩
      · simp only [byteLength_append]
        omega
      · simp only [byteLength_append] at hlast ⊢
        omega

/-- The tokens stand in their order, and none begins before the one in front of it ends. -/
theorem pairwise (h : Tiling offset text tokens) :
    tokens.Pairwise fun t t' => t.stop ≤ t'.start := by
  induction h with
  | trail => exact .nil
  | token _ _ _ _ _ hrest ih =>
    refine .cons (fun t' ht' => ?_) ih
    obtain ⟨front, _, _, _, _, hstart, _⟩ := hrest.exists_letters ht'
    omega

end Tiling

/-- **Tokens tile their text.**  If all of a text is tokens, then the tokens before the end stand in
letters of the text, in their order and without overlap; before, between and behind them are white
space and closed comments, but that a comment behind the last may be left open.  Each token takes up
some of the bytes of the text, from one border of characters to another, and the letters there, read
as a text of their own, are the same token and nothing else. -/
theorem tokenize_tiles {source : String} {tokens : List PlacedToken}
    (h : tokenize source = .ok tokens) :
    ∃ found, tokens = found ++ [finishOf source.toList] ∧ Tiling 0 source.toList found ∧
      (found.Pairwise fun t t' => t.stop ≤ t'.start) ∧
      ∀ t ∈ found, t.start < t.stop ∧ t.stop ≤ source.utf8ByteSize ∧
        ∃ front letters back, source.toList = front ++ (letters ++ back) ∧
          byteLength front = t.start ∧ byteLength (front ++ letters) = t.stop ∧
          tokenize (String.ofList letters)
            = .ok [⟨t.token, 0, byteLength letters⟩, finishOf letters] := by
  obtain ⟨found, hfound, rfl⟩ := Scan.ok_of_map h
  have htiling : Tiling 0 source.toList found :=
    tiling_of_lexemesFrom _ (tokensOf_eq_ok_iff.mp hfound)
  refine ⟨found, rfl, htiling, htiling.pairwise, fun t ht => ?_⟩
  obtain ⟨front, letters, back, htext, hletters, hstart, hstop, halone⟩ := htiling.exists_letters ht
  rw [Nat.zero_add] at hstart hstop
  have hsize : byteLength letters ≠ 0 := fun hzero => hletters (eq_nil_of_byteLength hzero)
  refine ⟨?_, ?_, front, letters, back, htext, hstart, hstop, halone⟩
  · rw [← hstart, ← hstop, byteLength_append]
    omega
  · rw [← byteLength_toList, htext, ← hstop]
    simp only [byteLength_append]
    omega

/-- A string and a bullet of several bytes, a comment between them that looks closed too early, a
point without a digit, and a comment that is left open. -/
theorem tokenize_tiles_open_comment :
    let source := "\x22•\x22/*/*/•.a /*"
    let found : List PlacedToken :=
      [⟨.string "•", 0, 5⟩, ⟨.sign .times, 10, 13⟩, ⟨.sign .dot, 13, 14⟩, ⟨.name "a", 14, 15⟩]
    tokenize source = .ok (found ++ [⟨.finish, 18, 18⟩]) ∧ Tiling 0 source.toList found ∧
      (found.Pairwise fun t t' => t.stop ≤ t'.start) ∧
      ∃ front letters back, source.toList = front ++ (letters ++ back) ∧
        byteLength front = 10 ∧ byteLength (front ++ letters) = 13 ∧
        tokenize (String.ofList letters)
          = .ok [⟨.sign .times, 0, byteLength letters⟩, finishOf letters] := by
  intro source found
  have htokens : tokenize source = .ok (found ++ [⟨.finish, 18, 18⟩]) := by decide +kernel
  obtain ⟨found', hfound, htiling, hpairwise, hplaces⟩ := tokenize_tiles htokens
  obtain rfl : found = found' := List.append_inj_left' hfound rfl
  obtain ⟨-, -, hbullet⟩ := hplaces _ (.tail _ (.head _))
  exact ⟨htokens, htiling, hpairwise, hbullet⟩

end
end Formula
