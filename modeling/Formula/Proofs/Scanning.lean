import Formula.Proofs.Spelling

/-! # What stands behind a token does not change it

A gap or a slash behind a token ends it (`Scan.scan_append`), so a text may be followed by other
text behind a gap: its pieces stay as they are, and the pieces of the other text come behind them,
further along (`lexemesFrom_append`, `lexemesFrom_moved`).

Only a comment that is never closed would take in what follows (`CommentsClosed`).
-/
namespace Formula
namespace Scan

/-- No token goes on with the character: gaps, and the slash that begins a comment. -/
def separates (c : Char) : Bool := isGap c || c = '/'

section
variable {c d : Char} {text rest back : List Char} {quote : Char} {t : Token}

theorem of_separates (hd : separates d = true) {p : Char → Bool}
    (h : [' ', '\t', '\r', '\n', '\x0c', '/'].all p = true) : p d = true := by
  have hmem : d ∈ [' ', '\t', '\r', '\n', '\x0c', '/'] := by
    simpa [separates, isGap, or_assoc] using hd
  exact List.all_eq_true.mp h d hmem

theorem endsNumber_of_separates (hd : separates d = true) : EndsNumber (d :: back) := by
  have hletter : (!isNameChar d) = true := of_separates (p := fun c => !isNameChar c) hd (by decide)
  have hpoint : (d != '.') = true := of_separates (p := (· != '.')) hd (by decide)
  constructor <;> rintro c ⟨⟩
  · simpa using hletter
  · simpa using hpoint

theorem head?_append_of_ne {x : Char} (hx : d ≠ x) (front : List Char) :
    (front ++ d :: back).head? = some x ↔ front.head? = some x := by
  cases front <;> simp [hx]

theorem head?_any_append {p : Char → Bool} (hp : p d = false) (front : List Char) :
    (front ++ d :: back).head?.any p = front.head?.any p := by
  cases front <;> simp [hp]

/-! ## Strings -/

/-- A quote in the text ends the string. -/
def closes (quote : Char) : Bool → List Char → Bool
  | _, [] => false
  | true, _ :: rest => closes quote false rest
  | false, c :: rest => c = quote || closes quote (c = '\\') rest

theorem closes_append {escaped : Bool} (h : closes quote escaped text = true) :
    closes quote escaped (text ++ rest) = true := by
  induction text generalizing escaped with
  | nil => cases escaped <;> cases h
  | cons c text ih =>
    cases escaped with
    | true => exact ih h
    | false =>
      rw [closes, Bool.or_eq_true] at h
      rw [List.cons_append, closes, Bool.or_eq_true]
      exact h.imp id ih

theorem stringLength_append {escaped : Bool} (h : closes quote escaped text = true) :
    stringLength quote escaped (text ++ rest) = stringLength quote escaped text := by
  induction text generalizing escaped with
  | nil => cases escaped <;> cases h
  | cons c text ih =>
    cases escaped with
    | true =>
      rw [List.cons_append, stringLength, stringLength, if_pos rfl, if_pos rfl, ih h]
    | false =>
      rw [List.cons_append, stringLength, stringLength, if_neg Bool.false_ne_true,
        if_neg Bool.false_ne_true]
      split
      · rfl
      · rename_i hquote
        rw [closes, Bool.or_eq_true, decide_eq_true_eq] at h
        rw [ih (h.resolve_left hquote)]

theorem stringLength_le (quote : Char) (escaped : Bool) (text : List Char) :
    stringLength quote escaped text ≤ text.length := by
  induction text generalizing escaped with
  | nil => exact Nat.le_refl _
  | cons c text ih =>
    have hfalse := ih false
    have hnext := ih (decide (c = '\\'))
    rw [stringLength, List.length_cons]
    split
    · omega
    · split <;> omega

/-- The characters that end strings. -/
def isQuote (c : Char) : Bool := c = '\x22' || c = '\x27'

theorem closes_hex (hquote : isQuote quote = true) {digits : List Char}
    (hdigits : digits.all (Number.isDigit 16) = true) (rest : List Char) :
    closes quote false (digits ++ rest) = closes quote false rest := by
  induction digits with
  | nil => rfl
  | cons c digits ih =>
    rw [List.all_cons, Bool.and_eq_true] at hdigits
    obtain ⟨hc, htail⟩ := hdigits
    have hne : c ≠ quote := by
      rintro rfl
      rw [isQuote, Bool.or_eq_true, decide_eq_true_eq, decide_eq_true_eq] at hquote
      rcases hquote with rfl | rfl <;> exact absurd hc (by decide)
    have hslash : c ≠ '\\' := by
      rintro rfl
      exact absurd hc (by decide)
    rw [List.cons_append, closes, decide_eq_false hne, decide_eq_false hslash, Bool.false_or,
      ih htail]

theorem closes_of_codeUnit (hquote : isQuote quote = true) {code : Nat}
    (h : codeUnit text = .ok code) :
    closes quote false text = closes quote false (text.drop 4) := by
  unfold codeUnit at h
  dsimp only at h
  split at h
  · rename_i hdigits
    conv => lhs; rw [← List.take_append_drop 4 text]
    exact closes_hex hquote hdigits.2 _
  · cases h

theorem closes_of_codeEscape (hquote : isQuote quote = true) {char : Char} {length : Nat}
    (h : codeEscape text = .ok (char, length)) :
    closes quote false text = closes quote false (text.drop length) := by
  cases hhigh : codeUnit text with
  | error fault => rw [codeEscape, hhigh] at h; cases h
  | ok high =>
    rw [codeEscape, hhigh] at h
    change (if _ then _ else _ : Except LexFault (Char × Nat)) = _ at h
    split at h
    · generalize hdrop : text.drop 4 = tail at h
      split at h
      · rename_i more
        cases hlow : codeUnit more with
        | error fault => rw [hlow] at h; cases h
        | ok low =>
          rw [hlow] at h
          change (if _ then _ else _ : Except LexFault (Char × Nat)) = _ at h
          split at h
          · generalize charOfCode _ = found at h
            cases found with
            | error fault => cases h
            | ok v =>
              cases h
              -- two escapes in a row
              have hten : text.drop 10 = more.drop 4 := by
                rw [show text.drop 10 = (text.drop 4).drop 6 by rw [List.drop_drop], hdrop]
                rfl
              have hslash : quote ≠ '\\' := by
                rintro rfl
                exact absurd hquote (by decide)
              rw [closes_of_codeUnit hquote hhigh, hdrop, hten, ← closes_of_codeUnit hquote hlow]
              simp [closes, hslash.symm]
          · cases h
      · cases h
    · generalize charOfCode _ = found at h
      cases found with
      | error fault => cases h
      | ok v =>
        cases h
        exact closes_of_codeUnit hquote hhigh

theorem ok_of_map {α β ε : Type} {f : α → β} {x : Except ε α} {b : β} (h : f <$> x = .ok b) :
    ∃ a, x = .ok a ∧ f a = b := by
  cases x with
  | error => cases h
  | ok a => exact ⟨a, rfl, Except.ok.inj h⟩

/-- A string whose characters can be read is closed. -/
theorem closes_of_stringChars (hquote : isQuote quote = true) {chars : List Char} {skip : Nat}
    (h : stringChars quote skip text = .ok chars) :
    closes quote false (text.drop skip) = true := by
  induction text generalizing skip chars with
  | nil => cases skip <;> cases h
  | cons c rest ih =>
    cases skip with
    | succ skip => exact ih h
    | zero =>
      rw [List.drop_zero, closes, Bool.or_eq_true, decide_eq_true_eq]
      by_cases hc : c = quote
      · exact .inl hc
      · right
        rw [stringChars.eq_def] at h
        dsimp only at h
        rw [if_neg hc] at h
        split at h
        · rename_i hslash
          rw [decide_eq_true hslash]
          cases rest with
          | nil => cases h
          | cons letter more =>
            change closes quote false more = true
            split at h
            · cases h
            · rename_i more' heq
              obtain ⟨rfl, rfl⟩ := List.cons.inj heq
              cases hcode : codeEscape more with
              | error fault => rw [hcode] at h; cases h
              | ok found =>
                obtain ⟨char, length⟩ := found
                rw [hcode] at h
                obtain ⟨chars, hchars, -⟩ := ok_of_map h
                have hclosed := ih hchars
                rw [Nat.add_comm] at hclosed
                rw [closes_of_codeEscape hquote hcode]
                exact hclosed
            · split at h
              · obtain ⟨chars, hchars, -⟩ := ok_of_map h
                exact ih hchars
              · cases h
        · rename_i hslash
          rw [decide_eq_false hslash]
          obtain ⟨chars, hchars, -⟩ := ok_of_map h
          exact ih hchars

/-! ## Comments -/

theorem commentLength_cons_cons {e : Char} (h : ¬ (c = '*' ∧ e = '/')) (text : List Char) :
    commentLength (c :: e :: text) = 1 + commentLength (e :: text) := by
  rw [commentLength.eq_def]
  dsimp only
  split
  · rename_i heq
    obtain ⟨rfl, -⟩ := List.cons.inj heq
    exact absurd ⟨rfl, rfl⟩ h
  · rfl

/-- A closed comment ends at its mark, whatever stands behind it. -/
theorem commentLength_append (h : ['*', '/'] <:+: text) (rest : List Char) :
    commentLength (text ++ rest) = commentLength text := by
  induction text with
  | nil => simp at h
  | cons c text ih =>
    rw [List.infix_cons_iff] at h
    cases text with
    | nil => simp at h
    | cons e text =>
      by_cases hmark : c = '*' ∧ e = '/'
      · obtain ⟨rfl, rfl⟩ := hmark
        rfl
      · have hlater : ['*', '/'] <:+: e :: text := by
          refine h.resolve_left fun hprefix => hmark ?_
          simpa [eq_comm] using hprefix
        have hih := ih hlater
        rw [List.cons_append] at hih
        rw [List.cons_append, List.cons_append, commentLength_cons_cons hmark,
          commentLength_cons_cons hmark, hih]

theorem commentLength_le (text : List Char) : commentLength text ≤ text.length := by
  induction text with
  | nil => exact Nat.le_refl _
  | cons c text ih =>
    rw [commentLength.eq_def]
    dsimp only
    split
    · simp
    · rw [List.length_cons]
      omega

/-! ## Tokens -/

theorem string_append (hquote : isQuote quote = true) {rest : List Char}
    (h : (string quote rest).reading = .token t) (back : List Char) :
    string quote (rest ++ back) = string quote rest := by
  have hclosed : closes quote false rest = true := by
    unfold string at h
    dsimp only at h
    split at h
    · rename_i chars hchars
      have htaken := closes_of_stringChars hquote hchars
      rw [List.drop_zero] at htaken
      rw [← List.take_append_drop (stringLength quote false rest) rest]
      exact closes_append htaken
    · cases h
  unfold string
  dsimp only
  rw [stringLength_append hclosed, List.take_append_of_le_length (stringLength_le _ _ _)]

theorem punctuation?_append (hd : separates d = true) :
    punctuation? c (rest ++ d :: back).head? = punctuation? c rest.head? := by
  have hequal : (d != '=') = true := of_separates (p := (· != '=')) hd (by decide)
  have hbar : (d != '|') = true := of_separates (p := (· != '|')) hd (by decide)
  unfold punctuation?
  simp only [head?_append_of_ne (by simpa using hequal), head?_append_of_ne (by simpa using hbar)]

/-- **A token stays the same**, whatever stands behind what separates it. -/
theorem scan_append (hd : separates d = true) (h : (scan c rest).reading = .token t)
    (back : List Char) : scan c (rest ++ d :: back) = scan c rest := by
  have hstar : (rest ++ d :: back).head? = some '*' ↔ rest.head? = some '*' := by
    have hne : (d != '*') = true := of_separates (p := (· != '*')) hd (by decide)
    exact head?_append_of_ne (by simpa using hne) rest
  have hends : EndsNumber (d :: back) := endsNumber_of_separates hd
  have hdigit : (rest ++ d :: back).head?.any isDigit = rest.head?.any isDigit :=
    head?_any_append (hends.digit d rfl) rest
  unfold scan at h ⊢
  simp only [hstar, hdigit]
  split
  · rename_i hgap
    rw [if_pos hgap] at h
    cases h
  rename_i hgap
  rw [if_neg hgap] at h
  split
  · rename_i hcomment
    rw [if_pos hcomment] at h
    cases h
  rename_i hcomment
  rw [if_neg hcomment] at h
  split
  · rename_i hnumber
    rw [if_pos hnumber] at h
    exact number_append hends h
  rename_i hnumber
  rw [if_neg hnumber] at h
  split
  · rename_i hquote
    rw [if_pos hquote] at h
    exact string_append (by simpa [isQuote] using hquote) h _
  rename_i hquote
  rw [if_neg hquote] at h
  split
  · unfold word
    rw [takeWhile_append_of_head hends.letter]
  rename_i hstart
  rw [if_neg hstart] at h
  split
  · have halpha : (rest ++ d :: back).head?.any Char.isAlpha = rest.head?.any Char.isAlpha := by
      have hnone : (!d.isAlpha) = true := of_separates (p := fun c => !c.isAlpha) hd (by decide)
      exact head?_any_append (by simpa using hnone) rest
    unfold dollarName
    rw [takeWhile_append_of_head hends.letter, halpha]
  · rw [punctuation?_append hd]

/-- A closed comment stays the same, whatever stands behind it. -/
theorem scan_comment_append (hc : ¬ isGap c = true) (hcomment : c = '/' ∧ rest.head? = some '*')
    (hclosed : ['*', '/'] <:+: rest.drop 1) (back : List Char) :
    scan c (rest ++ back) = scan c rest := by
  cases rest with
  | nil => cases hcomment.2
  | cons star rest =>
    have hcomment' : c = '/' ∧ (star :: rest ++ back).head? = some '*' := hcomment
    have hrest : ['*', '/'] <:+: rest := hclosed
    rw [scan, scan, if_neg hc, if_neg hc, if_pos hcomment, if_pos hcomment', List.cons_append,
      List.drop_succ_cons, List.drop_succ_cons, List.drop_zero, List.drop_zero,
      commentLength_append hrest]

/-- Gaps are white space and comments. -/
theorem reading_ne_gap (hc : ¬ isGap c = true) (hcomment : ¬ (c = '/' ∧ rest.head? = some '*')) :
    (scan c rest).reading ≠ .gap := by
  unfold scan
  rw [if_neg hc, if_neg hcomment]
  split
  · rcases reading_number_cases (c :: rest) with ⟨x, hx⟩ | ⟨fault, hfault⟩ <;> simp [*]
  split
  · unfold string
    dsimp only
    split <;> simp
  split
  · simp [word]
  split
  · unfold dollarName
    dsimp only
    split <;> simp
  split <;> simp

/-! ## How far pieces go -/

theorem takeWhile_length_le (p : Char → Bool) (text : List Char) :
    (text.takeWhile p).length ≤ text.length := (List.takeWhile_sublist p).length_le

theorem decimalEnd_length_le (text whole fraction : List Char) (length : Nat) (tail : List Char) :
    (decimalEnd text whole fraction length tail).length ≤ length + tail.length := by
  unfold decimalEnd
  split
  · rename_i more
    have hle := takeWhile_length_le (fun c => isDigit c || c = '.') more
    simp only [malformedNumber, List.length_cons]
    omega
  · rename_i c more _
    split
    · dsimp only
      generalize hsign : (if more.head? = some '+' ∨ more.head? = some '-' then 1 else 0) = sign
      have hle : sign ≤ more.length := by
        rw [← hsign]
        cases more <;> simp
        split <;> omega
      have hpower := takeWhile_length_le isDigit (more.drop sign)
      rw [List.length_drop] at hpower
      split
      · simp only [malformedNumber, List.length_cons]
        omega
      · simp only [List.length_cons]
        omega
    · simp
  · simp

theorem code_length_le (base : Nat) (htwo : 2 ≤ text.length) :
    (code base text).length ≤ text.length := by
  have hle := takeWhile_length_le (fun c => isNameChar c || c = '.') (text.drop 2)
  rw [List.length_drop] at hle
  unfold code
  dsimp only
  split
  · dsimp only
    omega
  · simp only [malformedNumber]
    omega

theorem number_length_le (text : List Char) : (number text).length ≤ text.length := by
  unfold number
  split
  · exact code_length_le _ (by simp)
  · exact code_length_le _ (by simp)
  · exact code_length_le _ (by simp)
  · exact code_length_le _ (by simp)
  · have hle := mantissa_le text
    have hend := decimalEnd_length_le text (mantissa text).1 (mantissa text).2.1
      (mantissa text).2.2 (text.drop (mantissa text).2.2)
    rw [List.length_drop] at hend
    rw [decimal_eq]
    omega

theorem punctuation?_length_le {n : Nat} (h : punctuation? c rest.head? = some (t, n)) :
    n ≤ rest.length + 1 := by
  have hpair : ∀ {next : Char} {both one : Sign} {found : Token × Nat},
      (if rest.head? = some next then some (Token.sign both, 2) else some (Token.sign one, 1))
        = some found → found.2 ≤ rest.length + 1 := by
    intro next both one found hfound
    split at hfound
    · rename_i hnext
      cases hfound
      cases rest with
      | nil => cases hnext
      | cons => simp
    · cases hfound
      simp
  unfold punctuation? at h
  dsimp only at h
  split at h <;> first | exact hpair h | (cases h <;> simp)

/-- A piece does not go on behind the end of the text. -/
theorem scan_length_le (c : Char) (rest : List Char) : (scan c rest).length ≤ rest.length + 1 := by
  unfold scan
  split
  · have hle := takeWhile_length_le isGap rest
    dsimp only
    omega
  split
  · rename_i hcomment
    cases rest with
    | nil => cases hcomment.2
    | cons d rest =>
      have hle := commentLength_le rest
      simp only [List.drop_one, List.tail_cons, List.length_cons]
      omega
  split
  · exact number_length_le _
  split
  · have hle := stringLength_le c false rest
    simp only [string]
    omega
  split
  · have hle := takeWhile_length_le isNameChar rest
    simp only [word]
    omega
  split
  · have hle := takeWhile_length_le isNameChar rest
    simp only [dollarName]
    omega
  split
  · rename_i token length hsome
    exact punctuation?_length_le hsome
  · simp

end
end Scan

/-! ## Texts behind each other -/

/-- The piece, so much further behind in a text. -/
def Lexeme.moved (distance : Nat) : Lexeme → Lexeme
  | .token t => .token ⟨t.token, t.start + distance, t.stop + distance⟩
  | .rejected fault start stop => .rejected fault (start + distance) (stop + distance)

theorem lexemesFrom_moved (distance skip offset : Nat) (text : List Char) :
    lexemesFrom skip (offset + distance) text
      = (lexemesFrom skip offset text).map (.moved distance) := by
  induction text generalizing skip offset with
  | nil => cases skip <;> rfl
  | cons c rest ih =>
    have hstart : offset + distance + c.utf8Size = offset + c.utf8Size + distance := by omega
    cases skip with
    | succ skip =>
      rw [lexemesFrom, lexemesFrom, hstart, ih]
    | zero =>
      rw [lexemesFrom, lexemesFrom, hstart, ih]
      generalize hscan : Scan.scan c rest = scanned
      obtain ⟨reading, length⟩ := scanned
      cases reading with
      | gap => rfl
      | token t =>
        simp only [Lexeme.ofReading?, List.map_cons, Lexeme.moved]
        rw [Nat.add_right_comm]
      | rejected fault =>
        simp only [Lexeme.ofReading?, List.map_cons, Lexeme.moved]
        rw [Nat.add_right_comm]

/-- Every comment of the text is closed.  The first `skip` characters belong to the piece before. -/
def CommentsClosed : Nat → List Char → Prop
  | _, [] => True
  | skip + 1, _ :: rest => CommentsClosed skip rest
  | 0, c :: rest =>
    (c = '/' ∧ rest.head? = some '*' → ['*', '/'] <:+: rest.drop 1) ∧
      CommentsClosed ((Scan.scan c rest).length - 1) rest

instance decidableCommentsClosed :
    (skip : Nat) → (text : List Char) → Decidable (CommentsClosed skip text)
  | 0, [] => .isTrue trivial
  | _ + 1, [] => .isTrue trivial
  | skip + 1, _ :: rest => decidableCommentsClosed skip rest
  | 0, c :: rest =>
    have := decidableCommentsClosed ((Scan.scan c rest).length - 1) rest
    inferInstanceAs (Decidable ((c = '/' ∧ rest.head? = some '*' → ['*', '/'] <:+: rest.drop 1) ∧
      CommentsClosed ((Scan.scan c rest).length - 1) rest))

@[simp] theorem commentsClosed_skip (skip : Nat) (c : Char) (rest : List Char) :
    CommentsClosed (skip + 1) (c :: rest) ↔ CommentsClosed skip rest := Iff.rfl

theorem commentsClosed_cons (c : Char) (rest : List Char) :
    CommentsClosed 0 (c :: rest)
      ↔ (c = '/' ∧ rest.head? = some '*' → ['*', '/'] <:+: rest.drop 1) ∧
        CommentsClosed ((Scan.scan c rest).length - 1) rest := Iff.rfl

theorem commentsClosed_of_length_le {text : List Char} {skip : Nat} (h : text.length ≤ skip) :
    CommentsClosed skip text := by
  induction text generalizing skip with
  | nil =>
    cases skip <;> trivial
  | cons c rest ih =>
    cases skip with
    | zero => exact absurd h (by simp)
    | succ skip => exact ih (Nat.le_of_succ_le_succ h)

theorem CommentsClosed.of_gap {c : Char} {rest : List Char} (hc : Scan.isGap c = true)
    (h : CommentsClosed 0 (c :: rest)) : CommentsClosed 0 rest := by
  have hlater : CommentsClosed (rest.takeWhile Scan.isGap).length rest := by
    have hscan := h.2
    rw [Scan.scan, if_pos hc] at hscan
    simpa using hscan
  cases rest with
  | nil => trivial
  | cons next rest =>
    by_cases hnext : Scan.isGap next = true
    · rw [List.takeWhile_cons_of_pos hnext] at hlater
      refine ⟨?_, ?_⟩
      · rintro ⟨rfl, -⟩
        exact absurd hnext (by decide)
      · rw [Scan.scan, if_pos hnext, Nat.add_sub_cancel_left]
        exact hlater
    · rwa [List.takeWhile_cons_of_neg hnext] at hlater

/-- All pieces are tokens. -/
def AllTokens (pieces : List Lexeme) : Prop := ∀ l ∈ pieces, ∃ t, l = .token t

/-- **The pieces of a text stay the same before a gap**, and the pieces of what stands behind it
follow them. -/
theorem lexemesFrom_append {d : Char} (hd : Scan.isGap d = true) {front : List Char} {skip : Nat}
    (back : List Char) (offset : Nat) (hskip : skip ≤ front.length)
    (hclosed : CommentsClosed skip front) (htokens : AllTokens (lexemesFrom skip offset front)) :
    lexemesFrom skip offset (front ++ d :: back)
      = lexemesFrom skip offset front
        ++ lexemesFrom 0 (offset + byteLength front + d.utf8Size) back := by
  induction front generalizing skip offset with
  | nil =>
    obtain rfl := Nat.le_zero.mp hskip
    rw [List.nil_append, lexemesFrom_cons_gap hd]
    rfl
  | cons c rest ih =>
    have hstop : offset + byteLength (c :: rest) + d.utf8Size
        = offset + c.utf8Size + byteLength rest + d.utf8Size := by
      rw [byteLength_cons]
      omega
    rw [hstop]
    cases skip with
    | succ skip =>
      exact ih _ (Nat.le_of_succ_le_succ hskip) hclosed htokens
    | zero =>
      by_cases hc : Scan.isGap c = true
      · rw [lexemesFrom_cons_gap hc] at htokens
        rw [List.cons_append, lexemesFrom_cons_gap hc, lexemesFrom_cons_gap hc]
        exact ih _ (Nat.zero_le _) (hclosed.of_gap hc) htokens
      · obtain ⟨hcomment, hlater⟩ := hclosed
        have hscan : Scan.scan c (rest ++ d :: back) = Scan.scan c rest := by
          by_cases hopens : c = '/' ∧ rest.head? = some '*'
          · exact Scan.scan_comment_append hc hopens (hcomment hopens) _
          · cases hreading : (Scan.scan c rest).reading with
            | gap => exact absurd hreading (Scan.reading_ne_gap hc hopens)
            | token t => exact Scan.scan_append (by simp [Scan.separates, hd]) hreading _
            | rejected fault =>
              rw [lexemesFrom, hreading] at htokens
              obtain ⟨t, ht⟩ := htokens _ (.head _)
              cases ht
        have hle := Scan.scan_length_le c rest
        have hstart : ((c :: rest) ++ d :: back).take (Scan.scan c rest).length
            = (c :: rest).take (Scan.scan c rest).length := List.take_append_of_le_length hle
        have hmore : AllTokens
            (lexemesFrom ((Scan.scan c rest).length - 1) (offset + c.utf8Size) rest) := by
          rw [lexemesFrom] at htokens
          split at htokens
          · exact fun l hl => htokens l (.tail _ hl)
          · exact htokens
        rw [List.cons_append] at hstart
        rw [List.cons_append, lexemesFrom, hscan, lexemesFrom, hstart,
          ih _ (by omega) hlater hmore]
        split <;> rfl

-- about a text at hand it is decided, not unfolded
attribute [irreducible] CommentsClosed

end Formula
