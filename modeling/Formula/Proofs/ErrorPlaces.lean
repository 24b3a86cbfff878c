import Formula.Proofs.Lines
import Formula.Proofs.Lookahead

/-! # Where errors are noticed

An error of reading a text names the text and the place of what it is about: text that is rejected,
or a token, or the end (`Error.PointsInto`).  What is rejected is told by the pieces of the text.
That a reader of the grammar fails at a token of its text, or at the end of it, is a fact about one
reading beside itself (`Grammar.within`), in which all pieces are pieces of the text.

If a text is refused for text that is no token, that is the first such text in it, and the error is
the one of taking the text apart.  With the places of offsets, this makes the main statement
(`places_right`).
-/
namespace Formula

/-- At this byte of the text begins what the fault is about. -/
def Fault.BeginsAt (text : List Char) (offset : Nat) : Fault → Prop
  | .lex fault => ∃ stop, .rejected fault offset stop ∈ lexemes text
  | .parse _ | .access _ =>
    offset = byteLength text ∨ ∃ t, .token t ∈ lexemes text ∧ t.start = offset
  | .call _ | .evaluation _ => False

/-- The error names the text, and the place in it of what it is about. -/
structure Error.PointsInto (source : String) (error : Error) : Prop where
  source_eq : error.source = some source
  place : ∃ front back, source.toList = front ++ back ∧ error.position = some (.behind front) ∧
    error.fault.BeginsAt source.toList (byteLength front)

/-! ## Pieces of a text -/

theorem Lexeme.start_of_reading {reading : Reading} {start stop : Nat} {l : Lexeme}
    (h : Lexeme.ofReading? reading start stop = some l) : l.start = start := by
  cases reading <;> cases h <;> rfl

/-- The pieces of a text begin between characters. -/
theorem exists_front_of_mem {skip offset : Nat} {text : List Char} {l : Lexeme}
    (h : l ∈ lexemesFrom skip offset text) :
    ∃ front back, text = front ++ back ∧ offset + byteLength front = l.start := by
  induction text generalizing skip offset with
  | nil => cases skip <;> cases h
  | cons c rest ih =>
    have hlater : ∀ skip, l ∈ lexemesFrom skip (offset + c.utf8Size) rest →
        ∃ front back, c :: rest = front ++ back ∧ offset + byteLength front = l.start := by
      intro skip hmem
      obtain ⟨front, back, rfl, hstart⟩ := ih hmem
      exact ⟨c :: front, back, rfl, by rw [byteLength_cons, ← hstart, Nat.add_assoc]⟩
    cases skip with
    | succ skip => exact hlater skip h
    | zero =>
      rw [lexemesFrom] at h
      split at h
      · rename_i hhere
        rcases List.mem_cons.mp h with rfl | hmem
        · exact ⟨[], c :: rest, rfl, (Lexeme.start_of_reading hhere).symm⟩
        · exact hlater _ hmem
      · exact hlater _ h

section
variable {text : List Char} {source : String}

theorem isBoundary_of_mem {l : Lexeme} (h : l ∈ lexemes text) : IsBoundary text l.start := by
  obtain ⟨front, back, htext, hstart⟩ := exists_front_of_mem h
  exact ⟨front, back, htext, by rw [← hstart, Nat.zero_add]⟩

theorem Fault.BeginsAt.isBoundary {fault : Fault} {offset : Nat} (h : fault.BeginsAt text offset) :
    IsBoundary text offset := by
  have htoken : (offset = byteLength text ∨ ∃ t, .token t ∈ lexemes text ∧ t.start = offset) →
      IsBoundary text offset := by
    rintro (rfl | ⟨t, ht, rfl⟩)
    · exact ⟨text, [], (List.append_nil text).symm, rfl⟩
    · exact isBoundary_of_mem ht
  cases fault with
  | lex fault =>
    obtain ⟨stop, hmem⟩ := h
    exact isBoundary_of_mem hmem
  | parse fault => exact htoken h
  | access fault => exact htoken h
  | call fault => exact h.elim
  | evaluation fault => exact h.elim

/-- The error of a failure has the place of what the failure is about. -/
theorem Failure.pointsInto (failure : Failure)
    (h : failure.fault.BeginsAt source.toList failure.offset) :
    (failure.toError source).PointsInto source := by
  obtain ⟨front, back, htext, hoffset⟩ := h.isBoundary
  rw [← hoffset] at h
  refine ⟨rfl, front, back, htext, ?_, h⟩
  rw [Failure.toError, ← hoffset, htext, Position.locate_append]

theorem pointsInto_of_rejected {fault : LexFault} {start stop : Nat}
    (h : .rejected fault start stop ∈ lexemes source.toList) :
    (fault.toError source start).PointsInto source :=
  Failure.pointsInto ⟨.lex fault, start⟩ ⟨stop, h⟩

/-! ## Taking a text apart -/

open Grammar (Takes)

/-- Text that is rejected behind tokens alone is the first, and the error is about it. -/
theorem tokensOf_of_takes {fault : LexFault} {start stop : Nat} {pieces rest : List Lexeme}
    (h : Takes pieces (.rejected fault start stop :: rest)) :
    tokensOf source pieces = .error (fault.toError source start) := by
  obtain ⟨ts, rfl⟩ := h
  induction ts with
  | nil => rfl
  | cons t ts ih =>
    rw [List.map_cons, List.cons_append, tokensOf, ih]
    rfl

/-- Only rejected text makes an error. -/
theorem exists_rejected_of_tokensOf {pieces : List Lexeme} {error : Error}
    (h : tokensOf source pieces = .error error) :
    ∃ fault start stop, .rejected fault start stop ∈ pieces ∧
      error = fault.toError source start := by
  induction pieces with
  | nil => cases h
  | cons l pieces ih =>
    cases l with
    | token t =>
      rw [tokensOf] at h
      cases hlater : tokensOf source pieces with
      | ok tokens =>
        rw [hlater] at h
        cases h
      | error raised =>
        rw [hlater] at h
        obtain rfl := Except.error.inj h
        obtain ⟨fault, start, stop, hmem, hraised⟩ := ih hlater
        exact ⟨fault, start, stop, .tail _ hmem, hraised⟩
    | rejected fault start stop =>
      cases h
      exact ⟨fault, start, stop, .head _, rfl⟩

theorem tokenize_of_takes {fault : LexFault} {start stop : Nat} {rest : List Lexeme}
    (h : Takes (lexemes source.toList) (.rejected fault start stop :: rest)) :
    tokenize source = .error (fault.toError source start) := by
  rw [tokenize, tokensOf_of_takes h]
  rfl

theorem pointsInto_of_tokenize {error : Error} (h : tokenize source = .error error) :
    error.kind = .lex ∧ error.PointsInto source := by
  unfold tokenize at h
  cases htokens : tokensOf source (lexemes source.toList) with
  | ok tokens =>
    rw [htokens] at h
    cases h
  | error raised =>
    rw [htokens] at h
    obtain rfl := Except.error.inj h
    obtain ⟨fault, start, stop, hmem, rfl⟩ := exists_rejected_of_tokensOf htokens
    exact ⟨rfl, pointsInto_of_rejected hmem⟩

end

/-! ## Looking ahead -/

namespace Cursor
variable {source : String}

/-- What is not read yet is part of the text. -/
structure Pending (source : String) (c : Cursor) : Prop where
  source_eq : c.source = source
  pieces : ∀ l ∈ c.pending, l ∈ lexemes source.toList

theorem fill_of_enough {index : Nat} {buffer : List PlacedToken} {l : Lexeme}
    {pending : List Lexeme} (h : index < buffer.length ∨ hasEnded buffer) :
    fill source index buffer (l :: pending) = (.ok (), buffer, l :: pending) := by
  cases l <;> rw [fill, if_pos h]

/-- Reading on leaves pieces that were to be read, and stops early only at one that is rejected. -/
theorem fill_leaves {index : Nat} {buffer buffer' : List PlacedToken}
    {pending pending' : List Lexeme} {outcome : Except Error Unit}
    (h : fill source index buffer pending = (outcome, buffer', pending')) :
    (∀ l ∈ pending', l ∈ pending) ∧ ∀ error, outcome = .error error →
      ∃ fault start stop, .rejected fault start stop ∈ pending ∧
        error = fault.toError source start := by
  induction pending generalizing buffer with
  | nil =>
    rw [fill] at h
    split at h
    · cases h
      exact ⟨fun _ hl => hl, fun _ houtcome => by cases houtcome⟩
    · cases h
      exact ⟨fun _ hl => hl, fun _ houtcome => by cases houtcome⟩
  | cons l pending ih =>
    by_cases henough : index < buffer.length ∨ hasEnded buffer
    · rw [fill_of_enough henough] at h
      cases h
      exact ⟨fun _ hl => hl, fun _ houtcome => by cases houtcome⟩
    · cases l with
      | token t =>
        rw [fill, if_neg henough] at h
        obtain ⟨hpieces, herror⟩ := ih h
        refine ⟨fun l hl => .tail _ (hpieces l hl), fun error houtcome => ?_⟩
        obtain ⟨fault, start, stop, hmem, heq⟩ := herror error houtcome
        exact ⟨fault, start, stop, .tail _ hmem, heq⟩
      | rejected fault start stop =>
        rw [fill, if_neg henough] at h
        cases h
        refine ⟨fun l hl => .tail _ hl, ?_⟩
        rintro _ ⟨⟩
        exact ⟨fault, start, stop, .head _, rfl⟩

/-- An error that is answered is about rejected text of the source. -/
def Answer.Placed (source : String) : Answer → Prop
  | .read (.error error) => error.kind = .lex ∧ error.PointsInto source
  | _ => True

theorem Pending.peekAt {c : Cursor} (h : c.Pending source) (n : Nat) :
    Answer.Placed source (.read (c.peekAt n).1) ∧ (c.peekAt n).2.Pending source := by
  unfold Cursor.peekAt
  cases hfill : fill c.source (c.place + n) c.buffer c.pending with
  | mk outcome rest =>
    obtain ⟨buffer, pending⟩ := rest
    obtain ⟨hpieces, herror⟩ := fill_leaves hfill
    have hleft : ∀ l ∈ pending, l ∈ lexemes source.toList := fun l hl => h.pieces l (hpieces l hl)
    cases outcome with
    | error raised =>
      obtain ⟨fault, start, stop, hmem, rfl⟩ := herror raised rfl
      rw [h.source_eq]
      exact ⟨⟨rfl, pointsInto_of_rejected (h.pieces _ hmem)⟩, rfl, hleft⟩
    | ok done => exact ⟨trivial, h.source_eq, hleft⟩

theorem Pending.advance {c : Cursor} (h : c.Pending source) :
    Answer.Placed source (.read c.advance.1) ∧ c.advance.2.Pending source := by
  obtain ⟨hplaced, hpending⟩ := h.peekAt 0
  unfold Cursor.advance Cursor.peek
  cases hpeek : c.peekAt 0 with
  | mk outcome next =>
    rw [hpeek] at hplaced hpending
    cases outcome with
    | error raised => exact ⟨hplaced, hpending⟩
    | ok t =>
      refine ⟨trivial, ?_⟩
      dsimp only
      split
      · exact hpending
      · exact ⟨hpending.source_eq, hpending.pieces⟩

/-- **Every action answers only errors about rejected text**, and leaves pieces of the text. -/
theorem Pending.act {c : Cursor} (h : c.Pending source) (action : Action) :
    Answer.Placed source (c.act action).1 ∧ (c.act action).2.Pending source := by
  cases action with
  | peek => exact h.peekAt 0
  | peekAt n => exact h.peekAt n
  | advance => exact h.advance
  | save => exact ⟨trivial, h⟩
  | restore mark => exact ⟨trivial, h.source_eq, h.pieces⟩

theorem Pending.answers {c : Cursor} (h : c.Pending source) {actions : List Action}
    {answer : Answer} (hanswer : answer ∈ c.answers actions) : answer.Placed source := by
  induction actions generalizing c with
  | nil => cases hanswer
  | cons action actions ih =>
    obtain ⟨hplaced, hpending⟩ := h.act action
    rcases List.mem_cons.mp hanswer with rfl | hlater
    · exact hplaced
    · exact ih hpending hlater

end Cursor

/-! ## One reading beside itself -/

namespace Grammar

/-- A reading of pieces of the text beside itself: it fails at rejected text of it, at one of its
tokens or at its end. -/
def within (text : List Char) : Pairing where
  pieces l l' := l = l' ∧ l ∈ lexemes text
  failures f f' := f = f' ∧ (f.fault.kind ≠ .lex →
    f.offset = byteLength text ∨ ∃ t, .token t ∈ lexemes text ∧ t.start = f.offset)
  tail := []
  excusesLeft _ := False
  excusesRight _ := False

theorem within_sound (options : Options) (constants : Dict Value) (text : List Char) :
    (within text).Sound ⟨options, constants, finishOf text⟩
      ⟨options, constants, finishOf text⟩ where
  token := by
    rintro t _ ⟨rfl, hmem⟩
    exact ⟨t, rfl, rfl, fun _ => ⟨rfl, fun _ => .inr ⟨t, hmem, rfl⟩⟩⟩
  rejected := by
    rintro fault start stop _ ⟨rfl, -⟩
    exact ⟨start, stop, rfl, rfl, fun hkind => absurd rfl hkind⟩
  tail := .inl ⟨rfl, rfl, .inl ⟨rfl, fun _ => ⟨rfl, fun _ => .inl rfl⟩⟩⟩
  constants := rfl
  allows _ _ := rfl
  conditional := rfl
  array := rfl
  member := rfl
  definition := rfl
  namedOp _ := rfl

/-- **A reading of a whole text fails at text that is rejected, at a token or at the end**, and only
tokens stand before the rejected text. -/
theorem beginsAt_of_whole {options : Options} {constants : Dict Value} {text : List Char}
    {failure : Failure}
    (h : (Grammar.mk options constants (finishOf text)).whole (lexemes text) = .error failure) :
    failure.fault.BeginsAt text failure.offset ∧ FailsOn (lexemes text) failure := by
  have hsound := within_sound options constants text
  have hcontinues : (within text).Continues (lexemes text) (lexemes text) :=
    ⟨_, List.forall₂_same.mpr fun _ hmem => ⟨rfl, hmem⟩, (List.append_nil _).symm⟩
  have hwhole := pairs_whole hsound (pairs_limit hsound rfl) rfl
    (fun hall => hall ⟨.parse .noTarget, 0⟩) _ _ hcontinues
  unfold Pairing.Agrees at hwhole
  rw [h] at hwhole
  -- Nothing is excused here, so the reading fails as it does beside itself.
  cases hwhole with
  | error hfailure hfails =>
    refine ⟨?_, hfails⟩
    cases hfails with
    | rejected htaken =>
      obtain ⟨ts, hts⟩ := htaken
      exact ⟨_, by rw [hts]; exact List.mem_append_right _ (.head _)⟩
    | parse => exact hfailure.2 nofun
    | access => exact hfailure.2 nofun
  | left hnever => exact hnever.elim
  | right hnever => exact hnever.elim

end Grammar

/-- A text that does not compile has an error about rejected text, a token or the end; the first
is the error of taking the text apart. -/
theorem Compiler.pointsInto_of_compile {c : Compiler} {source : String} {error : Error}
    (h : c.compile source = .error error) :
    error.PointsInto source ∧ (error.kind = .lex → tokenize source = .error error) := by
  unfold Compiler.compile Term.parse at h
  cases hread :
      ((Grammar.mk c.options c.constants (finishOf source.toList)).whole).run
        (lexemes source.toList) with
  | ok result =>
    simp only [hread] at h
    cases h
  | error failure =>
    simp only [hread] at h
    obtain rfl := Except.error.inj h
    obtain ⟨hbegins, hfails⟩ := Grammar.beginsAt_of_whole hread
    refine ⟨Failure.pointsInto failure hbegins, fun hkind => ?_⟩
    cases hfails with
    | rejected htaken => exact tokenize_of_takes htaken
    | parse => cases hkind
    | access => cases hkind

/-- **Places are right, and errors of reading are at the places of what they are about.**  A byte
offset between characters has the line and the column of the characters before it, so places follow
each other as their offsets do.  An error of taking the text apart, of looking ahead or of compiling
names the text, and the place where rejected text begins, or a token, or where the text ends; a text
that does not compile because of rejected text has the error of taking it apart. -/
theorem places_right (source : String) :
    (∀ front back, source.toList = front ++ back →
      Position.locate source.toList (byteLength front) = .behind front) ∧
    StrictMonoOn
      (fun offset => toLex ((Position.locate source.toList offset).line,
        (Position.locate source.toList offset).column))
      {offset | String.Pos.Raw.IsValid source ⟨offset⟩} ∧
    (∀ error, tokenize source = .error error → error.kind = .lex ∧ error.PointsInto source) ∧
    (∀ actions error, .read (.error error) ∈ (Cursor.start source).answers actions →
      error.kind = .lex ∧ error.PointsInto source) ∧
    ∀ (c : Compiler) error, c.compile source = .error error →
      error.PointsInto source ∧ (error.kind = .lex → tokenize source = .error error) := by
  refine ⟨fun front back htext => ?_, ?_, fun _ => pointsInto_of_tokenize,
    fun actions error hanswer => ?_, fun _ _ => Compiler.pointsInto_of_compile⟩
  · rw [htext, Position.locate_append]
  · have hmono := Position.strictMonoOn_locate source.toList
    simpa only [isBoundary_iff_isValid] using hmono
  · have hpending : (Cursor.start source).Pending source := ⟨rfl, fun _ hl => hl⟩
    exact hpending.answers hanswer

/-- In `'é'\n.x y #`, a dot is at byte 5, `y` at byte 8 and `#`, which is no token, at byte 10. -/
theorem places_right_with_accent :
    let source := "'é'\n.x y #"
    let place offset := Position.locate source.toList offset
    let rejected : Error := ⟨.lex (.unknownCharacter '#'), some ⟨2, 6, 10⟩, some source⟩
    let unexpected : Error := ⟨.parse (.unexpected (.name "y")), some ⟨2, 4, 8⟩, some source⟩
    let forbidden : Error := ⟨.access .memberAccessOff, some ⟨2, 1, 5⟩, some source⟩
    place 4 = ⟨1, 4, 4⟩ ∧ place 5 = ⟨2, 1, 5⟩ ∧
      toLex ((place 4).line, (place 4).column) < toLex ((place 5).line, (place 5).column) ∧
      tokenize source = .error rejected ∧ rejected.kind = .lex ∧
      .read (.error rejected) ∈ (Cursor.start source).answers [.advance, .peekAt 3] ∧
      rejected.PointsInto source ∧
      Compiler.compile {} source = .error unexpected ∧ unexpected.PointsInto source ∧
      Compiler.compile { options := { allowMemberAccess := false } } source = .error forbidden ∧
      forbidden.PointsInto source := by
  intro source place rejected unexpected forbidden
  obtain ⟨hlocate, hmono, htokenize, hanswers, hcompile⟩ := places_right source
  -- The search for a line does not reduce, so these places come from the characters before them.
  have h4 : place 4 = ⟨1, 4, 4⟩ := hlocate "'é'".toList "\n.x y #".toList (by decide +kernel)
  have h5 : place 5 = ⟨2, 1, 5⟩ := hlocate "'é'\n".toList ".x y #".toList (by decide +kernel)
  have h8 : place 8 = ⟨2, 4, 8⟩ := hlocate "'é'\n.x ".toList "y #".toList (by decide +kernel)
  have h10 : place 10 = ⟨2, 6, 10⟩ := hlocate "'é'\n.x y ".toList "#".toList (by decide +kernel)
  have hvalid4 : String.Pos.Raw.IsValid source ⟨4⟩ := (isBoundary_iff_isValid _ _).mp
    ⟨"'é'".toList, "\n.x y #".toList, by decide +kernel, rfl⟩
  have hvalid5 : String.Pos.Raw.IsValid source ⟨5⟩ := (isBoundary_iff_isValid _ _).mp
    ⟨"'é'\n".toList, ".x y #".toList, by decide +kernel, rfl⟩
  have hrejected : tokenize source = .error rejected := by
    simp only [rejected, ← h10, place, source]
    rfl
  have hunexpected : Compiler.compile {} source = .error unexpected := by
    simp only [unexpected, ← h8, place, source]
    rfl
  have hforbidden : Compiler.compile { options := { allowMemberAccess := false } } source
      = .error forbidden := by
    simp only [forbidden, ← h5, place, source]
    rfl
  have hanswer : .read (.error rejected)
      ∈ (Cursor.start source).answers [.advance, .peekAt 3] := by
    simp only [rejected, ← h10, place, source]
    exact .tail _ (.head _)
  exact ⟨h4, h5, hmono hvalid4 hvalid5 (Nat.lt_succ_self 4), hrejected, (htokenize _ hrejected).1,
    hanswer, (hanswers _ _ hanswer).2, hunexpected, (hcompile _ _ hunexpected).1, hforbidden,
    (hcompile _ _ hforbidden).1⟩

end Formula
