import Formula.Proofs.NumberTexts
import Formula.Proofs.Rereading

/-! # Quoting is undone by reading

Canonical text writes texts as string literals, and keys of objects as words where that is possible
and as string literals where it is not.  The lexer takes a literal as one token, whose text is the
text that was quoted; the parser takes a key as the key that was written (`quoting_undone`).

Neither depends on what is switched on: no operator and no member stands in such a text.
-/
namespace Formula

/-! ## Texts -/

/-- **A string literal is one token**, the text that it quotes. -/
theorem tokenize_literal (s : String) : tokenize (Text.literal s) =
    .ok [⟨.string s, 0, byteLength (Text.literal s).toList⟩, finishOf (Text.literal s).toList] := by
  obtain ⟨c, letters, hletters, hscan⟩ := Scan.scan_literal s []
  have hwhole : Scan.scan c letters = ⟨.token (.string s), (c :: letters).length⟩ := by
    rw [List.append_nil] at hscan
    rw [hscan, List.length_cons, Nat.add_comm]
  have htokens := tokenize_eq_one_iff.mpr (lexemes_cons_eq_iff.mpr hwhole)
  rwa [← hletters, String.ofList_toList] at htokens

/-! ## Keys -/

/-- An object with one field, as canonical text lays it out. -/
def fieldOfOne (key : String) : List Piece :=
  some (.bracket .curlyOpen) :: [some (keyToken key), some (.sign .colon), none,
    some (.number 1.0)] ++ [some (Token.bracket .curlyClose)]

theorem spelled_fieldOfOne (key : String) :
    spelled (fieldOfOne key) = (inCurly (keyText key ++ ": 1")).toList := by
  have hone : (Number.text 1.0).toList = ['1'] := by decide +kernel
  simp [fieldOfOne, inCurly, letters_keyToken, hone, Bracket.spelling, Sign.spelling]

theorem lexesTo_fieldOfOne (key : String) :
    LexesTo (inCurly (keyText key ++ ": 1")).toList
      [.bracket .curlyOpen, keyToken key, .sign .colon, .number 1.0, .bracket .curlyClose] := by
  have hone : Number.ReadsBack 1.0 :=
    Number.readsBack_of_finite (by decide +kernel) (by decide +kernel)
  have hfield : LexesBefore (Token.endsAt · (.number 1.0))
      [some (keyToken key), some (.sign .colon), none, some (.number 1.0)] :=
    lexesBefore_key (lexesBefore_token (.number 1.0) hone)
  have hobject : LexesBefore isBoundary (fieldOfOne key) :=
    lexesBefore_bracketed .curlyOpen .curlyClose hfield rfl
  rw [← spelled_fieldOfOne]
  exact hobject.lexesTo

/-- **An object with one field is read with the key of that field**, whatever is switched on. -/
theorem parse_fieldOfOne {options : Options} (constants : Dict Value) {key : String}
    (hdepth : 6 ≤ options.maxDepth) (hkey : isProtected key = false) :
    Term.parse options constants (inCurly (keyText key ++ ": 1"))
      = .ok (.object [(key, .literal (.number 1.0))]) := by
  obtain ⟨placed, hplaced, hlexemes⟩ := lexesTo_fieldOfOne key 0
  let g : Grammar := ⟨options, constants, finishOf (inCurly (keyText key ++ ": 1")).toList⟩
  -- the number takes three levels of nesting inside the object, and the object takes three itself
  have hvalue : g.Bare 0 [.number 1.0] (.literal (.number 1.0)) :=
    .of_access rfl (leads_of_ahead _ (by simp) (by simp)) fun _ _ => Grammar.readable_number _
  have hobject : g.Bare 3 (.bracket .curlyOpen ::
      separated [[keyToken key, .sign .colon, .number 1.0]] ++ [Token.bracket .curlyClose])
      (.object [(key, .literal (.number 1.0))]) := by
    refine .of_access rfl (leads_of_ahead _ (by simp) (by simp)) fun d hd => ?_
    have hfield : Grammar.ReadsField (g.level d) [keyToken key, .sign .colon, .number 1.0]
        (key, .literal (.number 1.0)) :=
      .intro (keyOf?_keyToken key) hkey ((hvalue.last rfl).assignment hd)
    exact Grammar.readable_object rfl (.cons hfield .nil)
  have hrun : g.whole (placed.map .token) = .ok (_, []) :=
    Grammar.whole_of_encloses rfl ((hobject.last rfl).assignment hdepth) hplaced
  simp only [Term.parse, StateT.run, lexemes, hlexemes]
  rw [hrun]

/-- **Quoting is undone by reading.**  The literal of a text is one token that is the text and takes
all of it, before the end.  An object with one field, written with the canonical text of a key that
is not protected, is parsed as an object with that key and no other, and compiles to one that
stores to that key.  The limit of nesting has to leave the six levels that such an object takes. -/
theorem quoting_undone :
    (∀ s : String, tokenize (Text.literal s) =
      .ok [⟨.string s, 0, byteLength (Text.literal s).toList⟩,
        ⟨.finish, byteLength (Text.literal s).toList, byteLength (Text.literal s).toList⟩]) ∧
    ∀ (c : Compiler) (key : String), 6 ≤ c.options.maxDepth → isProtected key = false →
      Term.parse c.options c.constants (inCurly (keyText key ++ ": 1"))
          = .ok (.object [(key, .literal (.number 1.0))]) ∧
        ∃ e, c.compile (inCurly (keyText key ++ ": 1")) = .ok e ∧
          e.program = [.objectStart, .property key, .literal (.number 1.0), .objectEnd] := by
  refine ⟨tokenize_literal, fun c key hdepth hkey => ?_⟩
  have hparse := parse_fieldOfOne c.constants hdepth hkey
  let source := inCurly (keyText key ++ ": 1")
  let t : Term := .object [(key, .literal (.number 1.0))]
  refine ⟨hparse, ⟨t.code, c.options, c.functions, some source⟩, ?_, rfl⟩
  rw [Compiler.compile, hparse]
  rfl

/-- Of these keys one is a word, which has a meaning of its own as an expression, and the other can
only be quoted. -/
theorem quoting_undone_word_and_quote :
    let c : Compiler := { options := { maxDepth := 6 } }
    tokenize (Text.literal "a\x22\n\x01\u03b1") = .ok [⟨.string "a\x22\n\x01\u03b1", 0, 15⟩,
        ⟨.finish, 15, 15⟩] ∧
      6 ≤ c.options.maxDepth ∧ isProtected "true" = false ∧
      isProtected "a\x22\n\x01\u03b1" = false ∧
      Term.parse c.options c.constants "\x7btrue: 1\x7d"
        = .ok (.object [("true", .literal (.number 1.0))]) ∧
      Term.parse c.options c.constants "\x7b\x22a\\\x22\\n\\u0001\u03b1\x22: 1\x7d"
        = .ok (.object [("a\x22\n\x01\u03b1", .literal (.number 1.0))]) := by
  intro c
  have hword : isProtected "true" = false := by decide +kernel
  have hquoted : isProtected "a\x22\n\x01\u03b1" = false := by decide +kernel
  have hliteral := quoting_undone.1 "a\x22\n\x01\u03b1"
  exact ⟨hliteral, Nat.le_refl 6, hword, hquoted, (quoting_undone.2 c _ (Nat.le_refl 6) hword).1,
    (quoting_undone.2 c _ (Nat.le_refl 6) hquoted).1⟩

end Formula
