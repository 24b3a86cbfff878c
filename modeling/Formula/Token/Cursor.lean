import Formula.Token.Lexer

/-! # A cursor over tokens

A cursor reads the tokens of a text only as far as it is asked to look, and can go back to a place
it has been at.  Rejected text is reported when the cursor first comes upon it; it makes no token,
and reading goes on behind it.  Behind the last token the cursor stands at the end for good.
-/
namespace Formula

/-- A place among the tokens of a text, and what has been read of them. -/
structure Cursor where
  source : String
  /-- The tokens read so far; the token of the end is the last one ever read. -/
  buffer : List PlacedToken
  /-- What has not been read. -/
  pending : List Lexeme
  /-- How many tokens lie before the cursor. -/
  place : Nat

namespace Cursor

/-- A cursor before the first token. -/
def start (source : String) : Cursor := ⟨source, [], lexemes source.toList, 0⟩

/-- Whether the end has been read. -/
def hasEnded (buffer : List PlacedToken) : Bool :=
  buffer.getLast?.any fun t => t.token = .finish

/-- Reads on until there are more than `index` tokens, the end has been read, or text is
rejected. -/
def fill (source : String) (index : Nat) (buffer : List PlacedToken) :
    List Lexeme → Except Error Unit × List PlacedToken × List Lexeme
  | [] =>
    if index < buffer.length ∨ hasEnded buffer then (.ok (), buffer, [])
    else (.ok (), buffer ++ [finishOf source.toList], [])
  | lexeme :: rest =>
    if index < buffer.length ∨ hasEnded buffer then (.ok (), buffer, lexeme :: rest)
    else match lexeme with
      | .token t => fill source index (buffer ++ [t]) rest
      | .rejected fault start _ => (.error (fault.toError source start), buffer, rest)

/-- The token `n` places behind the cursor, or the end if that comes sooner. -/
def peekAt (c : Cursor) (n : Nat) : Except Error PlacedToken × Cursor :=
  let (outcome, buffer, pending) := fill c.source (c.place + n) c.buffer c.pending
  let c := { c with buffer, pending }
  match outcome with
  | .error e => (.error e, c)
  | .ok () =>
    (.ok ((buffer[min (c.place + n) (buffer.length - 1)]?).getD (finishOf c.source.toList)), c)

/-- The token at the cursor. -/
def peek (c : Cursor) : Except Error PlacedToken × Cursor := c.peekAt 0

/-- The token at the cursor; the cursor goes on behind it, unless it is the end. -/
def advance (c : Cursor) : Except Error PlacedToken × Cursor :=
  match c.peek with
  | (.error e, c) => (.error e, c)
  | (.ok t, c) => (.ok t, if t.token = .finish then c else { c with place := c.place + 1 })

/-- The place to come back to. -/
def save (c : Cursor) : Nat := c.place

/-- Goes to a place that was saved. -/
def restore (c : Cursor) (mark : Nat) : Cursor := { c with place := mark }

/-- The line and column of an offset in the text. -/
def position (c : Cursor) (offset : Nat) : Position := Position.locate c.source.toList offset

/-- A fault of grammar at an offset of the text, in the words of the caller. -/
def errorAt (c : Cursor) (offset : Nat) (text : String) : Error :=
  ⟨.parse (.note text), some (c.position offset), some c.source⟩

end Cursor
end Formula
