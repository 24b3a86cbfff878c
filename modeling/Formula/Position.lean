/-! # Places in a source text

A source text is a list of characters.  Offsets count the bytes of its UTF-8 form, lines and
columns count from one, and a column counts characters.
-/
namespace Formula

/-- How many bytes the characters take in UTF-8. -/
def byteLength : List Char → Nat
  | [] => 0
  | c :: rest => c.utf8Size + byteLength rest

@[simp] theorem byteLength_nil : byteLength [] = 0 := rfl

@[simp] theorem byteLength_cons (c : Char) (rest : List Char) :
    byteLength (c :: rest) = c.utf8Size + byteLength rest := rfl

@[simp] theorem byteLength_append (front back : List Char) :
    byteLength (front ++ back) = byteLength front + byteLength back := by
  induction front with
  | nil => simp
  | cons c rest ih => simp [ih, Nat.add_assoc]

theorem eq_nil_of_byteLength {text : List Char} (h : byteLength text = 0) : text = [] := by
  cases text with
  | nil => rfl
  | cons c rest =>
    have hsize := c.utf8Size_pos
    rw [byteLength_cons] at h
    omega

/-- The bytes of a text are the bytes of its characters. -/
theorem byteLength_toList (text : String) : byteLength text.toList = text.utf8ByteSize := by
  suffices size : ∀ chars : List Char, byteLength chars = (String.ofList chars).utf8ByteSize by
    simpa using size text.toList
  intro chars
  induction chars with
  | nil => rfl
  | cons c rest ih =>
    have split : String.ofList (c :: rest) = String.ofList [c] ++ String.ofList rest := by
      rw [← String.ofList_append]; rfl
    rw [byteLength_cons, ih, split, String.utf8ByteSize_append, ← String.singleton_eq_ofList,
      String.utf8ByteSize_singleton]

/-- A place in a source text. -/
structure Position where
  /-- One more than the number of line ends before the place. -/
  line : Nat
  /-- One more than the number of characters since the last line end. -/
  column : Nat
  /-- The number of bytes before the place. -/
  offset : Nat
  deriving DecidableEq, Repr

namespace Position

/-- Line and column, as messages show them. -/
def text (p : Position) : String := toString p.line ++ ":" ++ toString p.column

/-! ## Lines -/

/-- The offsets behind the line ends of a text that begins at byte `offset`. -/
def lineStartsFrom : Nat → List Char → List Nat
  | _, [] => []
  | offset, c :: rest =>
    let later := lineStartsFrom (offset + c.utf8Size) rest
    if c = '\n' then (offset + c.utf8Size) :: later else later

/-- Where the lines of a text begin, in order.  The first begins with the text. -/
def lineStarts (source : List Char) : Array Nat := (0 :: lineStartsFrom 0 source).toArray

/-- Looks for `x` in a sorted table from the place `low` up to `high`, and halves the distance
each time: the place where it stands or, as an error, the place where it could be put in. -/
def search (table : Array Nat) (x low high : Nat) : Except Nat Nat :=
  if low < high then
    let middle := low + (high - low) / 2
    let y := table[middle]?.getD 0
    if y = x then .ok middle
    else if y < x then search table x (middle + 1) high
    else search table x low middle
  else .error low
termination_by high - low

/-- The line of an offset, counted from zero: the last one that begins there or before. -/
def lineOf (starts : Array Nat) (offset : Nat) : Nat :=
  match search starts offset 0 starts.size with
  | .ok line => line
  | .error next => next - 1

/-! ## Columns -/

/-- What stands behind so many bytes of a text, if these are whole characters of it. -/
def dropBytes? : Nat → List Char → Option (List Char)
  | 0, text => some text
  | _ + 1, [] => none
  | bytes + 1, c :: rest =>
    if c.utf8Size ≤ bytes + 1 then dropBytes? (bytes + 1 - c.utf8Size) rest else none

/-- The first so many bytes of a text, if these are whole characters of it. -/
def takeBytes? : Nat → List Char → Option (List Char)
  | 0, _ => some []
  | _ + 1, [] => none
  | bytes + 1, c :: rest =>
    if c.utf8Size ≤ bytes + 1 then (c :: ·) <$> takeBytes? (bytes + 1 - c.utf8Size) rest else none

/-- The characters of a text from byte `start` up to byte `stop`, if both are between characters
of it and in this order. -/
def slice? (text : List Char) (start stop : Nat) : Option (List Char) :=
  if start ≤ stop then (dropBytes? start text).bind (takeBytes? (stop - start)) else none

/-- The place of a byte offset in a text.  An offset inside a character or behind the end is no
place of the text; its column counts bytes. -/
def locate (source : List Char) (offset : Nat) : Position :=
  let starts := lineStarts source
  let line := lineOf starts offset
  let start := starts[line]?.getD 0
  let column := match slice? source start offset with
    | some text => text.length
    | none => offset - start
  ⟨line + 1, column + 1, offset⟩

end Position
end Formula
