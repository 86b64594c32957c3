import MakeBlueprint.Makefile.Fault
import MakeBlueprint.Makefile.Statement

/-!
# Cursors

A cursor is a makefile that has been read up to some place: the tokens that are left, and what was
found before them. Comments may stand in the middle of a statement, so they are kept apart.

* `advance` is the only way forward; `textOf_rest_advance` and `read_advance` say that the bytes
  that leave the rest are the bytes that are counted as read.
* `report` notes a fault. At the last fault that is allowed, the rest of the text is given up.
-/

namespace MakeBlueprint.Makefile

/-- A place in a makefile, with what was found before it. -/
structure Cursor where
  /-- The tokens that are left. -/
  rest : List Token
  /-- The position behind the last token read. -/
  read : Nat
  /-- The number of bytes of the whole text. -/
  size : Nat
  /-- The statements so far, comments left out. -/
  statements : List (Content × Span)
  comments : List (Content × Span)
  faults : List Fault

/-- Whether a kind of token is a blank inside a line. -/
def Token.Kind.isBlank : Token.Kind → Bool
  | .whitespace | .tab => true
  | _ => false

/-- Whether the token escapes a line break. -/
def Token.escapesBreak (t : Token) : Bool :=
  match t.text with
  | _ :: '\n' :: _ | _ :: '\r' :: _ => true
  | _ => false

namespace Cursor

/-- The start of a text. -/
def start (source : Text) : Cursor where
  rest := Token.lex source
  read := 0
  size := Text.byteSize source
  statements := []
  comments := []
  faults := []

/-- The kind of the next token but `n`. -/
def kindAt (c : Cursor) (n : Nat) : Option Token.Kind := c.rest[n]?.map Token.kind

/-- The position of the next token. -/
def offset (c : Cursor) : Nat := if c.rest.isEmpty then c.size else c.read

/-- The cursor behind the next `n` tokens. -/
def advance (c : Cursor) (n : Nat) : Cursor :=
  { c with
    rest := c.rest.drop n
    read := c.read + Text.byteSize (Token.textOf (c.rest.take n)) }

theorem textOf_rest_advance (c : Cursor) (n : Nat) :
    Token.textOf (c.rest.take n) ++ Token.textOf (c.advance n).rest = Token.textOf c.rest := by
  simp only [advance, Token.textOf]
  rw [← List.flatMap_append, List.take_append_drop]

theorem read_advance (c : Cursor) (n : Nat) :
    (c.advance n).read + Text.byteSize (Token.textOf (c.advance n).rest)
      = c.read + Text.byteSize (Token.textOf c.rest) := by
  rw [← textOf_rest_advance c n, Text.byteSize_append, ← Nat.add_assoc]
  rfl

/-- The cursor behind the tokens of a class. -/
def skipWhile (p : Token.Kind → Bool) (c : Cursor) : Cursor :=
  c.advance (c.rest.takeWhile fun t => p t.kind).length

/-- The cursor behind blanks of the same line. -/
def skipBlanks (c : Cursor) : Cursor := c.skipWhile Token.Kind.isBlank

/-- The cursor behind blanks and line breaks. -/
def skipSpace (c : Cursor) : Cursor := c.skipWhile fun k => k.isBlank || k == .newline

/-- The tokens up to the end of the line. -/
def line (c : Cursor) : List Token := c.rest.takeWhile fun t => t.kind != .newline

/-- The cursor at the end of the line. -/
def skipLine (c : Cursor) : Cursor := c.advance c.line.length

/-- The cursor behind a line break, if one is next. -/
def skipBreak (c : Cursor) : Cursor := if c.kindAt 0 = some .newline then c.advance 1 else c

/-- Notes a fault, unless there are too many already. With the last one that is noted, the rest of
the text is given up. -/
def report (c : Cursor) (offset : Nat) (cause : Cause) : Cursor :=
  if Fault.limit ≤ c.faults.length then c
  else if Fault.limit ≤ c.faults.length + 1 then
    { c with faults := c.faults ++ [⟨cause, offset⟩], rest := [] }
  else { c with faults := c.faults ++ [⟨cause, offset⟩] }

/-- Notes a fault at the next token. -/
def reportHere (c : Cursor) (cause : Cause) : Cursor := c.report c.offset cause

/-- The bytes from a position to the last token read. -/
def spanFrom (c : Cursor) (start : Nat) : Span := ⟨start, max c.read start⟩

/-- Adds a statement that began at a position and ends here. -/
def record (c : Cursor) (content : Content) (start : Nat) : Cursor :=
  { c with statements := c.statements ++ [(content, c.spanFrom start)] }

/-- Reads a comment with the line break that ends it. -/
def comment (c : Cursor) : Cursor :=
  let body := c.advance 1
  let text := body.line.flatMap fun t => if t.kind = .escape ∧ t.escapesBreak then ['\n'] else t.text
  let behind := body.skipLine.advance 1
  { behind with comments := behind.comments ++ [(.comment text, behind.spanFrom c.offset)] }

end Cursor

end MakeBlueprint.Makefile
