import MakeBlueprint.Makefile.Cursor.Basic

/-!
# Reading phrases

A phrase goes on to the end of the line, to a comment, or to a token that ends it in its place.
Brackets of the kind that closes a reference nest inside the name of the reference.

* `readBody` reads the body of a phrase. Every token is read once, so the number of tokens that are
  left bounds its depth; `phrase` supplies that bound.
* An escaped line break is a space in a phrase, and every other escape stays as it is.
-/

namespace MakeBlueprint.Makefile

/-- The brackets around the name of a reference. -/
inductive Bracket where
  | paren
  | brace
  deriving DecidableEq, Repr

namespace Bracket

/-- The token that opens a bracket. -/
def opening : Bracket → Token.Kind
  | .paren => .leftParen
  | .brace => .leftBrace

/-- The token that closes a bracket. -/
def closing : Bracket → Token.Kind
  | .paren => .rightParen
  | .brace => .rightBrace

/-- The closing bracket as it is written. -/
def closingChar : Bracket → Char
  | .paren => ')'
  | .brace => '}'

/-- How a reference in these brackets is written. -/
def delimiter : Bracket → Delimiter
  | .paren => .paren
  | .brace => .brace

/-- The bracket that a token opens. -/
def ofOpening? : Option Token.Kind → Option Bracket
  | some .leftParen => some .paren
  | some .leftBrace => some .brace
  | _ => none

end Bracket

/-- Where a phrase stands. -/
inductive Place where
  /-- At the start of a line. -/
  | head
  /-- Behind the colon of a rule. -/
  | prerequisites
  /-- Up to the end of the line. -/
  | line
  /-- In a reference with brackets. -/
  | name (b : Bracket)
  deriving DecidableEq, Repr

namespace Place

/-- Whether a token ends a phrase in this place. -/
def ends : Place → Token.Kind → Bool
  | .head, .equals | .head, .question | .head, .colon | .head, .hash | .head, .newline => true
  | .prerequisites, .hash | .prerequisites, .newline | .prerequisites, .semicolon
  | .prerequisites, .colon | .prerequisites, .equals => true
  | .name b, k => k == b.closing
  | _, _ => false

/-- Whether a token opens a pair of brackets that nests in this place. -/
def opens : Place → Token.Kind → Bool
  | .name b, k => k == b.opening
  | _, _ => false

/-- Whether a token closes a pair of brackets that nests in this place. -/
def closes : Place → Token.Kind → Bool
  | .name b, k => k == b.closing
  | _, _ => false

end Place

namespace Cursor

/-- Reads the name of a reference without brackets, behind its dollar sign: another dollar sign,
one character of an identifier, or one other token. Returns the name and its position. -/
def bareName (dollar : Nat) (c : Cursor) : Text × Nat × Cursor :=
  match c.rest with
  | [] => ([], dollar, c.reportHere .missingName)
  | t :: rest =>
    match t.kind with
    | .newline => ([], dollar, c.reportHere .missingName)
    | .dollar => (dollarName, dollar, c.advance 1)
    | .identifier =>
      match t.text with
      | x :: y :: w =>
        ([x], c.offset, { c with rest := ⟨.identifier, y :: w⟩ :: rest, read := c.read + x.utf8Size })
      | w => (w, c.offset, c.advance 1)
    | _ => (t.text, c.offset, c.advance 1)

/-- Goes past the bracket that ends a reference with the given name. -/
def closeReference (b : Bracket) (name : Phrase.Body) (c : Cursor) : Cursor :=
  if c.kindAt 0 = some b.closing then c.advance 1
  else c.reportHere (.unclosedReference b.closingChar name)

/-- Reads the body of a phrase, with at most the given number of tokens in it. The third argument
counts the nested brackets that are open. -/
def readBody : Nat → Place → Nat → Cursor → Phrase.Body × Cursor
  | 0, _, _, c => (.nil, c)
  | fuel + 1, place, depth, c =>
    match c.rest with
    | [] => (.nil, c)
    | t :: _ =>
      if 0 < depth ∧ place.closes t.kind then
        let (body, behind) := readBody fuel place (depth - 1) (c.advance 1)
        (.ofText t.text ++ body, behind)
      else if place.ends t.kind then (.nil, c)
      else
        match t.kind with
        | .newline => (.nil, c)
        | .escape =>
          let (body, behind) := readBody fuel place depth (c.advance 1)
          (.ofText (if t.escapesBreak then [' '] else t.text) ++ body, behind)
        | .backslash => (.nil, (c.reportHere .nothingToEscape).advance 1)
        | .hash => (.nil, c.comment)
        | .dollar =>
          match Bracket.ofOpening? (c.kindAt 1) with
          | some b =>
            let inside := c.advance 2
            let (name, atClose) := readBody fuel (.name b) 0 inside
            let (body, behind) := readBody fuel place depth (atClose.closeReference b name)
            (.ref name inside.offset c.offset b.delimiter body, behind)
          | none =>
            let (name, namePos, next) := (c.advance 1).bareName c.offset
            let (body, behind) := readBody fuel place depth next
            (.ref (.ofText name) namePos c.offset .bare body, behind)
        | kind =>
          let depth := if place.opens kind then depth + 1 else depth
          let (body, behind) := readBody fuel place depth (c.advance 1)
          (.ofText t.text ++ body, behind)

/-- Reads a phrase. -/
def phrase (place : Place) (c : Cursor) : Phrase × Cursor :=
  let (body, behind) := readBody c.rest.length place 0 c
  (⟨c.offset, body⟩, behind)

end Cursor

end MakeBlueprint.Makefile
