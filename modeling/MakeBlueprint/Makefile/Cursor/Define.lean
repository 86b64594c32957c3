import MakeBlueprint.Makefile.Cursor.Basic

/-!
# Reading definition blocks

The lines between `define` and `endef` are kept as they are written; no token in them means
anything.

* `isEndLine` tells the line that ends a block.
* `blockEnd?` finds the end of a block in the text behind the keyword. The first line is the name
  of the definition, so it never ends the block.
-/

namespace MakeBlueprint.Makefile

/-- Whether a line ends a definition block: the word `endef`, alone or with a blank or a comment
behind it. -/
def isEndLine (line : Text) : Bool :=
  match Text.trim line with
  | 'e' :: 'n' :: 'd' :: 'e' :: 'f' :: rest =>
    match rest with
    | [] => true
    | c :: _ => Text.isBlank c || c == '#'
  | _ => false

/-- Splits lines before the one that ends a block. -/
def splitAtEndLine? : List Text → Option (List Text × Text)
  | [] => none
  | line :: lines =>
    if isEndLine line then some ([], line)
    else (splitAtEndLine? lines).map fun (before, last) => (line :: before, last)

/-- The text of a block up to its last line, and the number of bytes to the end of that line. -/
def blockEnd? (text : Text) : Option (Text × Nat) :=
  match Text.linesWithBreaks text with
  | [] => none
  | first :: lines =>
    (splitAtEndLine? lines).map fun (before, last) =>
      let body := first ++ before.flatten
      (body, Text.byteSize body
        + Text.byteSize (Text.dropEndWhile (fun c => c == '\n' || c == '\r') last))

/-- The number of tokens that start before a position, counted from the first of them. -/
def tokensBefore (limit : Nat) : List Token → Nat
  | [] => 0
  | t :: ts => if limit = 0 then 0 else 1 + tokensBefore (limit - Text.byteSize t.text) ts

namespace Cursor

/-- Reads the name and the lines of a definition block, up to the end of its last line. -/
def defineArguments (c : Cursor) : Phrase × Cursor :=
  let c := c.skipBlanks
  let text := Token.textOf c.rest
  match blockEnd? text with
  | some (body, size) =>
    (.ofText c.offset (Text.withoutBreak body), c.advance (tokensBefore size c.rest))
  | none =>
    let reported := c.reportHere .endlessDefine
    (.ofText c.offset (Text.withoutBreak text), reported.advance reported.rest.length)

end Cursor

end MakeBlueprint.Makefile
