import MakeBlueprint.Makefile.Cursor.Define
import MakeBlueprint.Makefile.Cursor.Phrase

/-!
# Reading statements

A statement starts at the start of a line and is told by what stands behind its first phrase:
an assignment operator, the colon of a rule, or nothing. Directives are told by their keyword.

* `statement` reads one statement, `readAll` all of them.
* A malformed line is reported and left; reading goes on behind it.
-/

namespace MakeBlueprint.Makefile

/-- Whether a token behind a keyword makes the line an assignment or a rule. -/
def Token.Kind.deniesDirective : Token.Kind → Bool
  | .equals | .colon | .plus | .question => true
  | _ => false

/-- A plus or a question mark at the end of the name belongs to the operator `=`. -/
def AssignOp.takeMark (op : AssignOp) (name : Phrase) : AssignOp × Phrase :=
  if op = .recursive ∧ name.body.endsWith '+' then (.append, name.dropLast)
  else if op = .recursive ∧ name.body.endsWith '?' then (.conditional, name.dropLast)
  else (op, name)

namespace Cursor

/-! ## Directives -/

/-- The keyword of the directive that starts here. A line that assigns to a keyword is none. -/
def keyword? (c : Cursor) : Option Keyword :=
  match c.rest with
  | ⟨.identifier, word⟩ :: rest =>
    match (rest.dropWhile fun t => t.kind.isBlank).head? with
    | some t => if t.kind.deniesDirective then none else Keyword.ofText? word
    | none => Keyword.ofText? word
  | _ => none

/-- Reads the arguments of a directive. -/
def directiveArguments (keyword : Keyword) (c : Cursor) : Phrase × Cursor :=
  match keyword with
  | .elseBranch | .endIf | .endDefine => (⟨c.offset, .nil⟩, c)
  | .define => c.defineArguments
  | _ =>
    let (arguments, behind) := c.skipBlanks.phrase .line
    (arguments.trimEnd, behind)

/-- Reads a directive, whose keyword is the next token. -/
def directive (keyword : Keyword) (c : Cursor) : Cursor :=
  let (arguments, behind) := (c.advance 1).directiveArguments keyword
  behind.record (.directive ⟨keyword, arguments⟩) c.offset

/-! ## Assignments -/

/-- Reads the value of an assignment. The last token of the operator is next. -/
def assignment (op : AssignOp) (target : Option Phrase) (name : Phrase) (c : Cursor) : Cursor :=
  let start := match target with
    | some t => t.pos
    | none => name.pos
  let (value, behind) := (c.advance 1).phrase .line
  let (op, name) := op.takeMark name
  let name := name.trimEnd
  if name.isEmpty then behind.report start .emptyName
  else behind.record (.assignment ⟨name, op, value.trim, target⟩) start

/-! ## Rules -/

/-- Reads prerequisites. A colon that starts no operator belongs to them. -/
def prerequisites : Nat → Cursor → Phrase.Body × Cursor
  | 0, c => (.nil, c)
  | fuel + 1, c =>
    let (first, behind) := c.phrase .prerequisites
    if behind.kindAt 0 = some .colon ∧ behind.kindAt 1 ≠ some .equals then
      let (more, last) := prerequisites fuel (behind.advance 1)
      (first.body ++ .char ':' more, last)
    else (first.body, behind)

/-- Reads the rest of a line of a recipe with its line break. -/
def recipeLine (c : Cursor) : Text × Cursor :=
  let behind := c.skipLine
  let text := Token.textOf c.line
  (if behind.rest.isEmpty then text else text ++ ['\n'], behind.advance 1)

/-- Reads the lines of a recipe: those that start with a tab, the empty lines between them, and
the directives, which are statements of their own. -/
def recipeLines : Nat → Cursor → Text × Cursor
  | 0, c => ([], c)
  | fuel + 1, c =>
    let blank := (c.rest.takeWhile fun t => t.kind == .newline).length
    if c.kindAt blank = some .tab then
      let (line, behind) := (c.advance (blank + 1)).recipeLine
      let (lines, last) := recipeLines fuel behind
      (line ++ lines, last)
    else
      match c.keyword? with
      | some keyword => recipeLines fuel (c.directive keyword).skipBreak
      | none => ([], c)

/-- Reads the recipe of a rule and adds the rule in front of the directives in the recipe. -/
def recipe (target prerequisites : Phrase) (firstLine : Bool) (c : Cursor) : Cursor :=
  let (first, c₁) := if firstLine then c.recipeLine else ([], c)
  let (lines, c₂) := recipeLines c₁.rest.length { c₁ with statements := [] }
  let text := Text.dropEndWhile (· == '\n') (first ++ lines)
  let whole := { c₂ with statements := c₁.statements }.record
    (.rule ⟨target, prerequisites, text⟩) target.pos
  { whole with statements := whole.statements ++ c₂.statements }

/-- Reads a rule behind the colon of its target, or the assignment that a target makes of it. -/
def rule (target : Phrase) (c : Cursor) : Cursor :=
  let target := target.trimEnd
  let c := c.skipBlanks
  let (body, behind) := c.prerequisites (c.rest.length + 1)
  let phrase := Phrase.trimEnd ⟨c.offset, body⟩
  match behind.kindAt 0 with
  | some .equals => behind.assignment .recursive (some target) phrase
  | some .colon => (behind.advance 1).assignment .simple (some target) phrase
  | some .semicolon => (behind.advance 1).skipBlanks.recipe target phrase true
  | some .newline => (behind.advance 1).recipe target phrase false
  | some .hash => behind.comment.recipe target phrase false
  | some kind => (behind.reportHere (.unexpectedInRule kind)).recipe target phrase true
  | none => behind.recipe target phrase true

/-! ## Lines -/

/-- Reads a line that holds one phrase and nothing else but a comment. -/
def loneLine (phrase : Phrase) (c : Cursor) : Cursor :=
  let noted := match phrase.soleReference? with
    | some r => c.record (.reference r) phrase.pos
    | none => if phrase.isEmpty then c else c.report phrase.pos (.strayText phrase.body)
  if noted.kindAt 0 = some .hash then noted.comment else noted.advance 1

/-- Reads the rest of a line behind the colon after its first phrase. -/
def afterColon (head : Phrase) (c : Cursor) : Cursor :=
  if c.kindAt 0 = some .equals then c.assignment .simple none head
  else if c.kindAt 0 = some .colon then
    if c.kindAt 1 = some .equals then (c.advance 1).assignment .simple none head
    else (c.advance 1).rule head
  else c.rule head

/-- Reads a statement that starts at the next token. -/
def statement (c : Cursor) : Cursor :=
  match c.keyword? with
  | some keyword => c.directive keyword
  | none =>
    let (head, behind) := c.phrase .head
    match behind.kindAt 0 with
    | some .question =>
      let next := behind.advance 1
      if next.kindAt 0 = some .equals then next.assignment .conditional none head
      else (next.reportHere .expectedEquals).skipLine.advance 1
    | some .colon => (behind.advance 1).afterColon head
    | some .equals => behind.assignment .recursive none head
    | some .hash | some .newline | none => behind.loneLine head
    | some kind => (behind.reportHere (.unexpected kind)).skipLine.advance 1

/-- Reads all statements. Each takes a token or more, so the number of tokens bounds them. -/
def readAll : Nat → Cursor → Cursor
  | 0, c => c
  | fuel + 1, c =>
    let c := c.skipSpace
    if c.rest.isEmpty then c else readAll fuel c.statement

end Cursor

end MakeBlueprint.Makefile
