import MakeBlueprint.Makefile.Cursor.Line

/-!
# Makefiles

The statements of a makefile in the order of their starts, with the faults that were found.

* `parse` reads every text; what cannot be read is reported.
* `readStrict` accepts only texts without faults.
-/

namespace MakeBlueprint.Makefile

/-- The statements and the faults of a text. -/
structure Document where
  statements : List Statement
  errors : List ParseError
  deriving DecidableEq, Repr

/-- Puts comments between statements by their starts; both lists are in order. -/
def interleave : List (Content × Span) → List (Content × Span) → List (Content × Span)
  | [], comments => comments
  | s :: statements, comments =>
    let before := fun c : Content × Span => decide (c.2.start < s.2.start)
    comments.takeWhile before ++ s :: interleave statements (comments.dropWhile before)

/-- A statement with the lines of its first and its last byte. -/
def locate (source : Text) (content : Content) (span : Span) : Statement where
  content := content
  span := span
  lines :=
    let first := Text.lineAt span.start source
    ⟨first, if span.start < span.stop then Text.lineAt (span.stop - 1) source else first⟩

/-- The cursor at the end of a text. -/
def readText (source : Text) : Cursor :=
  let c := Cursor.start source
  c.readAll c.rest.length

/-- Reads a makefile. -/
def parse (source : Text) : Document :=
  let c := readText source
  { statements := (interleave c.statements c.comments).map fun s => locate source s.1 s.2
    errors := c.faults.map (Fault.locate source) }

/-- Reads a makefile that has no faults. -/
def readStrict (source : Text) : Except (List ParseError) (List Statement) :=
  let document := parse source
  if document.errors.isEmpty then .ok document.statements else .error document.errors

/-! ## Parts of a makefile -/

/-- The assignments among statements. -/
def assignments (ss : List Statement) : List Assignment :=
  ss.filterMap fun s => match s.content with
    | .assignment a => some a
    | _ => none

/-- The directives among statements. -/
def directives (ss : List Statement) : List Directive :=
  ss.filterMap fun s => match s.content with
    | .directive d => some d
    | _ => none

/-- The rules among statements. -/
def rules (ss : List Statement) : List Rule :=
  ss.filterMap fun s => match s.content with
    | .rule r => some r
    | _ => none

/-- The texts of the comments among statements. -/
def comments (ss : List Statement) : List Text :=
  ss.filterMap fun s => match s.content with
    | .comment text => some text
    | _ => none

end MakeBlueprint.Makefile
