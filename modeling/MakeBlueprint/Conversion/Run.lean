import MakeBlueprint.Conversion.Assignment
import MakeBlueprint.Conversion.Directive

/-!
# Conversion

A makefile becomes a blueprint file in one pass over its statements. What cannot be expressed is
kept as a comment, so no statement stops the conversion.

* `State.step` converts a statement, `toBlueprint` a list of them.
-/

namespace MakeBlueprint.Conversion

open Makefile (Statement)

namespace State

/-- Converts a statement. Problems quote the source. -/
def step (options : Options) (source : Text) (s : State) (statement : Statement) : State :=
  let s := s.moveTo statement.lines
  let quoted := statement.quote source
  match statement.content with
  | .comment text =>
    s.comment ((Text.split (· == '\n') text).map fun line => ['/', '/'] ++ line)
  | .assignment a => s.assignment quoted a
  | .directive d => s.directive options quoted d
  | .rule _ | .reference _ => s.diagnose quoted .unsupportedLine

/-- Converts statements one after the other. -/
def run (options : Options) (source : Text) (s : State) (statements : List Statement) : State :=
  statements.foldl (step options source) s

/-- The file at the end of a makefile. A module that is left over is given up on a line of its
own. -/
def finish (s : State) (options : Options) : Blueprint.File :=
  if s.draft.isNone then s.file else ({ s with line := s.line + 1 }.dropModule options).file

end State

/-- Converts the statements of a makefile. -/
def toBlueprint (options : Options) (source : Text) (statements : List Statement) :
    Blueprint.File :=
  (State.start.run options source statements).finish options

end MakeBlueprint.Conversion
