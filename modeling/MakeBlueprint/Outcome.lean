import MakeBlueprint.Blueprint.Printer
import MakeBlueprint.Conversion.Run

/-!
# Outcomes

What comes of a makefile: the text of a blueprint file, or the reason why there is none.

* `convert` fails only when the makefile has too many faults; fewer of them are listed beside the
  output.
* `Failure` is a conversion that fails, or a file that cannot be read.
-/

namespace MakeBlueprint

/-- A conversion that went through. -/
structure Converted where
  output : Text
  /-- The faults of lines that were left out. -/
  errors : List Makefile.ParseError
  deriving DecidableEq, Repr

/-- Why a file cannot be read. -/
inductive ReadError where
  | notFound
  | permissionDenied
  | invalidData
  | isADirectory
  /-- A path through something that is not a directory. -/
  | notADirectory
  /-- A name that no file can have. -/
  | invalidName
  deriving DecidableEq, Repr

/-- The description of a file that cannot be read. -/
def ReadError.message : ReadError → Text
  | .notFound => "entity not found"
  | .permissionDenied => "permission denied"
  | .invalidData => "invalid data"
  | .isADirectory => "is a directory"
  | .notADirectory => "not a directory"
  | .invalidName => "invalid filename"

/-- Why there is no output. -/
inductive Failure where
  | faults (errors : List Makefile.ParseError)
  | unreadable (cause : ReadError)
  deriving DecidableEq, Repr

namespace Failure

/-- The exit status of a program that fails. -/
def code : Failure → Nat
  | .faults _ => 1
  | .unreadable _ => 2

/-- The description of a failure. -/
def message : Failure → Text
  | .faults errors => "parse error: " ++ Makefile.ParseError.textOf errors
  | .unreadable cause => "io error: " ++ cause.message

end Failure

/-- Converts a makefile. -/
def convert (options : Conversion.Options) (source : Text) : Except Failure Converted :=
  let document := Makefile.parse source
  if Makefile.Fault.limit ≤ document.errors.length then .error (.faults document.errors)
  else
    .ok { output := (Conversion.toBlueprint options source document.statements).print
          errors := document.errors }

end MakeBlueprint
