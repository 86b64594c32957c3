import MakeBlueprint.Makefile.Phrase.Basic
import MakeBlueprint.Makefile.Token
import MakeBlueprint.Text.Position

/-!
# Faults

What can be wrong with makefile text. A fault is a cause and a position; `Fault.locate` turns it
into the report that a user reads. `limit` faults are too many: reading stops there.
-/

namespace MakeBlueprint.Makefile

/-- The causes of faults. -/
inductive Cause where
  /-- A question mark in front of something other than an equals sign. -/
  | expectedEquals
  /-- Text that is neither a directive nor a rule nor an assignment. -/
  | strayText (body : Phrase.Body)
  /-- A token that no statement goes on with. -/
  | unexpected (kind : Token.Kind)
  /-- A token that no rule goes on with. -/
  | unexpectedInRule (kind : Token.Kind)
  /-- A `define` without its `endef`. -/
  | endlessDefine
  /-- A backslash at the end of the text. -/
  | nothingToEscape
  /-- A dollar sign at the end of a line. -/
  | missingName
  /-- A reference without its closing bracket. -/
  | unclosedReference (close : Char) (name : Phrase.Body)
  /-- An assignment to a variable without a name. -/
  | emptyName
  deriving DecidableEq, Repr

/-- The message of a cause. A phrase is shown as makefile text. -/
def Cause.message : Cause → Text
  | .expectedEquals => "expected = after ?"
  | .strayText body => "expected directive, rule, or assignment after ident " ++ body.dump
  | .unexpected kind => "unexpected " ++ kind.label
  | .unexpectedInRule kind => "unexpected " ++ kind.label ++ " after rule prerequisites"
  | .endlessDefine => "unexpected EOF while looking for endef"
  | .nothingToEscape => "expected escaped character, found end of input"
  | .missingName => "expected variable name, found end of line"
  | .unclosedReference close name =>
    "expected closing '" ++ [close] ++ "' for variable reference " ++ name.dump
  | .emptyName => "empty variable name"

/-- A cause at a position. -/
structure Fault where
  cause : Cause
  offset : Nat
  deriving DecidableEq, Repr

/-- The number of faults at which reading stops. -/
def Fault.limit : Nat := 100

/-- A fault as it is reported. -/
structure ParseError where
  message : Text
  offset : Nat
  line : Nat
  column : Nat
  deriving DecidableEq, Repr

/-- The report of a fault in a source. -/
def Fault.locate (source : Text) (f : Fault) : ParseError where
  message := f.cause.message
  offset := f.offset
  line := Text.lineAt f.offset source
  column := Text.columnAt f.offset source

/-- A report with its line and its column in front. -/
def ParseError.text (e : ParseError) : Text :=
  Text.ofNat e.line ++ ":" ++ Text.ofNat e.column ++ ": " ++ e.message

/-- Reports, each on a line. -/
def ParseError.textOf (es : List ParseError) : Text := es.flatMap fun e => e.text ++ ['\n']

end MakeBlueprint.Makefile
