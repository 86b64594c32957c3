import MakeBlueprint.Blueprint.Property

/-!
# Blueprint files

A blueprint file is a list of definitions, in the order in which they were finished, and a list of
comments. Lines place comments between and inside definitions.
-/

namespace MakeBlueprint.Blueprint

/-- A module of a type with its properties, from the line of its opening brace to the line of its
closing brace. -/
structure Module where
  moduleType : Text
  properties : List Property
  line : Nat
  endLine : Nat

/-- The operators of assignments. -/
inductive Assigner where
  | set
  | append
  deriving DecidableEq, Repr

/-- The spelling of an operator. -/
def Assigner.text : Assigner → Text
  | .set => "="
  | .append => "+="

/-- The assignment of a variable outside modules. -/
structure Assignment where
  name : Text
  value : Value
  assigner : Assigner
  line : Nat

/-- An assignment or a module. -/
inductive Definition where
  | assignment (a : Assignment)
  | module (m : Module)

namespace Definition

/-- The first line of a definition. -/
def line : Definition → Nat
  | .assignment a => a.line
  | .module m => m.line

/-- The last line of a definition. -/
def endLine : Definition → Nat
  | .assignment a => a.line
  | .module m => m.endLine

end Definition

/-- A block of comment lines, written as they are. -/
structure Comment where
  lines : List Text
  line : Nat
  deriving DecidableEq, Repr

/-- The lines of a comment as one text. -/
def Comment.text (c : Comment) : Text := Text.join ['\n'] c.lines

/-- A blueprint file. -/
structure File where
  definitions : List Definition := []
  comments : List Comment := []

namespace File

/-- The modules of a file. -/
def modules (f : File) : List Module :=
  f.definitions.filterMap fun
    | .module m => some m
    | _ => none

/-- The assignments of a file. -/
def assignments (f : File) : List Assignment :=
  f.definitions.filterMap fun
    | .assignment a => some a
    | _ => none

end File

end MakeBlueprint.Blueprint
