import MakeBlueprint.Blueprint.File
import MakeBlueprint.Makefile.Document
import MakeBlueprint.Conversion.Sum
import MakeBlueprint.Conversion.Vocabulary

/-!
# The state of a conversion

Statements are converted one after the other. Between them the conversion knows the file so far,
the variables of the file, the module that is being collected, and the conditionals around the
next statement.

* `diagnose` puts a problem into the file, as a comment that quotes the makefile.
* `setProperty` and `setGlobal` write values. They give no new state when they refuse a value.
* `openModule`, `closeModule` and `dropModule` begin and end a module.
-/

namespace MakeBlueprint.Conversion

open Blueprint (Assigner Kind Path Property Value)
open Makefile (Scope)

/-- The choices of a user. -/
structure Options where
  /-- Whether a module that is begun and never built is reported. -/
  reportUnclosed : Bool := true
  deriving DecidableEq, Repr

/-- A module that is being collected. -/
structure Draft where
  properties : List Property
  /-- The line on which the module was begun. -/
  line : Nat
  /-- The statement that began the module. -/
  openedBy : Text

/-- A conditional that can be expressed, read up to one of its branches. -/
structure Conditional where
  branches : Branches
  /-- Whether the branch being read is the one that is taken when the condition holds. -/
  holds : Bool
  deriving DecidableEq, Repr

namespace Conditional

/-- The path of the branch being read. -/
def path (c : Conditional) : Option Path :=
  if c.holds then c.branches.whenTrue else c.branches.whenFalse

/-- The path of the other branch. -/
def otherPath (c : Conditional) : Option Path :=
  if c.holds then c.branches.whenFalse else c.branches.whenTrue

/-- The conditional in its other branch. -/
def flip (c : Conditional) : Conditional := { c with holds := !c.holds }

end Conditional

/-- What can be wrong with a statement. -/
inductive Problem where
  /-- The value of an assignment is refused. -/
  | refused (cause : Refusal)
  /-- A statement that is neither an assignment nor a directive nor a comment. -/
  | unsupportedLine
  /-- An assignment for one target. -/
  | targetAssignment
  /-- A variable whose name has references in it. -/
  | computedVariable
  /-- A variable whose name has white characters in it. -/
  | spacedVariable
  /-- A variable with a suffix inside a conditional, which then does not count. -/
  | suffixInConditional
  /-- A branch of a conditional that cannot be expressed. -/
  | unsupportedBranch
  /-- A conditional inside another in one module. -/
  | nestedConditional
  /-- A condition that cannot be expressed. -/
  | unsupportedConditional
  /-- An `else` without a conditional. -/
  | strayElse
  /-- An `endif` without a conditional. -/
  | strayEnd
  /-- A directive that is neither an include nor a conditional. -/
  | unsupportedDirective
  /-- An include that neither begins nor builds a module. -/
  | unsupportedInclude
  /-- A module that is begun and never built. -/
  | neverClosed
  /-- A module that is built and was never begun. -/
  | neverOpened
  deriving DecidableEq, Repr

/-- The message of a problem. -/
def Problem.message : Problem → Text
  | .refused cause => cause.message
  | .unsupportedLine => "unsupported line"
  | .targetAssignment => "unsupported target assignment"
  | .computedVariable => "unsupported non-const variable name"
  | .spacedVariable => "unsupported variable name"
  | .suffixInConditional => "prefix assignment inside conditional, skipping conditional"
  | .unsupportedBranch => "unsupported conditional branch"
  | .nestedConditional => "unsupported nested conditional in module"
  | .unsupportedConditional => "unsupported conditional"
  | .strayElse => "missing if before else"
  | .strayEnd => "missing if before endif"
  | .unsupportedDirective => "unsupported directive"
  | .unsupportedInclude => "unsupported include"
  | .neverClosed => "module opened with CLEAR_VARS was never closed"
  | .neverOpened => "module type include without a preceding CLEAR_VARS"

/-- The start of every comment that reports a problem. -/
def problemMark : Text := "// ANDROIDMK TRANSLATION ERROR: "

/-- The lines of a comment that reports a problem with a statement. -/
def Problem.report (problem : Problem) (quoted : Text) : List Text :=
  (problemMark ++ problem.message) :: (Text.lines quoted).map fun line => "// " ++ line

/-- What is known between two statements. -/
structure State where
  file : Blueprint.File
  /-- The kinds of the variables of the file, the latest first. -/
  globals : List (Text × Kind)
  scope : Scope
  draft : Option Draft
  /-- The line of the output that the current statement belongs to. It orders and spaces
  definitions and comments. -/
  line : Nat
  /-- The line of the makefile on which the last statement ended. -/
  lastLine : Nat
  /-- The conditionals around the next statement, the outermost first. Those that cannot be
  expressed are kept as empty places. -/
  conditionals : List (Option Conditional)
  /-- The place of the conditional that the properties of the module are put under. -/
  assigning : Option Nat

namespace State

/-- The state before the first statement. -/
def start : State where
  file := {}
  globals := []
  scope := rootScope.push
  draft := none
  line := 0
  lastLine := 0
  conditionals := []
  assigning := none

/-- Moves to the lines of the next statement. An empty line before it is kept. -/
def moveTo (s : State) (lines : Span) : State :=
  { s with
    line := if s.lastLine + 1 < lines.start then s.line + 2 else s.line + 1
    lastLine := lines.stop }

/-- Adds a comment on the current line. -/
def comment (s : State) (lines : List Text) : State :=
  { s with file := { s.file with comments := s.file.comments ++ [⟨lines, s.line⟩] } }

/-- Adds a definition. -/
def define (s : State) (d : Blueprint.Definition) : State :=
  { s with file := { s.file with definitions := s.file.definitions ++ [d] } }

/-- Reports a problem with a statement. -/
def diagnose (s : State) (quoted : Text) (problem : Problem) : State :=
  s.comment (problem.report quoted)

/-- The conditional that the properties of the module are put under. -/
def conditional? (s : State) : Option Conditional :=
  s.assigning.bind fun i => s.conditionals[i]?.join

/-! ## Values -/

/-- The value of a property or a variable after an assignment. -/
def changed (append : Bool) (value : Value) : Option Value → Except Refusal Value
  | some old => if append then (add old value).mapError .unsupportedAddition else .ok value
  | none => .ok value

/-- Writes a property of the module that is being collected. -/
def setProperty (s : State) (path : Path) (name : Text) (value : Value) (append : Bool) :
    Except Refusal State :=
  match s.draft with
  | none => .error (.outsideModule (Path.dotted (path ++ [name])))
  | some d =>
    (Property.update s.line .notAMap name (changed append value) path d.properties).map
      fun properties => { s with draft := some { d with properties } }

/-- Writes a variable of the file. Only a variable that is known can be appended to. -/
def setGlobal (s : State) (name : Text) (value : Value) (append : Bool) : Except Refusal State :=
  let known := if append then s.globals.lookup name else none
  let old := known.map fun kind => Value.var name kind
  (changed true value old).map fun total =>
    let assigner := if old.isSome then Assigner.append else .set
    { s with globals := (name, total.kind) :: s.globals }.define
      (.assignment ⟨name, value, assigner, s.line⟩)

/-! ## Modules -/

/-- Gives up the module that is being collected. -/
def dropModule (s : State) (options : Options) : State :=
  match s.draft with
  | none => s
  | some d =>
    let s := { s with draft := none }
    if options.reportUnclosed then s.diagnose d.openedBy .neverClosed else s

/-- Begins a module. -/
def openModule (s : State) (options : Options) (quoted : Text) : State :=
  { s.dropModule options with draft := some ⟨[], s.line, quoted⟩ }

/-- The property that switches a module on and off. -/
def enabledName : Text := "enabled"

/-- Switches the module off under a path. -/
def disable (quoted : Text) (s : State) (path : Path) : State :=
  match s.setProperty path enabledName (.bool false) false with
  | .ok t => t
  | .error cause => s.diagnose quoted (.refused cause)

/-- The paths of the branches that are not being read. -/
def otherPaths (s : State) : List Path :=
  s.conditionals.filterMap fun c => c.bind Conditional.otherPath

/-- Builds the module that is being collected. It only exists in the branches being read, so it
is switched off in the others. -/
def closeModule (s : State) (quoted moduleType : Text) : State :=
  if s.draft.isNone then s.diagnose quoted .neverOpened
  else
    let s := s.otherPaths.foldl (disable quoted) s
    match s.draft with
    | none => s
    | some d =>
      { s with draft := none }.define (.module ⟨moduleType, d.properties, d.line, s.line⟩)

end State

end MakeBlueprint.Conversion
