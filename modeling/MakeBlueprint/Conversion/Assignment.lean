import MakeBlueprint.Conversion.Coercion
import MakeBlueprint.Conversion.Includes
import MakeBlueprint.Conversion.State

/-!
# Converting assignments

The name of a variable decides what its value becomes: a property, several properties, a variable
of the file, or nothing. A suffix of the name or the conditional around it decides where a
property is put.

* `assign` writes a value, or refuses it and writes nothing.
* `assignment` converts a statement, and reports what was refused.
-/

namespace MakeBlueprint.Conversion.State

open Blueprint (Path Value)
open Makefile (Assignment Phrase)

/-! ## Special variables -/

/-- Writes a list property unless the list is empty. -/
def setList (s : State) (path : Path) (name : Text) (value : Value) (append : Bool) :
    Except Refusal State :=
  if isEmptyList value then .ok s else s.setProperty path name value append

/-- Writes include directories. -/
def assignIncludes (s : State) (path : Path) (body : Phrase.Body) (append : Bool) :
    Except Refusal State := do
  let value ← coerceList s.scope body
  let (own, others) ← partition value
  let s ← s.setList path "local_include_dirs" own append
  s.setList path "include_dirs" others append

/-- Writes exported include directories. Both parts go to one property, so the second part is
added to the first. -/
def assignExportedIncludes (s : State) (path : Path) (body : Phrase.Body) (append : Bool) :
    Except Refusal State := do
  let value ← coerceList s.scope body
  let (own, others) ← partition value
  let s ← s.setList path "export_include_dirs" own append
  s.setList path "export_include_dirs" others (append || !isEmptyList own)

/-- The variable that holds the name of a module. -/
def moduleName : Text := "LOCAL_MODULE"

/-- The property that a name of an output becomes, with its value: only a suffix if the name is
the name of the module and one thing more. -/
def stemProperty : Value → Text × Value
  | .binary '+' (.var name kind) right sumKind =>
    if name = moduleName then ("suffix", right)
    else ("stem", .binary '+' (.var name kind) right sumKind)
  | value => ("stem", value)

/-- Writes the name of an output. -/
def assignStem (s : State) (path : Path) (body : Phrase.Body) (append : Bool) :
    Except Refusal State := do
  let value ← coerceString s.scope body
  let (name, value) := stemProperty value
  s.setProperty path name value append

/-- Whether a host system is among literal items. -/
def lists (items : List Value) (system : Text) : Bool :=
  items.any fun item => item.asString? == some system

/-- Writes for which host systems a module is switched on. It is so for all but Windows unless the
makefile says otherwise. -/
def assignHostOs (s : State) (body : Phrase.Body) : Except Refusal State := do
  let value ← coerceList s.scope body
  match value with
  | .list items =>
    let s ← if lists items "windows" then
      s.setProperty ["target", "windows"] enabledName (.bool true) false else .ok s
    let s ← if lists items "linux" then .ok s else
      s.setProperty ["target", "linux"] enabledName (.bool false) false
    if lists items "darwin" then .ok s else
      s.setProperty ["target", "darwin"] enabledName (.bool false) false
  | _ => .error (.unsupportedHostOs body.dump)

/-! ## All variables -/

/-- Writes a variable of the file, and its value for later statements. -/
def assignGlobal (s : State) (name : Text) (body : Phrase.Body) (append : Bool) :
    Except Refusal State := do
  let added := body.value s.scope
  let value := if append ∧ (s.globals.lookup name).isSome then s.scope.get name ++ [' '] ++ added
    else added
  let list ← coerceList s.scope body
  let t ← s.setGlobal name list append
  pure { t with scope := t.scope.set name value }

/-- Writes a value. The path is that of a suffix or of a conditional. -/
def assign (s : State) (name : Text) (path : Path) (body : Phrase.Body) (append : Bool) :
    Except Refusal State :=
  match Meaning.ofName name with
  | .dropped => .ok s
  | .armMode => do
    let value ← coerceString s.scope body
    s.setProperty armPath armModeProperty value append
  | .property property kind => do
    let value ← coerce s.scope kind body
    s.setProperty path property value append
  | .special .localIncludeDirs => s.assignIncludes path body append
  | .special .exportIncludeDirs => s.assignExportedIncludes path body append
  | .special .stem => s.assignStem path body append
  | .special .hostOs => s.assignHostOs body
  | .unsupported => .error (.unsupportedAssignment name)
  | .global => s.assignGlobal name body append

/-- Writes a value, and reports it when it is refused. -/
def assignOrReport (s : State) (quoted name : Text) (path : Option Path) (a : Assignment) :
    State :=
  match s.assign name (path.getD []) a.value.body (a.op == .append) with
  | .ok t => t
  | .error cause => s.diagnose quoted (.refused cause)

/-- Converts an assignment to a name without its suffix, and the path of the suffix. Inside a
conditional a module variable takes the path of the branch, unless it has one of its own. -/
def assignLocated (s : State) (quoted name : Text) (suffix : Option Path) (a : Assignment) :
    State :=
  match if isLocalName name then s.conditional? else none, suffix with
  | none, _ => s.assignOrReport quoted name suffix a
  | some _, some path =>
    (s.diagnose quoted .suffixInConditional).assignOrReport quoted name (some path) a
  | some c, none =>
    match c.path with
    | some path => s.assignOrReport quoted name (some path) a
    | none => s.diagnose quoted .unsupportedBranch

/-- Converts an assignment. -/
def assignment (s : State) (quoted : Text) (a : Assignment) : State :=
  if a.target.isSome then s.diagnose quoted .targetAssignment
  else
    match a.name.constant? with
    | none => s.diagnose quoted .computedVariable
    | some name =>
      if name.any Text.isWhite then s.diagnose quoted .spacedVariable
      else if isLocalName name then
        s.assignLocated quoted (splitSuffix name).1 (splitSuffix name).2 a
      else s.assignLocated quoted name none a

end MakeBlueprint.Conversion.State
