import MakeBlueprint.Conversion.Sum

/-!
# Include directories

Directories below the one of the makefile are written relative to it and belong to the module;
all others are global. `partition` takes a list value apart.
-/

namespace MakeBlueprint.Conversion

open Blueprint (Value)

/-- The name of the variable that holds the directory of the makefile. -/
def localPathName : Text := "LOCAL_PATH"

/-- Whether a value is the directory of the makefile. -/
def isLocalPath : Value → Bool
  | .var name _ => name == localPathName
  | _ => false

/-- A path relative to the directory of the makefile, of a value that starts with it. -/
def relativePath? : Value → Option Text
  | .var name _ => if name = localPathName then some ['.'] else none
  | .binary '+' left (.string path) _ =>
    if isLocalPath left then
      let path := path.dropWhile (· == '/')
      some (if path.isEmpty then ['.'] else path)
    else none
  | _ => none

/-- Whether a value is the literal list without items. -/
def isEmptyList : Value → Bool
  | .list [] => true
  | _ => false

/-- The sum of two values, either of which may be missing as an empty list. -/
def combine (left right : Value) : Except Refusal Value :=
  if isEmptyList left then .ok right
  else if isEmptyList right then .ok left
  else add left right

/-- The items of a list that are relative to the directory of the makefile, and the others. -/
def partitionItems : List Value → List Value × List Value
  | [] => ([], [])
  | item :: items =>
    let (own, others) := partitionItems items
    match relativePath? item with
    | some path => (.string path :: own, others)
    | none => (own, item :: others)

/-- The part of a list value that is relative to the directory of the makefile, and the rest. -/
def partition : Value → Except Refusal (Value × Value)
  | .binary _ left right _ => do
    let (leftOwn, leftRest) ← partition left
    let (rightOwn, rightRest) ← partition right
    let own ← combine leftOwn rightOwn
    let rest ← combine leftRest rightRest
    pure (own, rest)
  | .var name kind =>
    if name = localPathName then .ok (.list [.string ['.']], .list [])
    else .ok (.list [], .var name kind)
  | .list items =>
    let (own, others) := partitionItems items
    .ok (.list own, .list others)
  | value => .ok (.list [], value)

end MakeBlueprint.Conversion
