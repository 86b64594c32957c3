import MakeBlueprint.Makefile.Expansion
import MakeBlueprint.Conversion.Sum

/-!
# Coercion

Makefile text becomes a value of the kind that its place asks for. Function calls are evaluated;
every other reference becomes a reference to a blueprint variable, whose kind is the kind that is
asked for.

* `coerceString`: the chunks of a phrase, added up.
* `coerceList`: the words of a phrase. A word that is one reference stands for a list.
* `coerceBool`: a literal or one reference.
-/

namespace MakeBlueprint.Conversion

open Blueprint (Kind Value)
open Makefile (Phrase Reference Scope)

/-- The name of a reference, which has to be literal. -/
def literalName (r : Reference) : Except Refusal Text :=
  match r.name.constant? with
  | some name => .ok name
  | none => .error (.computedName r.name.dump)

/-! ## Strings -/

/-- The value of a reference inside a string. -/
def referenceString (scope : Scope) (r : Reference) : Except Refusal Value :=
  match r.call? scope with
  | some result => .ok (.string result)
  | none => (literalName r).map fun name =>
    if name = Makefile.dollarName then .string ['$'] else .var name .string

/-- The value of a chunk of a string. -/
def chunkString (scope : Scope) : Phrase.Chunk → Except Refusal Value
  | .literal text => .ok (.string text)
  | .reference r => referenceString scope r

/-- A phrase as a string. -/
def coerceString (scope : Scope) (body : Phrase.Body) : Except Refusal Value := do
  let pieces ← body.chunks.mapM (chunkString scope)
  sum (.string []) pieces

/-! ## Lists -/

/-- A word of a list. -/
inductive Field where
  /-- A single item. -/
  | item (value : Value)
  /-- A variable that holds a list. -/
  | reference (name : Text)

/-- The reference `$(TOP)` stands for the directory of the makefile. -/
def topName : Text := "TOP"

/-- A word that is one reference. -/
def referenceField (scope : Scope) (r : Reference) : Except Refusal Field :=
  match r.call? scope with
  | some result => .ok (.item (.string result))
  | none => (literalName r).map fun name =>
    if name = topName then .item (.string ['.'])
    else if name = Makefile.dollarName then .item (.string ['$'])
    else .reference name

/-- A word of a phrase. -/
def field (scope : Scope) (word : Phrase.Body) : Except Refusal Field :=
  match word.soleReference? with
  | some r => referenceField scope r
  | none => (coerceString scope word).map .item

/-- Words as list values: neighbouring items share a list. -/
def groupFields : List Field → List Value
  | [] => []
  | .reference name :: fields => .var name .list :: groupFields fields
  | .item value :: fields =>
    match groupFields fields with
    | .list items :: values => .list (value :: items) :: values
    | values => .list [value] :: values

/-- The words of a phrase. -/
def words (body : Phrase.Body) : List Phrase.Body :=
  (body.split Text.isBlank).filter fun word => !(word == .nil)

/-- A phrase as a list. -/
def coerceList (scope : Scope) (body : Phrase.Body) : Except Refusal Value := do
  let fields ← (words body).mapM (field scope)
  sum (.list []) (groupFields fields)

/-! ## Booleans -/

/-- The truth value of a literal. -/
def literalBool? (text : Text) : Option Bool :=
  let word := (Text.trim text).map Char.toLower
  if word = "true".toList ∨ word = "-frtti".toList then some true
  else if word = "false".toList ∨ word = [] ∨ word = "-fno-rtti".toList then some false
  else none

/-- A phrase as a boolean. -/
def coerceBool (body : Phrase.Body) : Except Refusal Value :=
  match body.constant? with
  | some text =>
    match literalBool? text with
    | some b => .ok (.bool b)
    | none => .error (.unexpectedBool body.dump)
  | none =>
    match body.trimStart.trimEnd.soleReference? with
    | some r => (literalName r).map fun name => .var name .bool
    | none => .error (.computedBool body.dump)

/-- A phrase as a value of a kind. No phrase is a map, so that kind is read as a list. -/
def coerce (scope : Scope) (kind : Kind) (body : Phrase.Body) : Except Refusal Value :=
  match kind with
  | .string => coerceString scope body
  | .bool => coerceBool body
  | .list | .map => coerceList scope body

end MakeBlueprint.Conversion
