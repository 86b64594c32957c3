import MakeBlueprint.Text.Basic

/-!
# Blueprint values

The values of a blueprint file: strings, lists, booleans, maps of properties, sums and references
to variables. Sums and references carry the kind of what they stand for.
-/

namespace MakeBlueprint.Blueprint

/-- What a value evaluates to. -/
inductive Kind where
  | string | list | bool | map
  deriving DecidableEq, Repr

/-- The name of a kind in messages. -/
def Kind.label : Kind → Text
  | .string => "string"
  | .list => "list"
  | .bool => "bool"
  | .map => "map"

mutual

/-- A value of a blueprint file. -/
inductive Value where
  | string (text : Text)
  | list (items : List Value)
  | bool (b : Bool)
  | map (properties : List Property)
  /-- An expression; the only operator of the language is the plus sign. -/
  | binary (operator : Char) (left right : Value) (kind : Kind)
  /-- A reference to a variable that is assigned elsewhere. -/
  | var (name : Text) (kind : Kind)

/-- A named value with the line it was first written on. -/
structure Property where
  name : Text
  value : Value
  line : Nat

end

namespace Value

instance : Inhabited Value := ⟨.string []⟩

/-- The kind of a value. -/
def kind : Value → Kind
  | .string _ => .string
  | .list _ => .list
  | .bool _ => .bool
  | .map _ => .map
  | .binary _ _ _ kind => kind
  | .var _ kind => kind

/-- The text of a literal string. -/
def asString? : Value → Option Text
  | .string text => some text
  | _ => none

/-- The items of a literal list. -/
def asList? : Value → Option (List Value)
  | .list items => some items
  | _ => none

/-- The truth value of a literal. -/
def asBool? : Value → Option Bool
  | .bool b => some b
  | _ => none

/-- The properties of a map. -/
def asMap? : Value → Option (List Property)
  | .map properties => some properties
  | _ => none

end Value

end MakeBlueprint.Blueprint
