import MakeBlueprint.Blueprint.Property

/-!
# Refusals

Why the value of an assignment cannot be expressed in a blueprint file.
-/

namespace MakeBlueprint.Conversion

open Blueprint (Kind)

/-- The causes for which an assignment is refused. Makefile text in them is a dump. -/
inductive Refusal where
  /-- A reference whose name has references in it. -/
  | computedName (name : Text)
  /-- A boolean that is neither a literal nor one reference. -/
  | computedBool (text : Text)
  /-- A literal that is no boolean. -/
  | unexpectedBool (text : Text)
  /-- A sum of different kinds. -/
  | mismatchedKinds (left right : Kind)
  /-- A sum of a kind that has no sums. -/
  | noSum (kind : Kind)
  /-- A value that cannot be added to the one before. -/
  | unsupportedAddition (cause : Refusal)
  /-- A module variable that cannot be expressed. -/
  | unsupportedAssignment (name : Text)
  /-- A property without a module. -/
  | outsideModule (path : Text)
  /-- A path through a property that is not a map. -/
  | notAMap (name : Text)
  /-- Host systems that are not listed literally. -/
  | unsupportedHostOs (text : Text)
  deriving DecidableEq, Repr

/-- The message of a refusal. -/
def Refusal.message : Refusal → Text
  | .computedName name => "unsupported non-const variable name " ++ name
  | .computedBool text => "non-const bool expression " ++ text
  | .unexpectedBool text => "unexpected bool value " ++ text
  | .mismatchedKinds left right =>
    "cannot add mismatched types " ++ left.label ++ " and " ++ right.label
  | .noSum kind => "cannot add " ++ kind.label ++ " values"
  | .unsupportedAddition cause => "unsupported addition: " ++ cause.message
  | .unsupportedAssignment name => "unsupported assignment to " ++ name
  | .outsideModule path => "assignment to " ++ path ++ " outside of a module"
  | .notAMap name => "property " ++ name ++ " is not a map"
  | .unsupportedHostOs text => "unsupported LOCAL_MODULE_HOST_OS value " ++ text

end MakeBlueprint.Conversion
