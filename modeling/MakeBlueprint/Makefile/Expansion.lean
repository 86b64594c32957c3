import MakeBlueprint.Makefile.Phrase.Split
import MakeBlueprint.Makefile.Scope

/-!
# Expansion

The value of a phrase in a scope. A phrase is first expanded into atoms: its literal characters,
and for each reference the text that it stands for, as one piece. Separators count only where they
are literal, so the arguments of a function call are cut before they are joined to texts.

* `call?`: a reference is a function call when its name starts with a literal function name and a
  blank.
* `Body.value_append`: the value of joined bodies is the joined values.
-/

namespace MakeBlueprint.Makefile

/-- An element of an expanded phrase. -/
inductive Atom where
  /-- A character that is written in the phrase. -/
  | char (c : Char)
  /-- The whole text that a reference stands for. -/
  | text (t : Text)
  deriving DecidableEq, Repr

/-- An expanded phrase. -/
abbrev Expansion := List Atom

/-- The text of an atom. -/
def Atom.toText : Atom → Text
  | .char c => [c]
  | .text t => t

namespace Expansion

/-- The text of an expanded phrase. -/
def toText (e : Expansion) : Text := e.flatMap Atom.toText

/-- The literal text before the first literal blank, and what is behind the blank. -/
def head? : Expansion → Option (Text × Expansion)
  | .char c :: e =>
    if Text.isBlank c then some ([], e) else (head? e).map fun (h, rest) => (c :: h, rest)
  | _ => none

/-- The texts between the literal commas. -/
def arguments : Expansion → List Text
  | [] => [[]]
  | .char c :: e => if c = ',' then [] :: arguments e else Text.glue [c] (arguments e)
  | .text t :: e => Text.glue t (arguments e)

/-- The result of the function call that the name of a reference makes. -/
def call? (scope : Scope) (name : Expansion) : Option Text :=
  match name.head? with
  | some (function, rest) =>
    if Scope.isFunctionName function then some (scope.callBuiltin function rest.arguments)
    else none
  | none => none

/-- The text that a reference with this name stands for. -/
def referenceValue (scope : Scope) (name : Expansion) : Text :=
  match name.call? scope with
  | some result => result
  | none => scope.get name.toText

end Expansion

namespace Phrase

/-- The atoms of a body. -/
def Body.expand (scope : Scope) : Body → Expansion
  | .nil => []
  | .char c r => .char c :: expand scope r
  | .ref name _ _ _ r => .text (Expansion.referenceValue scope (expand scope name)) :: expand scope r

/-- The value of a body. -/
def Body.value (scope : Scope) (b : Body) : Text := (b.expand scope).toText

theorem Body.expand_append (scope : Scope) (a b : Body) :
    (a ++ b).expand scope = a.expand scope ++ b.expand scope := by
  induction a with
  | nil => rfl
  | char c r ih => simp [expand, ih]
  | ref name m n d r _ ih => simp [expand, ih]

theorem Body.value_append (scope : Scope) (a b : Body) :
    (a ++ b).value scope = a.value scope ++ b.value scope := by
  simp [value, expand_append, Expansion.toText]

/-- The value of a phrase. -/
def value (scope : Scope) (p : Phrase) : Text := p.body.value scope

end Phrase

namespace Reference

/-- The result of a reference that is a function call. -/
def call? (scope : Scope) (r : Reference) : Option Text := (r.name.body.expand scope).call? scope

/-- The text that a reference stands for. -/
def value (scope : Scope) (r : Reference) : Text :=
  (r.name.body.expand scope).referenceValue scope

end Reference

end MakeBlueprint.Makefile
