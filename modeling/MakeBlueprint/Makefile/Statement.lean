import MakeBlueprint.Makefile.Phrase.Basic
import MakeBlueprint.Text.Position
import MakeBlueprint.Text.White

/-!
# Statements

The statements of a makefile, what each holds, and where it stands.

* `Content.dump` writes a statement as makefile text again.
* `Statement.quote` is the statement as it stands in a source, or its dump when its span does not
  fit that source.
* `Keyword.ofText?_text`: a keyword is read back from its spelling.
-/

namespace MakeBlueprint.Makefile

/-- The assignment operators. -/
inductive AssignOp where
  /-- The operator `=`, expanded when the variable is used. -/
  | recursive
  /-- The operators `:=` and `::=`, expanded at once. -/
  | simple
  /-- The operator `+=`. -/
  | append
  /-- The operator `?=`. -/
  | conditional
  deriving DecidableEq, Repr

/-- The spelling of an assignment operator. -/
def AssignOp.text : AssignOp → Text
  | .recursive => "="
  | .simple => ":="
  | .append => "+="
  | .conditional => "?="

/-- The words that start a directive. -/
inductive Keyword where
  | includeFile | includeOptional | includeSilent
  | define | endDefine
  | ifEq | ifNotEq | ifDefined | ifNotDefined | elseBranch | endIf
  deriving DecidableEq, Repr

namespace Keyword

/-- The spelling of a keyword. -/
def text : Keyword → Text
  | .includeFile => "include"
  | .includeOptional => "-include"
  | .includeSilent => "sinclude"
  | .define => "define"
  | .endDefine => "endef"
  | .ifEq => "ifeq"
  | .ifNotEq => "ifneq"
  | .ifDefined => "ifdef"
  | .ifNotDefined => "ifndef"
  | .elseBranch => "else"
  | .endIf => "endif"

/-- All keywords. -/
def all : List Keyword :=
  [.includeFile, .includeOptional, .includeSilent, .define, .endDefine, .ifEq, .ifNotEq,
   .ifDefined, .ifNotDefined, .elseBranch, .endIf]

/-- The keyword with a spelling. -/
def ofText? (t : Text) : Option Keyword := all.find? fun k => k.text == t

theorem ofText?_text (k : Keyword) : ofText? k.text = some k := by
  cases k <;> decide

theorem text_of_ofText? {t : Text} {k : Keyword} (h : ofText? t = some k) : k.text = t := by
  simpa using List.find?_some h

end Keyword

/-- An assignment. It has a target when it only holds while that target is made. -/
structure Assignment where
  name : Phrase
  op : AssignOp
  value : Phrase
  target : Option Phrase
  deriving DecidableEq, Repr

/-- A directive. The arguments of `define` are the name and the lines up to `endef`, verbatim. -/
structure Directive where
  keyword : Keyword
  arguments : Phrase
  deriving DecidableEq, Repr

/-- A rule. The recipe is its lines without the tabs in front. -/
structure Rule where
  target : Phrase
  prerequisites : Phrase
  recipe : Text
  deriving DecidableEq, Repr

/-- What a statement says. -/
inductive Content where
  | assignment (a : Assignment)
  /-- The text behind the hash sign; an escaped line break is a line feed in it. -/
  | comment (text : Text)
  | directive (d : Directive)
  | rule (r : Rule)
  /-- A reference that stands alone on its line. -/
  | reference (r : Reference)
  deriving DecidableEq, Repr

/-- A statement with its bytes and its lines in the source. -/
structure Statement where
  content : Content
  span : Span
  lines : Span
  deriving DecidableEq, Repr

/-- The makefile text of an assignment. -/
def Assignment.dump (a : Assignment) : Text :=
  let plain := a.name.dump ++ " " ++ a.op.text ++ " " ++ a.value.dump
  match a.target with
  | some target => target.dump ++ ": " ++ plain
  | none => plain

/-- The makefile text of a directive. -/
def Directive.dump (d : Directive) : Text :=
  if d.keyword = .define then "define " ++ d.arguments.dump ++ "\nendef"
  else if d.arguments.isEmpty then d.keyword.text
  else d.keyword.text ++ " " ++ d.arguments.dump

/-- The makefile text of a rule. -/
def Rule.dump (r : Rule) : Text :=
  let recipe : Text := (Text.lines r.recipe).flatMap fun line => '\n' :: '\t' :: line
  r.target.dump ++ ": " ++ r.prerequisites.dump ++ recipe

/-- The makefile text of a statement. -/
def Content.dump : Content → Text
  | .assignment a => a.dump
  | .comment text => '#' :: text
  | .directive d => d.dump
  | .rule r => r.dump
  | .reference r => r.dump

/-- A statement as it stands in a source, without white characters at its end. -/
def Statement.quote (source : Text) (s : Statement) : Text :=
  match Text.slice? s.span source with
  | some part => Text.trimEnd part
  | none => s.content.dump

end MakeBlueprint.Makefile
