import MakeBlueprint.Makefile.Phrase.Basic
import MakeBlueprint.Text.White

/-!
# Scopes

A scope says what variables and functions stand for. It is a pile of frames: what one frame does
not bind, the frames outside it may. Nothing here fails. A name that no frame binds stands for a
mark that is easy to see in the output.

* `get`, `call` and `callBuiltin` look names up; `set` and `setFunction` write to the innermost
  frame.
* `get_set_self`, `get_set_of_ne`: writing a variable changes that variable and no other.
-/

namespace MakeBlueprint.Makefile

/-- A function from arguments to its expansion. -/
abbrev Function := List Text → Text

/-- The bindings of one level. -/
structure Frame where
  bindings : List (Text × Text) := []
  functions : List (Text × Function) := []

/-- Frames, the innermost first. -/
structure Scope where
  frames : List Frame

namespace Scope

/-- The names that make a reference with arguments a function call. -/
def functionNames : List Text :=
  ["abspath", "addprefix", "addsuffix", "and", "basename", "call", "dir", "error", "eval",
   "filter", "filter-out", "findstring", "firstword", "flavor", "foreach", "if", "info", "join",
   "lastword", "notdir", "or", "origin", "patsubst", "realpath", "shell", "sort", "strip", "subst",
   "suffix", "value", "warning", "wildcard", "word", "wordlist", "words"].map String.toList

/-- Whether a name makes a reference with arguments a function call. -/
def isFunctionName (name : Text) : Bool := functionNames.contains name

/-- A scope without bindings. -/
def empty : Scope := ⟨[{}]⟩

/-- The scope with a new innermost frame. -/
def push (s : Scope) : Scope := ⟨{} :: s.frames⟩

/-- The scope without its innermost frame. -/
def pop (s : Scope) : Scope := ⟨s.frames.tail⟩

/-- The innermost binding of a variable. -/
def find? (s : Scope) (name : Text) : Option Text :=
  s.frames.findSome? fun f => f.bindings.lookup name

/-- The value of a variable. Outside all frames only the name of `$$` has a value. -/
def get (s : Scope) (name : Text) : Text :=
  match s.find? name with
  | some value => value
  | none => if name = dollarName then ['$'] else "<'" ++ name ++ "' unset>"

/-- Changes the innermost frame. -/
def modifyTop (s : Scope) (change : Frame → Frame) : Scope :=
  match s.frames with
  | [] => ⟨[change {}]⟩
  | f :: fs => ⟨change f :: fs⟩

/-- Binds a variable in the innermost frame. -/
def set (s : Scope) (name value : Text) : Scope :=
  s.modifyTop fun f => { f with bindings := (name, value) :: f.bindings }

/-- Binds a function in the innermost frame. -/
def setFunction (s : Scope) (name : Text) (function : Function) : Scope :=
  s.modifyTop fun f => { f with functions := (name, function) :: f.functions }

/-- The innermost binding of a function. -/
def function? (s : Scope) (name : Text) : Option Function :=
  s.frames.findSome? fun f => f.functions.lookup name

/-- The expansion of a function that is called by its name. -/
def call (s : Scope) (name : Text) (arguments : List Text) : Text :=
  match s.function? name with
  | some function => function arguments
  | none => "<func:'" ++ name ++ "' unset>"

/-- The expansion of a function call. The function `call` calls the function that its first
argument names; a function that no frame binds leaves a mark with its arguments. -/
def callBuiltin (s : Scope) (name : Text) (arguments : List Text) : Text :=
  if name = "call".toList then
    match arguments with
    | [] => s.call [] []
    | function :: rest => s.call (Text.trim function) rest
  else
    match s.function? name with
    | some function => function arguments
    | none => "__builtin_func:" ++ name ++ " " ++ Text.join [' '] arguments

/-! ## Lookups after writes -/

theorem find?_set (s : Scope) (name value other : Text) :
    (s.set name value).find? other = if other = name then some value else s.find? other := by
  obtain ⟨frames⟩ := s
  by_cases h : other = name
  · cases frames <;> simp [set, modifyTop, find?, h]
  · have hb : (other == name) = false := by simpa using h
    cases frames <;> simp [set, modifyTop, find?, List.lookup_cons, h, hb, List.findSome?_cons]

theorem get_set_self (s : Scope) (name value : Text) : (s.set name value).get name = value := by
  rw [get, find?_set, if_pos rfl]

theorem get_set_of_ne (s : Scope) {name other : Text} (value : Text) (h : other ≠ name) :
    (s.set name value).get other = s.get other := by
  rw [get, find?_set, if_neg h, get]

end Scope

end MakeBlueprint.Makefile
