import MakeBlueprint.Text.White

/-!
# Phrases

A phrase is makefile text that may hold references such as `$(name)`. Its body is a sequence of
characters and references, so texts joined end to end need no normal form; the name of a
reference is a body again. Every reference, and the phrase itself, remembers its position.

* `Body.strings` and `Body.references`: the literal runs between references, and the references.
  `length_strings`: there is always one more run.
* `Body.dump`: the makefile text of a phrase; `dump_append`: it respects joining.
* `constant?`, `soleReference?`: the phrases without references, and those that are one.
-/

namespace MakeBlueprint.Makefile

/-- The way a reference is written. -/
inductive Delimiter where
  /-- The form `$(name)`. -/
  | paren
  /-- The form with braces. -/
  | brace
  /-- The forms `$X` and `$$`. -/
  | bare
  deriving DecidableEq, Repr

/-- The name that stands for the escape `$$`. -/
def dollarName : Text := "__builtin_dollar"

/-- The makefile text of a reference to a name. -/
def Delimiter.wrap : Delimiter → Text → Text
  | .paren, name => ['$', '('] ++ name ++ [')']
  | .brace, name => ['$', '{'] ++ name ++ ['}']
  | .bare, name => '$' :: if name = dollarName then ['$'] else name

/-- A sequence of characters and references. A reference holds its name, the position of the
name, its own position and the way it is written. -/
inductive Phrase.Body where
  | nil
  | char (c : Char) (rest : Body)
  | ref (name : Body) (namePos pos : Nat) (delimiter : Delimiter) (rest : Body)
  deriving DecidableEq, Repr, Inhabited

/-- Makefile text with the position where it starts. -/
structure Phrase where
  pos : Nat
  body : Phrase.Body
  deriving DecidableEq, Repr

/-- A reference by itself. -/
structure Reference where
  name : Phrase
  pos : Nat
  delimiter : Delimiter
  deriving DecidableEq, Repr

namespace Phrase

/-- A maximal literal run or a reference. -/
inductive Chunk where
  | literal (text : Text)
  | reference (r : Reference)
  deriving DecidableEq, Repr

namespace Body

/-! ## Joining -/

/-- A literal text. -/
def ofText : Text → Body
  | [] => .nil
  | c :: t => .char c (ofText t)

/-- A reference by itself. -/
def ofReference (r : Reference) : Body := .ref r.name.body r.name.pos r.pos r.delimiter .nil

/-- Two bodies one after the other. -/
def append : Body → Body → Body
  | .nil, b => b
  | .char c r, b => .char c (append r b)
  | .ref name namePos pos delimiter r, b => .ref name namePos pos delimiter (append r b)

instance : Append Body := ⟨append⟩

@[simp] theorem nil_append (b : Body) : Body.nil ++ b = b := rfl

@[simp] theorem char_append (c : Char) (r b : Body) : Body.char c r ++ b = .char c (r ++ b) := rfl

@[simp] theorem ref_append (name : Body) (m n : Nat) (d : Delimiter) (r b : Body) :
    Body.ref name m n d r ++ b = .ref name m n d (r ++ b) := rfl

@[simp] theorem append_nil (b : Body) : b ++ Body.nil = b := by
  induction b with
  | nil => rfl
  | char c r ih => simp [ih]
  | ref name m n d r _ ih => simp [ih]

theorem append_assoc (a b c : Body) : a ++ b ++ c = a ++ (b ++ c) := by
  induction a with
  | nil => rfl
  | char x r ih => simp [ih]
  | ref name m n d r _ ih => simp [ih]

theorem ofText_append (s t : Text) : ofText (s ++ t) = ofText s ++ ofText t := by
  induction s with
  | nil => rfl
  | cons c s ih => simp [ofText, ih]

/-! ## Views -/

/-- The literal runs before, between and behind the references. -/
def strings : Body → List Text
  | .nil => [[]]
  | .char c r => Text.glue [c] (strings r)
  | .ref _ _ _ _ r => [] :: strings r

/-- The references outside the names of others. -/
def references : Body → List Reference
  | .nil => []
  | .char _ r => references r
  | .ref name namePos pos delimiter r => ⟨⟨namePos, name⟩, pos, delimiter⟩ :: references r

theorem strings_ne_nil (b : Body) : strings b ≠ [] := by
  cases b with
  | nil => simp [strings]
  | char c r => exact Text.glue_ne_nil _ _
  | ref => simp [strings]

/-- There is one more literal run than references. -/
theorem length_strings (b : Body) : (strings b).length = (references b).length + 1 := by
  induction b with
  | nil => rfl
  | char c r ih =>
    obtain ⟨p, ps, h⟩ := List.exists_cons_of_ne_nil (strings_ne_nil r)
    simp only [strings, references, h, Text.glue, ← ih, List.length_cons]
  | ref name m n d r _ ih => simp [strings, references, ih]

/-- The body as literal runs, none of them empty, and references. -/
def chunks : Body → List Chunk
  | .nil => []
  | .char c r =>
    match chunks r with
    | .literal t :: cs => .literal (c :: t) :: cs
    | cs => .literal [c] :: cs
  | .ref name namePos pos delimiter r => .reference ⟨⟨namePos, name⟩, pos, delimiter⟩ :: chunks r

/-- The text of a body without references. -/
def constant? : Body → Option Text
  | .nil => some []
  | .char c r => (constant? r).map (c :: ·)
  | .ref .. => none

@[simp] theorem constant?_ofText (t : Text) : constant? (ofText t) = some t := by
  induction t with
  | nil => rfl
  | cons c t ih => simp [ofText, constant?, ih]

theorem eq_ofText_of_constant? {b : Body} {t : Text} (h : constant? b = some t) :
    b = ofText t := by
  induction b generalizing t with
  | nil =>
    cases h
    rfl
  | char c r ih =>
    obtain ⟨u, hu, rfl⟩ := Option.map_eq_some_iff.1 h
    rw [ofText, ih hu]
  | ref => cases h

/-- The reference that makes up the whole body. -/
def soleReference? : Body → Option Reference
  | .ref name namePos pos delimiter .nil => some ⟨⟨namePos, name⟩, pos, delimiter⟩
  | _ => none

/-- Whether the last element is the character `c`. -/
def endsWith (c : Char) : Body → Bool
  | .nil => false
  | .char d .nil => d == c
  | .char _ r => endsWith c r
  | .ref _ _ _ _ r => endsWith c r

/-- The makefile text of a body. -/
def dump : Body → Text
  | .nil => []
  | .char c r => c :: dump r
  | .ref name _ _ delimiter r => delimiter.wrap (dump name) ++ dump r

@[simp] theorem dump_append (a b : Body) : dump (a ++ b) = dump a ++ dump b := by
  induction a with
  | nil => rfl
  | char c r ih => simp [dump, ih]
  | ref name m n d r _ ih => simp [dump, ih]

@[simp] theorem dump_ofText (t : Text) : dump (ofText t) = t := by
  induction t with
  | nil => rfl
  | cons c t ih => simp [ofText, dump, ih]

/-! ## Trimming -/

/-- The white characters in front. -/
def leadingWhite : Body → Text
  | .char c r => if Text.isWhite c then c :: leadingWhite r else []
  | _ => []

/-- The body without white characters in front. -/
def trimStart : Body → Body
  | .char c r => if Text.isWhite c then trimStart r else .char c r
  | b => b

theorem leadingWhite_append_trimStart (b : Body) : ofText (leadingWhite b) ++ trimStart b = b := by
  induction b with
  | nil => rfl
  | char c r ih =>
    simp only [leadingWhite, trimStart]
    split
    · simp [ofText, ih]
    · rfl
  | ref => rfl

/-- The body without white characters at the end. -/
def trimEnd : Body → Body
  | .nil => .nil
  | .char c r =>
    match trimEnd r with
    | .nil => if Text.isWhite c then .nil else .char c .nil
    | r => .char c r
  | .ref name namePos pos delimiter r => .ref name namePos pos delimiter (trimEnd r)

/-- The body without its last element if that is a character. -/
def dropLast : Body → Body
  | .nil => .nil
  | .char _ .nil => .nil
  | .char c r => .char c (dropLast r)
  | .ref name namePos pos delimiter r => .ref name namePos pos delimiter (dropLast r)

end Body

/-- A literal text at a position. -/
def ofText (pos : Nat) (t : Text) : Phrase := ⟨pos, .ofText t⟩

/-- The text of a phrase without references. -/
def constant? (p : Phrase) : Option Text := p.body.constant?

/-- Whether there is neither a character nor a reference. -/
def isEmpty (p : Phrase) : Bool := p.body == .nil

/-- The reference that makes up the whole phrase. -/
def soleReference? (p : Phrase) : Option Reference := p.body.soleReference?

/-- The makefile text of a phrase. -/
def dump (p : Phrase) : Text := p.body.dump

/-- The phrase without white characters in front; its position moves with them. -/
def trimStart (p : Phrase) : Phrase :=
  ⟨p.pos + Text.byteSize p.body.leadingWhite, p.body.trimStart⟩

/-- The phrase without white characters at the end. -/
def trimEnd (p : Phrase) : Phrase := ⟨p.pos, p.body.trimEnd⟩

/-- The phrase without white characters at both ends. -/
def trim (p : Phrase) : Phrase := p.trimStart.trimEnd

/-- The phrase without its last element if that is a character. -/
def dropLast (p : Phrase) : Phrase := ⟨p.pos, p.body.dropLast⟩

/-- The phrase with a body put behind it. -/
def append (p : Phrase) (b : Body) : Phrase := ⟨p.pos, p.body ++ b⟩

end Phrase

/-- The makefile text of a reference. -/
def Reference.dump (r : Reference) : Text := r.delimiter.wrap r.name.dump

end MakeBlueprint.Makefile
