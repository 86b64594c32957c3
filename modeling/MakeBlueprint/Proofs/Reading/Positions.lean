import MakeBlueprint.Makefile.Document

/-!
# Positions in phrases and statements

`mapPos` changes the positions that phrases, statements and faults remember, and nothing else. With
`(n + ·)` it moves them by `n` bytes, with a constant function it forgets them.

* What is said of a phrase without its positions does not change: `dump_mapPos`,
  `endsWith_mapPos`, `message_mapPos`.
* Joining and trimming commute with it: `mapPos_append`, `trimEnd_mapPos`, `trim_mapPos`.
-/

namespace MakeBlueprint.Makefile

namespace Phrase

namespace Body

/-- The body with its positions changed. -/
def mapPos (f : Nat → Nat) : Body → Body
  | .nil => .nil
  | .char c r => .char c (mapPos f r)
  | .ref name namePos pos delimiter r =>
    .ref (mapPos f name) (f namePos) (f pos) delimiter (mapPos f r)

variable (f : Nat → Nat)

@[simp] theorem mapPos_ofText (t : Text) : (ofText t).mapPos f = ofText t := by
  induction t with
  | nil => rfl
  | cons c t ih => simp [ofText, mapPos, ih]

@[simp] theorem mapPos_append (a b : Body) : (a ++ b).mapPos f = a.mapPos f ++ b.mapPos f := by
  induction a with
  | nil => rfl
  | char c r ih => simp [mapPos, ih]
  | ref name m n d r _ ih => simp [mapPos, ih]

@[simp] theorem dump_mapPos (b : Body) : (b.mapPos f).dump = b.dump := by
  induction b with
  | nil => rfl
  | char c r ih => simp [mapPos, dump, ih]
  | ref name m n d r ihname ih => simp [mapPos, dump, ihname, ih]

@[simp] theorem mapPos_eq_nil_iff {b : Body} : b.mapPos f = .nil ↔ b = .nil := by
  cases b <;> simp [mapPos]

@[simp] theorem endsWith_mapPos (c : Char) (b : Body) :
    (b.mapPos f).endsWith c = b.endsWith c := by
  induction b with
  | nil => rfl
  | char d r ih =>
    cases r with
    | nil => rfl
    | char => exact ih
    | ref => exact ih
  | ref name m n d r _ ih => exact ih

@[simp] theorem dropLast_mapPos (b : Body) : (b.mapPos f).dropLast = b.dropLast.mapPos f := by
  induction b with
  | nil => rfl
  | char d r ih =>
    cases r with
    | nil => rfl
    | char => exact congrArg _ ih
    | ref => exact congrArg _ ih
  | ref name m n d r _ ih => simp [mapPos, dropLast, ih]

@[simp] theorem leadingWhite_mapPos (b : Body) :
    (b.mapPos f).leadingWhite = b.leadingWhite := by
  induction b with
  | nil => rfl
  | char c r ih => simp [mapPos, leadingWhite, ih]
  | ref => rfl

@[simp] theorem trimStart_mapPos (b : Body) : (b.mapPos f).trimStart = b.trimStart.mapPos f := by
  induction b with
  | nil => rfl
  | char c r ih =>
    simp only [mapPos, trimStart]
    split
    · exact ih
    · rfl
  | ref => rfl

@[simp] theorem trimEnd_mapPos (b : Body) : (b.mapPos f).trimEnd = b.trimEnd.mapPos f := by
  induction b with
  | nil => rfl
  | char c r ih =>
    simp only [mapPos, trimEnd, ih]
    cases r.trimEnd with
    | nil =>
      simp only [mapPos]
      split <;> rfl
    | char => rfl
    | ref => rfl
  | ref name m n d r _ ih => simp [mapPos, trimEnd, ih]

end Body

variable (f : Nat → Nat) (n : Nat)

/-- The phrase with its positions changed. -/
def mapPos (p : Phrase) : Phrase := ⟨f p.pos, p.body.mapPos f⟩

@[simp] theorem pos_mapPos (p : Phrase) : (p.mapPos f).pos = f p.pos := rfl

@[simp] theorem body_mapPos (p : Phrase) : (p.mapPos f).body = p.body.mapPos f := rfl

@[simp] theorem isEmpty_mapPos (p : Phrase) : (p.mapPos f).isEmpty = p.isEmpty := by
  rw [Bool.eq_iff_iff]
  simp [isEmpty]

theorem trimEnd_mapPos (p : Phrase) : (p.mapPos f).trimEnd = p.trimEnd.mapPos f := by
  simp [trimEnd, mapPos]

theorem dropLast_mapPos (p : Phrase) : (p.mapPos f).dropLast = p.dropLast.mapPos f := by
  simp [dropLast, mapPos]

/-- White characters in front of a phrase count, so that a phrase may be trimmed before or after it
is moved, but not before or after its positions are forgotten. -/
theorem trim_mapPos (p : Phrase) : (p.mapPos (n + ·)).trim = p.trim.mapPos (n + ·) := by
  simp [trim, trimStart, trimEnd, mapPos, Nat.add_assoc]

end Phrase

variable (f : Nat → Nat) (n : Nat)

/-- The reference with its positions changed. -/
def Reference.mapPos (r : Reference) : Reference := ⟨r.name.mapPos f, f r.pos, r.delimiter⟩

theorem Phrase.soleReference?_mapPos (p : Phrase) :
    (p.mapPos f).soleReference? = p.soleReference?.map (Reference.mapPos f) := by
  obtain ⟨pos, body⟩ := p
  cases body with
  | nil => rfl
  | char => rfl
  | ref name m n d r => cases r <;> rfl

/-- The span with its ends changed. -/
def mapSpan (s : Span) : Span := ⟨f s.start, f s.stop⟩

/-- What a statement says, with its positions changed. -/
def Content.mapPos : Content → Content
  | .assignment a =>
    .assignment ⟨a.name.mapPos f, a.op, a.value.mapPos f, a.target.map (Phrase.mapPos f)⟩
  | .comment text => .comment text
  | .directive d => .directive ⟨d.keyword, d.arguments.mapPos f⟩
  | .rule r => .rule ⟨r.target.mapPos f, r.prerequisites.mapPos f, r.recipe⟩
  | .reference r => .reference (r.mapPos f)

/-- The cause with its positions changed. -/
def Cause.mapPos : Cause → Cause
  | .strayText body => .strayText (body.mapPos f)
  | .unclosedReference close name => .unclosedReference close (name.mapPos f)
  | cause => cause

/-- A message does not tell the positions in a phrase. -/
@[simp] theorem Cause.message_mapPos (cause : Cause) :
    (cause.mapPos f).message = cause.message := by
  cases cause with
  | strayText body => exact congrArg (_ ++ ·) (Phrase.Body.dump_mapPos f body)
  | unclosedReference close name => exact congrArg (_ ++ ·) (Phrase.Body.dump_mapPos f name)
  | expectedEquals | unexpected | unexpectedInRule | endlessDefine | nothingToEscape | missingName
  | emptyName => rfl

/-- The fault with its positions changed. -/
def Fault.mapPos (fault : Fault) : Fault := ⟨fault.cause.mapPos f, f fault.offset⟩

theorem AssignOp.takeMark_mapPos (op : AssignOp) (name : Phrase) :
    op.takeMark (name.mapPos f) = ((op.takeMark name).1, (op.takeMark name).2.mapPos f) := by
  unfold takeMark
  rw [Phrase.body_mapPos, Phrase.Body.endsWith_mapPos, Phrase.Body.endsWith_mapPos,
    Phrase.dropLast_mapPos]
  split
  · rfl
  · split <;> rfl

end MakeBlueprint.Makefile
