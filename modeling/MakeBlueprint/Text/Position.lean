import MakeBlueprint.Text.Basic

/-!
# Positions

A position is the number of bytes before it. Readers want lines and columns: `lineAt` and
`columnAt` compute them, both counted from one, the column in bytes.

* `slice?` cuts a part out between two positions. It fails when the part does not lie in the
  text or would cut a character in two.
-/

namespace MakeBlueprint

/-- Half-open range of positions or, for lines, the first and the last line. -/
structure Span where
  start : Nat
  stop : Nat
  deriving DecidableEq, Repr

namespace Text

/-- The line of a position: one more than the number of line feeds before it. -/
def lineAt (offset : Nat) : Text → Nat
  | [] => 1
  | c :: t =>
    if offset = 0 then 1
    else (if c = '\n' then 1 else 0) + lineAt (offset - c.utf8Size) t

theorem lineAt_zero (t : Text) : lineAt 0 t = 1 := by
  cases t <;> rfl

/-- The column of a position when the text starts in column `column`. -/
def columnFrom (column offset : Nat) : Text → Nat
  | [] => column + offset
  | c :: t =>
    if offset = 0 then column
    else if c = '\n' then columnFrom 1 (offset - c.utf8Size) t
    else columnFrom (column + min c.utf8Size offset) (offset - c.utf8Size) t

theorem columnFrom_zero (column : Nat) (t : Text) : columnFrom column 0 t = column := by
  cases t <;> rfl

/-- The column of a position: one more than the number of bytes since the last line feed. -/
def columnAt (offset : Nat) (t : Text) : Nat := columnFrom 1 offset t

/-- The first `n` bytes and the rest, unless the text is too short or a character is cut. -/
def splitAtByte? : Nat → Text → Option (Text × Text)
  | 0, t => some ([], t)
  | _ + 1, [] => none
  | n + 1, c :: t =>
    if c.utf8Size ≤ n + 1 then
      (splitAtByte? (n + 1 - c.utf8Size) t).map fun (a, b) => (c :: a, b)
    else none

theorem append_of_splitAtByte? {n : Nat} {t a b : Text} (h : splitAtByte? n t = some (a, b)) :
    a ++ b = t := by
  induction t generalizing n a b with
  | nil => cases n <;> simp_all [splitAtByte?]
  | cons c t ih =>
    cases n with
    | zero => simp_all [splitAtByte?]
    | succ n =>
      rw [splitAtByte?] at h
      split at h
      · obtain ⟨⟨x, y⟩, hxy, he⟩ := Option.map_eq_some_iff.1 h
        cases he
        simp [ih hxy]
      · simp at h

/-- The part of a text between two positions. -/
def slice? (s : Span) (t : Text) : Option Text := do
  let (_, rest) ← splitAtByte? s.start t
  if s.start ≤ s.stop then
    let (part, _) ← splitAtByte? (s.stop - s.start) rest
    some part
  else none

end Text

end MakeBlueprint
