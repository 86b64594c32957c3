import MakeBlueprint.Text.Basic

/-!
# White space

`isWhite` is the Unicode property White_Space. It is wider than the blanks that separate words,
and it decides what is trimmed from the ends of a text.

* `isWhite_of_isWhitespace`: every white character that the standard library knows is white here.
* `trimStart`, `trimEnd` and `trim` drop white characters from the ends.
-/

namespace MakeBlueprint.Text

/-- The ranges of the characters with the property White_Space. -/
def whiteRanges : List (Nat × Nat) :=
  [(0x09, 0x0d), (0x20, 0x20), (0x85, 0x85), (0xa0, 0xa0), (0x1680, 0x1680), (0x2000, 0x200a),
   (0x2028, 0x2029), (0x202f, 0x202f), (0x205f, 0x205f), (0x3000, 0x3000)]

/-- Whether a character has the property White_Space. -/
def isWhite (c : Char) : Bool :=
  whiteRanges.any fun (first, last) => first ≤ c.toNat && c.toNat ≤ last

theorem isWhite_of_isWhitespace {c : Char} (h : c.isWhitespace = true) : isWhite c = true := by
  simp only [Char.isWhitespace, Bool.or_eq_true, decide_eq_true_eq] at h
  rcases h with ((rfl | rfl) | rfl) | rfl <;> decide

theorem isWhite_of_isBlank {c : Char} (h : isBlank c = true) : isWhite c = true := by
  simp only [isBlank, Bool.or_eq_true, beq_iff_eq] at h
  rcases h with rfl | rfl <;> decide

/-- The text without white characters in front. -/
def trimStart (t : Text) : Text := t.dropWhile isWhite

/-- The text without white characters at the end. -/
def trimEnd (t : Text) : Text := t.dropEndWhile isWhite

/-- The text without white characters at both ends. -/
def trim (t : Text) : Text := trimEnd (trimStart t)

end MakeBlueprint.Text
