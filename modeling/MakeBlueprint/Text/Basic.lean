/-!
# Texts

A text is the list of its characters, so that every statement about texts is a statement about
lists. Positions in a text count UTF-8 bytes; `byteSize` is the only measure of that kind.

* `split` cuts at every character of a class and keeps empty pieces; `split_ne_nil` says that
  there is always a piece.
* `linesWithBreaks` cuts after each line feed and loses nothing: `flatten_linesWithBreaks`.
* `lines` are those lines without their line breaks.
-/

namespace MakeBlueprint

/-- A text is the list of its characters. -/
abbrev Text := List Char

instance : Coe String Text := ⟨String.toList⟩

namespace Text

/-- The number of bytes that a text takes in UTF-8. -/
def byteSize : Text → Nat
  | [] => 0
  | c :: t => c.utf8Size + byteSize t

@[simp] theorem byteSize_append (s t : Text) : byteSize (s ++ t) = byteSize s + byteSize t := by
  induction s with
  | nil => simp [byteSize]
  | cons c s ih => simp [byteSize, ih, Nat.add_assoc]

theorem byteSize_pos {t : Text} (h : t ≠ []) : 0 < byteSize t := by
  obtain ⟨c, t, rfl⟩ := List.exists_cons_of_ne_nil h
  have := Char.utf8Size_pos c
  rw [byteSize]
  omega

/-- A number in decimal digits. -/
def ofNat (n : Nat) : Text := Nat.toDigits 10 n

/-- Texts one after the other, with `separator` between neighbours. -/
def join (separator : Text) (texts : List Text) : Text := separator.intercalate texts

/-- The text without the characters of the class `p` at its end. -/
def dropEndWhile (p : Char → Bool) (t : Text) : Text := (t.reverse.dropWhile p).reverse

/-! ## Blanks -/

/-- The characters that separate words in makefile text. -/
def isBlank (c : Char) : Bool := c == ' ' || c == '\t'

/-! ## Pieces and lines -/

/-- Puts `s` in front of the first of several pieces. -/
def glue (s : Text) : List Text → List Text
  | [] => [s]
  | p :: ps => (s ++ p) :: ps

/-- The pieces of a text between the characters of the class `p`, empty ones included. -/
def split (p : Char → Bool) : Text → List Text
  | [] => [[]]
  | c :: t => if p c then [] :: split p t else glue [c] (split p t)

theorem glue_ne_nil (s : Text) (ps : List Text) : glue s ps ≠ [] := by
  cases ps <;> simp [glue]

theorem split_ne_nil (p : Char → Bool) (t : Text) : split p t ≠ [] := by
  cases t with
  | nil => simp [split]
  | cons c t =>
    rw [split]
    split
    · simp
    · exact glue_ne_nil _ _

/-- The lines of a text, each with the line feed that ends it. -/
def linesWithBreaks : Text → List Text
  | [] => []
  | c :: t => if c = '\n' then [c] :: linesWithBreaks t else glue [c] (linesWithBreaks t)

theorem flatten_glue (s : Text) (ps : List Text) : (glue s ps).flatten = s ++ ps.flatten := by
  cases ps <;> simp [glue]

/-- Cutting into lines loses nothing. -/
theorem flatten_linesWithBreaks (t : Text) : (linesWithBreaks t).flatten = t := by
  induction t with
  | nil => rfl
  | cons c t ih =>
    rw [linesWithBreaks]
    split
    · simp [ih]
    · simp [flatten_glue, ih]

/-- The text without the line break at its end: a line feed, or a carriage return and a line
feed. -/
def withoutBreak (t : Text) : Text :=
  match t.reverse with
  | '\n' :: '\r' :: r => r.reverse
  | '\n' :: r => r.reverse
  | _ => t

/-- The lines of a text without their line breaks. -/
def lines (t : Text) : List Text := (linesWithBreaks t).map withoutBreak

end Text

end MakeBlueprint
