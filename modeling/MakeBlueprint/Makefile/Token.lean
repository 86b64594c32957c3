import MakeBlueprint.Text.Basic

/-!
# Tokens

Makefile text falls into tokens: line breaks, blanks, punctuation, escapes, and runs of all other
characters. The meaning of a run depends on its place, so the tokens do not say more about it.

* `lex` cuts a text into tokens.
* `textOf_lex`: the tokens of a text, joined, are the text.
-/

namespace MakeBlueprint.Makefile

/-- The kinds of tokens. -/
inductive Token.Kind where
  | whitespace | tab | newline | dollar | leftParen | rightParen | leftBrace | rightBrace
  | colon | equals | plus | question | hash | semicolon | pipe
  /-- A backslash at the end of the text, with nothing to escape. -/
  | backslash
  /-- A backslash with the character or line break that it escapes. -/
  | escape
  /-- A run of characters that have no role of their own. -/
  | identifier
  deriving DecidableEq, Repr

/-- A piece of makefile text. -/
structure Token where
  kind : Token.Kind
  text : Text
  deriving DecidableEq, Repr

namespace Token

/-- The name of a kind in messages. -/
def Kind.label : Kind → Text
  | .whitespace => "WHITESPACE"
  | .tab => "TAB"
  | .newline => "NEWLINE"
  | .dollar => "DOLLAR"
  | .leftParen => "LPAREN"
  | .rightParen => "RPAREN"
  | .leftBrace => "LBRACE"
  | .rightBrace => "RBRACE"
  | .colon => "COLON"
  | .equals => "EQUALS"
  | .plus => "PLUS"
  | .question => "QUESTION"
  | .hash => "HASH"
  | .semicolon => "SEMICOLON"
  | .pipe => "PIPE"
  | .backslash => "BACKSLASH"
  | .escape => "ESCAPE"
  | .identifier => "IDENTIFIER"

/-- The kind of a character that is a token by itself. -/
def single? : Char → Option Kind
  | ' ' | '\r' => some .whitespace
  | '\t' => some .tab
  | '\n' => some .newline
  | '$' => some .dollar
  | '(' => some .leftParen
  | ')' => some .rightParen
  | '{' => some .leftBrace
  | '}' => some .rightBrace
  | ':' => some .colon
  | '=' => some .equals
  | '+' => some .plus
  | '?' => some .question
  | '#' => some .hash
  | ';' => some .semicolon
  | '|' => some .pipe
  | _ => none

/-- Puts a character in front of tokens: it joins an identifier that stands there. -/
def consIdentifier (c : Char) : List Token → List Token
  | ⟨.identifier, w⟩ :: ts => ⟨.identifier, c :: w⟩ :: ts
  | ts => ⟨.identifier, [c]⟩ :: ts

/-- The tokens of a text. A carriage return belongs to the line feed behind it. -/
def lex : Text → List Token
  | [] => []
  | '\r' :: '\n' :: t => ⟨.newline, ['\r', '\n']⟩ :: lex t
  | ['\\'] => [⟨.backslash, ['\\']⟩]
  | '\\' :: '\r' :: '\n' :: t => ⟨.escape, ['\\', '\r', '\n']⟩ :: lex t
  | '\\' :: c :: t => ⟨.escape, ['\\', c]⟩ :: lex t
  | c :: t =>
    match single? c with
    | some kind => ⟨kind, [c]⟩ :: lex t
    | none => consIdentifier c (lex t)

/-- The text that tokens cover. -/
def textOf (ts : List Token) : Text := ts.flatMap text

theorem textOf_append (ts us : List Token) : textOf (ts ++ us) = textOf ts ++ textOf us :=
  List.flatMap_append

theorem textOf_consIdentifier (c : Char) (ts : List Token) :
    textOf (consIdentifier c ts) = c :: textOf ts := by
  unfold consIdentifier
  split <;> simp [textOf]

/-- Cutting a text into tokens loses nothing. -/
theorem textOf_lex (t : Text) : textOf (lex t) = t := by
  fun_induction lex t with
  | case1 => rfl
  | case2 t ih => simp_all [textOf]
  | case3 => rfl
  | case4 t ih => simp_all [textOf]
  | case5 c t _ ih => simp_all [textOf]
  | case6 c t _ _ _ _ kind _ ih => simp_all [textOf]
  | case7 c t _ _ _ _ _ ih => rw [textOf_consIdentifier, ih]

end Token

end MakeBlueprint.Makefile
