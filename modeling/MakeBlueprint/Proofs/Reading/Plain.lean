import MakeBlueprint.Proofs.Reading.Layout
import MakeBlueprint.Proofs.Reading.Lines
import MakeBlueprint.Proofs.Reading.Tokens

/-!
# Plain texts

In a text without backslashes, hash signs and carriage returns, every character that is a token is
one wherever it stands, and all others are parts of words. So its readers can be followed character
by character: a cursor stands behind a text and in front of a text (`Cursor.upTo`).

* `lex_append_single`: a text is cut at a character that is a token.
* `exists_of_lex_cons`: what is behind a token is the tokens of a text again.
* `advance_tokens`, `skipWhile_eq`, `bareName_eq`: steps.
* `keyword?_eq`: whether a line is a directive is told by its text (`wordKeyword?`).
-/

namespace MakeBlueprint

namespace Text

/-- A text without backslashes, hash signs and carriage returns. -/
def IsPlain (t : Text) : Prop := ∀ c ∈ t, c ≠ '\\' ∧ c ≠ '#' ∧ c ≠ '\r'

instance (t : Text) : Decidable (IsPlain t) := List.decidableBAll _ t

variable {s t : Text} {c : Char}

theorem isPlain_append : IsPlain (s ++ t) ↔ IsPlain s ∧ IsPlain t := List.forall_mem_append

theorem isPlain_cons : IsPlain (c :: t) ↔ (c ≠ '\\' ∧ c ≠ '#' ∧ c ≠ '\r') ∧ IsPlain t :=
  List.forall_mem_cons

theorem isPlain_nil : IsPlain [] := fun _ h => absurd h List.not_mem_nil

theorem isPlain_dropWhile (h : IsPlain t) (p : Char → Bool) : IsPlain (t.dropWhile p) :=
  fun c hc => h c ((List.dropWhile_sublist p).subset hc)

theorem of_mem_head?_dropWhile {p : Char → Bool} (h : c ∈ (t.dropWhile p).head?) : p c = false := by
  have hnot := List.head?_dropWhile_not p t
  rwa [Option.mem_def.mp h] at hnot

end Text

namespace Makefile

open Text (IsPlain)

variable {s u v : Text} {x y : Char}

namespace Token

/-- The kind of the token that a character is, or that it is part of. -/
def kindOf (c : Char) : Kind := (single? c).getD .identifier

theorem single?_ne_identifier : single? x ≠ some .identifier := by
  unfold single?
  split <;> nofun

theorem single?_of_kindOf (h : kindOf x ≠ .identifier) : single? x = some (kindOf x) := by
  unfold kindOf at h ⊢
  cases hx : single? x with
  | none =>
    rw [hx] at h
    exact absurd rfl h
  | some kind => rfl

theorem single?_of_letter (h : kindOf x = .identifier) : single? x = none := by
  unfold kindOf at h
  cases hx : single? x with
  | none => rfl
  | some kind =>
    rw [hx] at h
    exact absurd (hx.trans (congrArg some h)) single?_ne_identifier

theorem lex_single (h : IsPlain (x :: s)) (hx : kindOf x ≠ .identifier) :
    lex (x :: s) = ⟨kindOf x, [x]⟩ :: lex s := by
  have hchar := (Text.isPlain_cons.mp h).1
  rw [lex_cons hchar.1 fun _ hreturn => absurd hreturn hchar.2.2, single?_of_kindOf hx]

theorem lex_letter (h : IsPlain (x :: s)) (hx : kindOf x = .identifier) :
    lex (x :: s) = consIdentifier x (lex s) := by
  have hchar := (Text.isPlain_cons.mp h).1
  rw [lex_cons hchar.1 fun _ hreturn => absurd hreturn hchar.2.2, single?_of_letter hx]

/-- The first token is of the kind of the first character, and begins with it. -/
theorem exists_lex_cons (h : IsPlain (x :: s)) :
    ∃ w ts, lex (x :: s) = ⟨kindOf x, x :: w⟩ :: ts := by
  by_cases hx : kindOf x = .identifier
  · rw [lex_letter h hx, hx]
    unfold consIdentifier
    split
    · exact ⟨_, _, rfl⟩
    · exact ⟨_, _, rfl⟩
  · exact ⟨[], _, lex_single h hx⟩

/-- A character in front of a token that is no word is a word by itself. -/
theorem consIdentifier_of_ne {c : Char} {t : Token} {ts : List Token} (h : t.kind ≠ .identifier) :
    consIdentifier c (t :: ts) = ⟨.identifier, [c]⟩ :: t :: ts := by
  unfold consIdentifier
  split
  · next heq => exact absurd (congrArg Token.kind (List.cons.inj heq).1) h
  · rfl

/-- **A text is cut at a character that is a token.** -/
theorem lex_append_single (h : IsPlain (s ++ x :: u)) (hx : kindOf x ≠ .identifier) :
    lex (s ++ x :: u) = lex s ++ ⟨kindOf x, [x]⟩ :: lex u := by
  induction s with
  | nil => exact lex_single h hx
  | cons c s ih =>
    obtain ⟨hc, hrest⟩ := Text.isPlain_cons.mp h
    have hs : IsPlain (c :: s) := Text.isPlain_cons.mpr ⟨hc, (Text.isPlain_append.mp hrest).1⟩
    rw [List.cons_append] at h ⊢
    by_cases hletter : kindOf c = .identifier
    · rw [lex_letter h hletter, lex_letter hs hletter, ih hrest]
      cases hlex : lex s with
      | nil =>
        rw [List.nil_append, consIdentifier_of_ne hx]
        rfl
      | cons t ts => rw [consIdentifier_append (List.cons_ne_nil t ts)]
    · rw [lex_single h hletter, lex_single hs hletter, ih hrest, List.cons_append]

/-- **What is behind a token** is the tokens of what is behind its text. -/
theorem exists_of_lex_cons {t : Token} {ts : List Token} (h : IsPlain s) (hlex : lex s = t :: ts) :
    ∃ u, s = t.text ++ u ∧ ts = lex u := by
  induction s generalizing t ts with
  | nil => cases hlex
  | cons c s ih =>
    by_cases hc : kindOf c = .identifier
    · rw [lex_letter h hc] at hlex
      unfold consIdentifier at hlex
      split at hlex
      · next w us heq =>
        cases hlex
        obtain ⟨u, hs, hus⟩ := ih (Text.isPlain_cons.mp h).2 heq
        exact ⟨u, congrArg (c :: ·) hs, hus⟩
      · cases hlex
        exact ⟨s, rfl, rfl⟩
    · rw [lex_single h hc] at hlex
      cases hlex
      exact ⟨s, rfl, rfl⟩

/-- A word can be cut behind its first character. -/
theorem lex_of_word {w : Text} {ts : List Token} (h : IsPlain s)
    (hlex : lex s = ⟨.identifier, x :: y :: w⟩ :: ts) :
    ∃ u, s = x :: u ∧ lex u = ⟨.identifier, y :: w⟩ :: ts := by
  cases s with
  | nil => cases hlex
  | cons c s =>
    by_cases hc : kindOf c = .identifier
    · rw [lex_letter h hc] at hlex
      unfold consIdentifier at hlex
      split at hlex
      · next v us heq =>
        cases hlex
        exact ⟨s, rfl, heq⟩
      · cases hlex
    · rw [lex_single h hc] at hlex
      exact absurd (congrArg Token.kind (List.cons.inj hlex).1) hc

/-- The tokens of a class of characters that are tokens, and what is behind them. -/
theorem skip_lex {p : Kind → Bool} (hp : p .identifier = false) (h : IsPlain s) :
    textOf ((lex s).takeWhile fun t => p t.kind) = s.takeWhile (fun x => p (kindOf x)) ∧
      (lex s).dropWhile (fun t => p t.kind) = lex (s.dropWhile fun x => p (kindOf x)) := by
  induction s with
  | nil => exact ⟨rfl, rfl⟩
  | cons c s ih =>
    cases hc : p (kindOf c) with
    | true =>
      have hsingle : kindOf c ≠ .identifier := by
        intro hletter
        rw [hletter, hp] at hc
        cases hc
      obtain ⟨htake, hdrop⟩ := ih (Text.isPlain_cons.mp h).2
      rw [lex_single h hsingle]
      simp only [List.takeWhile_cons, List.dropWhile_cons, hc]
      exact ⟨congrArg (c :: ·) htake, hdrop⟩
    | false =>
      obtain ⟨w, ts, hlex⟩ := exists_lex_cons h
      rw [hlex]
      simp only [List.takeWhile_cons, List.dropWhile_cons, hc]
      exact ⟨rfl, hlex.symm⟩

/-- Whether a character is part of a word. -/
def isLetter (c : Char) : Bool := kindOf c == .identifier

/-- A word is one token. -/
theorem lex_word (h : IsPlain (x :: s)) (hx : isLetter x = true) :
    lex (x :: s) =
      ⟨.identifier, (x :: s).takeWhile isLetter⟩ :: lex ((x :: s).dropWhile isLetter) := by
  induction s generalizing x with
  | nil =>
    rw [lex_letter h (by simpa [isLetter] using hx), List.takeWhile_cons_of_pos hx,
      List.dropWhile_cons_of_pos hx]
    rfl
  | cons y s ih =>
    have hrest := (Text.isPlain_cons.mp h).2
    rw [lex_letter h (by simpa [isLetter] using hx), List.takeWhile_cons_of_pos hx,
      List.dropWhile_cons_of_pos hx]
    by_cases hy : isLetter y = true
    · rw [ih hrest hy]
      rfl
    · have hsingle : kindOf y ≠ .identifier := by simpa [isLetter] using hy
      rw [List.takeWhile_cons_of_neg hy, List.dropWhile_cons_of_neg hy, lex_single hrest hsingle,
        consIdentifier_of_ne hsingle]

end Token

/-- The keyword of the directive that a text is. -/
def wordKeyword? (s : Text) : Option Keyword :=
  match ((s.dropWhile Token.isLetter).dropWhile fun x => (Token.kindOf x).isBlank).head? with
  | some x =>
    if (Token.kindOf x).deniesDirective then none else Keyword.ofText? (s.takeWhile Token.isLetter)
  | none => Keyword.ofText? (s.takeWhile Token.isLetter)

namespace Cursor

open Token (lex kindOf textOf)

variable {c : Cursor}

/-- The cursor behind a text, in front of a text. -/
def upTo (c : Cursor) (v u : Text) : Cursor :=
  { c with rest := lex u, read := c.read + Text.byteSize v }

theorem upTo_upTo (c : Cursor) (v w u u' : Text) : (c.upTo v u).upTo w u' = c.upTo (v ++ w) u' := by
  unfold upTo
  simp only [Text.byteSize_append, Nat.add_assoc]

theorem upTo_nil (h : c.rest = lex u) : c.upTo [] u = c := by
  obtain ⟨rest, read, size, statements, comments, faults⟩ := c
  cases h
  rfl

/-- Going past tokens. -/
theorem advance_tokens {ts : List Token} (h : c.rest = ts ++ lex u) :
    c.advance ts.length = c.upTo (textOf ts) u := by
  unfold advance upTo
  rw [h, List.drop_left, List.take_left]

theorem advance_one_eq (h : c.rest = lex (x :: u)) (hplain : IsPlain (x :: u))
    (hx : kindOf x ≠ .identifier) : c.advance 1 = c.upTo [x] u := by
  have hrest : c.rest = [Token.mk (kindOf x) [x]] ++ lex u := by
    rw [h, Token.lex_single hplain hx]
    rfl
  exact advance_tokens hrest

theorem kindAt_zero_eq (h : c.rest = lex (x :: u)) (hplain : IsPlain (x :: u)) :
    c.kindAt 0 = some (kindOf x) := by
  obtain ⟨w, ts, hlex⟩ := Token.exists_lex_cons hplain
  exact kindAt_of_rest (h.trans hlex)

theorem kindAt_zero_eq_none (h : c.rest = lex []) : c.kindAt 0 = none := kindAt_eq_none_iff.mpr h

theorem exists_of_kindAt_eq {kind : Token.Kind} (h : c.rest = lex s) (hplain : IsPlain s)
    (hkind : c.kindAt 0 = some kind) : ∃ x u, s = x :: u ∧ kindOf x = kind := by
  cases s with
  | nil =>
    rw [kindAt_zero_eq_none h] at hkind
    cases hkind
  | cons x u =>
    rw [kindAt_zero_eq h hplain] at hkind
    exact ⟨x, u, rfl, Option.some.inj hkind⟩

theorem kindAt_one_eq (h : c.rest = lex (x :: y :: u)) (hplain : IsPlain (x :: y :: u))
    (hx : kindOf x ≠ .identifier) : c.kindAt 1 = some (kindOf y) := by
  have hadvance := advance_one_eq h hplain hx
  have hnext : (c.upTo [x] (y :: u)).kindAt 0 = some (kindOf y) :=
    kindAt_zero_eq rfl (Text.isPlain_cons.mp hplain).2
  rw [← hadvance, kindAt_advance] at hnext
  exact hnext

/-- Skipping a class of characters that are tokens. -/
theorem skipWhile_eq {p : Token.Kind → Bool} (hp : p .identifier = false) (h : c.rest = lex s)
    (hplain : IsPlain s) :
    c.skipWhile p =
      c.upTo (s.takeWhile fun x => p (kindOf x)) (s.dropWhile fun x => p (kindOf x)) := by
  obtain ⟨htake, hdrop⟩ := Token.skip_lex hp hplain
  have hrest : c.rest = (c.rest.takeWhile fun t => p t.kind) ++
      lex (s.dropWhile fun x => p (kindOf x)) := by
    rw [← hdrop, ← h, List.takeWhile_append_dropWhile]
  unfold skipWhile
  rw [advance_tokens hrest, h, htake]

/-- **In a plain text, every step ends in front of a text.** -/
theorem exists_advance_eq (h : c.rest = lex s) (hplain : IsPlain s) (n : Nat) :
    ∃ v u, s = v ++ u ∧ c.advance n = c.upTo v u := by
  induction n generalizing c s with
  | zero =>
    refine ⟨[], s, rfl, ?_⟩
    rw [upTo_nil h]
    obtain ⟨rest, read, size, statements, comments, faults⟩ := c
    rfl
  | succ n ih =>
    cases hlex : lex s with
    | nil =>
      refine ⟨[], s, rfl, ?_⟩
      rw [upTo_nil h]
      have hrest := h.trans hlex
      obtain ⟨rest, read, size, statements, comments, faults⟩ := c
      cases hrest
      rfl
    | cons t ts =>
      obtain ⟨u, rfl, rfl⟩ := Token.exists_of_lex_cons hplain hlex
      have hone : c.advance 1 = c.upTo t.text u := by
        have htext : textOf [t] = t.text := List.append_nil _
        have hrest : c.rest = [t] ++ lex u := h.trans hlex
        rw [← htext]
        exact advance_tokens hrest
      obtain ⟨v, w, rfl, hbehind⟩ :=
        ih (congrArg Cursor.rest hone) (Text.isPlain_append.mp hplain).2
      refine ⟨t.text ++ v, w, (List.append_assoc _ _ _).symm, ?_⟩
      rw [Nat.add_comm, ← advance_advance, hbehind, hone, upTo_upTo]

/-- The name of a bare reference is one character. -/
theorem bareName_eq {dollar : Nat} (h : c.rest = lex (x :: u)) (hplain : IsPlain (x :: u))
    (hnewline : kindOf x ≠ .newline) (hdollar : kindOf x ≠ .dollar) :
    c.bareName dollar = ([x], c.offset, c.upTo [x] u) := by
  obtain ⟨w, ts, hlex⟩ := Token.exists_lex_cons hplain
  have hrest := h.trans hlex
  by_cases hx : kindOf x = .identifier
  · rw [hx] at hlex hrest
    unfold bareName
    rw [hrest]
    dsimp only
    cases w with
    | nil =>
      obtain ⟨u', hu, hts⟩ := Token.exists_of_lex_cons hplain hlex
      obtain rfl : u = u' := (List.cons.inj hu).2
      have hone : c.rest = [Token.mk .identifier [x]] ++ lex u := by rw [hrest, hts]; rfl
      exact congrArg (fun d => ([x], c.offset, d)) (advance_tokens hone)
    | cons y w =>
      obtain ⟨u', hu, hts⟩ := Token.lex_of_word hplain hlex
      obtain rfl : u = u' := (List.cons.inj hu).2
      unfold upTo
      rw [hts]
      rfl
  · have hw : w = [] := by
      rw [Token.lex_single hplain hx] at hlex
      cases hlex
      rfl
    subst hw
    rw [← advance_one_eq h hplain hx]
    unfold bareName
    rw [hrest]
    dsimp only
    split
    · next hk => exact absurd hk hnewline
    · next hk => exact absurd hk hdollar
    · next hk => exact absurd hk hx
    · rfl

theorem bareName_dollar {dollar : Nat} (h : c.rest = lex ('$' :: u)) (hplain : IsPlain ('$' :: u)) :
    c.bareName dollar = (dollarName, dollar, c.upTo ['$'] u) := by
  have hrest : c.rest = ⟨.dollar, ['$']⟩ :: lex u := h.trans (Token.lex_single hplain (by decide))
  rw [← advance_one_eq h hplain (by decide)]
  unfold bareName
  rw [hrest]

/-- **Whether a line is a directive is told by its text.** -/
theorem keyword?_eq (h : c.rest = lex s) (hplain : IsPlain s) : c.keyword? = wordKeyword? s := by
  have hempty : Keyword.ofText? [] = none := by decide
  cases s with
  | nil =>
    unfold keyword? wordKeyword?
    rw [h]
    exact hempty.symm
  | cons x s =>
    by_cases hx : Token.isLetter x = true
    · have hrest : IsPlain ((x :: s).dropWhile Token.isLetter) :=
        fun y hy => hplain y ((List.dropWhile_sublist _).subset hy)
      unfold keyword? wordKeyword?
      rw [h, Token.lex_word hplain hx]
      dsimp only
      rw [(Token.skip_lex (rfl : Token.Kind.isBlank .identifier = false) hrest).2]
      have hlast : IsPlain (((x :: s).dropWhile Token.isLetter).dropWhile
          fun x => (kindOf x).isBlank) := fun y hy => hrest y ((List.dropWhile_sublist _).subset hy)
      cases hnext : ((x :: s).dropWhile Token.isLetter).dropWhile fun x => (kindOf x).isBlank with
      | nil => rfl
      | cons y v =>
        rw [hnext] at hlast
        obtain ⟨w, ts, hlex⟩ := Token.exists_lex_cons hlast
        rw [hlex]
        rfl
    · have hsingle : kindOf x ≠ .identifier := by simpa [Token.isLetter] using hx
      have hkeyword : c.keyword? = none := by
        unfold keyword?
        rw [h, Token.lex_single hplain hsingle]
        split
        · next heq => exact absurd (congrArg Token.kind (List.cons.inj heq).1) hsingle
        · rfl
      rw [hkeyword]
      unfold wordKeyword?
      rw [List.takeWhile_cons_of_neg hx, hempty]
      split
      · split <;> rfl
      · rfl

end Cursor

end Makefile

end MakeBlueprint
