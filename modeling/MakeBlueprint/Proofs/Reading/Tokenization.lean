import Mathlib.Data.List.Chain
import MakeBlueprint.Proofs.Reading.Plain

/-!
# The tokenisation of a text

Tokens are a tokenisation if each has the form of its kind and no token could take in what is behind
it (`Tokenized`). A text has exactly one tokenisation, and the lexer finds it.

* `lex_cons_of_apart`: a token in front of a text is its first token, if it is apart from the next.
* `lex_textOf_iff`: tokens are those of their own text if and only if they are a tokenisation.
* `lex_keyword`, `Cursor.keyword?_of_rest`: a word is read as a keyword.
* `Cursor.offset_advance_start`: the position of a token is the size of all tokens before it.
* `lex_unique`: the tokens of a text, where they stand, and that there are no others.
-/

namespace MakeBlueprint.Makefile

namespace Token

variable {s : Text} {c : Char} {t u : Token} {ts : List Token}

/-- A token ends with a carriage return that a line feed behind it would belong to. -/
def AwaitsFeed (t : Token) : Prop :=
  t.kind = .whitespace ∧ t.text = ['\r'] ∨ t.kind = .escape ∧ t.text = ['\\', '\r']

/-- **A token may stand in front of another one**, which is no part of it. -/
structure Apart (t u : Token) : Prop where
  /-- A backslash that escapes nothing is the last token. -/
  backslash : t.kind ≠ .backslash
  /-- A word goes on as far as it can. -/
  words : ¬ (t.kind = .identifier ∧ u.kind = .identifier)
  /-- A line break of two characters stays whole, also when it is escaped. -/
  feed : ¬ (t.AwaitsFeed ∧ u = ⟨.newline, ['\n']⟩)

/-- **Tokens are a tokenisation**, of the text that they make up. -/
structure Tokenized (ts : List Token) : Prop where
  formed : ∀ t ∈ ts, t.Formed
  apart : ts.IsChain Apart

/-! ## Reading tokens back -/

theorem head?_lex_feed (s : Text) : (lex ('\n' :: s)).head? = some ⟨.newline, ['\n']⟩ := by
  rw [lex_cons (by decide) fun _ h => absurd h (by decide)]
  rfl

/-- A carriage return at the end of a token is not followed by a line feed. -/
theorem Apart.ne_feed (h : ∀ u ∈ (lex s).head?, Apart t u) (ht : t.AwaitsFeed) (r : Text) :
    s ≠ '\n' :: r := by
  rintro rfl
  exact (h _ (head?_lex_feed r)).feed ⟨ht, rfl⟩

/-- A word is read as one token, up to something that is no word. -/
theorem lex_letters {w : Text} (hw : w ≠ []) (hletters : ∀ x ∈ w, IsLetter x)
    (hs : ∀ u ∈ (lex s).head?, u.kind ≠ .identifier) :
    lex (w ++ s) = ⟨.identifier, w⟩ :: lex s := by
  induction w with
  | nil => exact absurd rfl hw
  | cons x w ih =>
    obtain ⟨⟨hsingle, hbackslash⟩, hletters⟩ := List.forall_mem_cons.mp hletters
    have hreturn : ∀ r, x = '\r' → w ++ s ≠ '\n' :: r := by
      rintro r rfl
      cases hsingle
    rw [List.cons_append, lex_cons hbackslash hreturn, hsingle]
    by_cases hnil : w = []
    · subst hnil
      rw [List.nil_append]
      cases hlex : lex s with
      | nil => rfl
      | cons u us => exact consIdentifier_of_ne (hs u (by rw [hlex]; rfl))
    · rw [ih hnil hletters]
      rfl

/-- A token of one character is read back. -/
theorem lex_cons_of_single {kind : Kind} (hc : single? c = some kind)
    (hreturn : ∀ r, c = '\r' → s ≠ '\n' :: r) : lex (c :: s) = ⟨kind, [c]⟩ :: lex s := by
  have hbackslash : c ≠ '\\' := by
    rintro rfl
    cases hc
  rw [lex_cons hbackslash hreturn, hc]

/-- **A token in front of a text is its first token**, if it is apart from the next one. -/
theorem lex_cons_of_apart (ht : t.Formed) (h : ∀ u ∈ (lex s).head?, Apart t u) :
    lex (t.text ++ s) = t :: lex s := by
  obtain ⟨kind, text⟩ := t
  -- The first character of a token decides how it is read, and so the cases are those of its form.
  have hsingle : (∃ c, single? c = some kind ∧ text = [c]) →
      (single? '\r' = some kind → kind = .whitespace) →
      lex (text ++ s) = ⟨kind, text⟩ :: lex s := by
    rintro ⟨c, hc, rfl⟩ hkind
    refine lex_cons_of_single hc ?_
    rintro r rfl
    exact Apart.ne_feed h (Or.inl ⟨hkind hc, rfl⟩) r
  cases kind with
  | identifier =>
    exact lex_letters ht.1 ht.2 fun u hu hkind => (h u hu).words ⟨rfl, hkind⟩
  | newline =>
    rcases ht with rfl | rfl
    · exact lex_cons_of_single rfl fun r hr => absurd hr (by decide)
    · exact (show lex ('\r' :: '\n' :: s) = _ by rw [lex])
  | escape =>
    rcases ht with rfl | ⟨c, rfl⟩
    · exact (show lex ('\\' :: '\r' :: '\n' :: s) = _ by rw [lex])
    · change lex ('\\' :: c :: s) = _
      rw [lex]
      rintro r rfl
      exact Apart.ne_feed h (Or.inr ⟨rfl, rfl⟩) r
  | backslash =>
    obtain rfl : text = ['\\'] := ht
    have hs : lex s = [] := by
      cases hlex : lex s with
      | nil => rfl
      | cons u us => exact absurd rfl (h u (by rw [hlex]; rfl)).backslash
    rw [lex_eq_nil_iff.mp hs]
    rfl
  | whitespace => exact hsingle ht fun _ => rfl
  | _ => exact hsingle ht (by decide)

/-- **A tokenisation is found by the lexer.** -/
theorem Tokenized.lex_textOf (h : Tokenized ts) : lex (textOf ts) = ts := by
  induction ts with
  | nil => rfl
  | cons t ts ih =>
    obtain ⟨ht, hts⟩ := List.forall_mem_cons.mp h.formed
    obtain ⟨happart, hchain⟩ := List.isChain_cons.mp h.apart
    have hrest := ih ⟨hts, hchain⟩
    have hcons := lex_cons_of_apart (s := textOf ts) ht (by rwa [hrest])
    rwa [hrest] at hcons

/-! ## The tokens that are read -/

/-- A line feed at the start of the tokens is one at the start of the text. -/
theorem exists_of_head?_lex (h : (lex s).head? = some ⟨.newline, ['\n']⟩) : ∃ r, s = '\n' :: r := by
  obtain ⟨ts, hts⟩ := List.head?_eq_some_iff.mp h
  have htext := textOf_lex s
  rw [hts] at htext
  exact ⟨textOf ts, htext.symm⟩

/-- A token that waits for no line feed is apart from all that is no word. -/
theorem apart_of_not_awaitsFeed (hbackslash : t.kind ≠ .backslash)
    (hword : t.kind = .identifier → u.kind ≠ .identifier) (hfeed : ¬ t.AwaitsFeed) : Apart t u :=
  ⟨hbackslash, fun h => hword h.1 h.2, fun h => hfeed h.1⟩

/-- A token with a carriage return at its end is apart from what is behind it, if that is no line
feed. -/
theorem apart_of_ne_feed (hkind : t.kind ≠ .backslash ∧ t.kind ≠ .identifier)
    (hs : ∀ r, t.AwaitsFeed → s ≠ '\n' :: r) : ∀ u ∈ (lex s).head?, Apart t u := by
  refine fun u hu => ⟨hkind.1, fun h => hkind.2 h.1, ?_⟩
  rintro ⟨ht, rfl⟩
  obtain ⟨r, hr⟩ := exists_of_head?_lex hu
  exact hs r ht hr

/-- A word stays apart from the others when it gets one more character. -/
theorem isChain_consIdentifier (h : ts.IsChain Apart) : (consIdentifier c ts).IsChain Apart := by
  unfold consIdentifier
  split
  · next w ts =>
    obtain ⟨hfirst, hrest⟩ := List.isChain_cons.mp h
    refine List.isChain_cons.mpr ⟨fun u hu => ?_, hrest⟩
    exact apart_of_not_awaitsFeed nofun (fun _ hkind => (hfirst u hu).words ⟨rfl, hkind⟩)
      (by simp [AwaitsFeed])
  · next hnot =>
    refine List.isChain_cons.mpr ⟨fun u hu => ?_, h⟩
    refine apart_of_not_awaitsFeed nofun (fun _ hkind => ?_) (by simp [AwaitsFeed])
    obtain ⟨us, rfl⟩ := List.head?_eq_some_iff.mp hu
    obtain ⟨kind, w⟩ := u
    cases hkind
    exact hnot w us rfl

/-- **The tokens of a text are apart.** -/
theorem isChain_lex (s : Text) : (lex s).IsChain Apart := by
  fun_induction lex s with
  | case1 => exact .nil
  | case2 s ih =>
    refine List.isChain_cons.mpr ⟨apart_of_ne_feed (by decide) ?_, ih⟩
    simp [AwaitsFeed]
  | case3 => exact .singleton _
  | case4 s ih =>
    refine List.isChain_cons.mpr ⟨apart_of_ne_feed (by decide) ?_, ih⟩
    simp [AwaitsFeed]
  | case5 c s hbreak ih =>
    have hne : Kind.escape ≠ .backslash ∧ Kind.escape ≠ .identifier := by decide
    refine List.isChain_cons.mpr ⟨apart_of_ne_feed hne ?_, ih⟩
    rintro r hfeed rfl
    obtain rfl : c = '\r' := by simpa [AwaitsFeed] using hfeed
    exact hbreak r rfl rfl
  | case6 c s hbreak hlast hescape hbackslash kind hkind ih =>
    have hne : kind ≠ .backslash ∧ kind ≠ .identifier := by
      constructor <;> rintro rfl
      · exact single?_ne (.inl rfl) hkind
      · exact single?_ne_identifier hkind
    refine List.isChain_cons.mpr ⟨apart_of_ne_feed hne ?_, ih⟩
    rintro r hfeed rfl
    obtain ⟨-, rfl⟩ : kind = .whitespace ∧ c = '\r' := by simpa [AwaitsFeed] using hfeed
    exact hbreak r rfl rfl
  | case7 c s hbreak hlast hescape hbackslash hsingle ih => exact isChain_consIdentifier ih

theorem tokenized_lex (s : Text) : Tokenized (lex s) := ⟨formed_of_mem_lex s, isChain_lex s⟩

/-- **Tokens are those of their own text if and only if they are a tokenisation.** -/
theorem lex_textOf_iff : lex (textOf ts) = ts ↔ Tokenized ts :=
  ⟨fun h => h ▸ tokenized_lex (textOf ts), Tokenized.lex_textOf⟩

end Token

/-! ## What tokens are made of -/

namespace Token

variable {s : Text} {x : Char} {u : Token}

theorem mem_of_mem_lex (hu : u ∈ lex s) (hx : x ∈ u.text) : x ∈ s := by
  rw [← textOf_lex s]
  exact List.mem_flatMap.mpr ⟨u, hu, hx⟩

/-- The first token of a text is a blank, or denies that the line is a directive, only if its first
character is one that does. -/
theorem exists_of_mem_head?_lex (hu : u ∈ (lex s).head?) : ∃ x ∈ s.head?,
    (u.kind.isBlank = true → (kindOf x).isBlank = true) ∧
      (u.kind.deniesDirective = true → (kindOf x).deniesDirective = true) := by
  obtain ⟨us, hcons⟩ := List.head?_eq_some_iff.mp hu
  have hs := textOf_lex s
  rw [hcons] at hs
  have hformed := formed_of_mem_lex s u (by rw [hcons]; exact List.mem_cons_self)
  obtain ⟨kind, text⟩ := u
  have hsingle : (∃ c, single? c = some kind ∧ text = [c]) → ∃ x ∈ s.head?,
      (kind.isBlank = true → (kindOf x).isBlank = true) ∧
        (kind.deniesDirective = true → (kindOf x).deniesDirective = true) := by
    rintro ⟨c, hc, rfl⟩
    have hkind : kindOf c = kind := congrArg (·.getD Kind.identifier) hc
    exact ⟨c, by rw [← hs]; rfl, by rw [hkind]; exact id, by rw [hkind]; exact id⟩
  cases kind with
  | identifier | newline | escape | backslash =>
    obtain ⟨x, w, hw⟩ := List.exists_cons_of_ne_nil hformed.text_ne_nil
    obtain rfl : text = x :: w := hw
    exact ⟨x, by rw [← hs]; rfl, nofun, nofun⟩
  | _ => exact hsingle hformed

/-- A keyword is a word. -/
theorem lex_keyword (keyword : Keyword) (hs : ∀ u ∈ (lex s).head?, u.kind ≠ .identifier) :
    lex (keyword.text ++ s) = ⟨.identifier, keyword.text⟩ :: lex s := by
  have hletters : keyword.text.all (fun x => (single? x).isNone && x != '\\') = true := by
    cases keyword <;> decide
  refine lex_letters (by cases keyword <;> decide) (fun x hx => ?_) hs
  simpa [IsLetter] using List.all_eq_true.mp hletters x hx

end Token

/-! ## Where tokens stand -/

namespace Cursor

open Text (byteSize)
open Token (lex textOf)

variable {source : Text} {n : Nat} {t : Token}

/-- A keyword starts a directive, if nothing behind it denies that. -/
theorem keyword?_of_rest {c : Cursor} {keyword : Keyword} {us : List Token}
    (hc : c.rest = ⟨.identifier, keyword.text⟩ :: us)
    (hdenies : ∀ u ∈ (us.dropWhile fun u => u.kind.isBlank).head?, u.kind.deniesDirective = false) :
    c.keyword? = some keyword := by
  unfold keyword?
  rw [hc]
  dsimp only
  rw [Keyword.ofText?_text]
  split
  · next u hu =>
    rw [hdenies u hu]
    rfl
  · rfl

/-- The position of a token is the size of all tokens before it. -/
theorem offset_advance_start (source : Text) (n : Nat) :
    ((start source).advance n).offset = byteSize (textOf ((lex source).take n)) := by
  unfold offset
  split
  · next hnil =>
    have hle : (lex source).length ≤ n := List.drop_eq_nil_iff.mp (List.isEmpty_iff.mp hnil)
    rw [List.take_of_length_le hle, Token.textOf_lex]
    rfl
  · exact Nat.zero_add _

/-- **The tokens tile the text**: each stands where the one before it ends. -/
theorem slice?_token (h : (lex source)[n]? = some t) :
    ((start source).advance (n + 1)).offset = ((start source).advance n).offset + byteSize t.text ∧
      Text.slice? ⟨((start source).advance n).offset, ((start source).advance (n + 1)).offset⟩
        source = some t.text := by
  obtain ⟨hlt, ht⟩ := List.getElem?_eq_some_iff.mp h
  have htake : textOf ((lex source).take (n + 1)) = textOf ((lex source).take n) ++ t.text := by
    rw [List.take_add_one, h, Token.textOf_append]
    exact congrArg (_ ++ ·) (List.append_nil t.text)
  have hsource : textOf ((lex source).take n) ++ t.text ++ textOf ((lex source).drop (n + 1)) =
      source := by
    rw [← htake, ← Token.textOf_append, List.take_append_drop, Token.textOf_lex]
  rw [offset_advance_start, offset_advance_start, htake]
  refine ⟨Text.byteSize_append _ _, ?_⟩
  have hslice := Text.slice?_append (textOf ((lex source).take n)) t.text
    (textOf ((lex source).drop (n + 1)))
  rwa [hsource] at hslice

end Cursor

namespace Token

/-- **A text has one tokenisation, and the lexer finds it.** No token is empty, all have the form of
their kind, a backslash by itself is the last of them, and they are the text: the first one stands
at its start, each other one where the one before it ends, and the last one ends with it. Any tokens
are those of the text that they make up, if and only if all have the form of their kind and each is
apart from the next: no word from a word, no backslash by itself in front of a token, and no
carriage return, escaped or not, in front of its line feed. -/
theorem lex_unique (source : Text) :
    (∀ t ∈ lex source, t.text ≠ [] ∧ t.Formed) ∧
    (∀ t ∈ (lex source).dropLast, t.kind ≠ .backslash) ∧
    textOf (lex source) = source ∧
    ((Cursor.start source).advance 0).offset = 0 ∧
    (∀ n t, (lex source)[n]? = some t →
      ((Cursor.start source).advance (n + 1)).offset =
          ((Cursor.start source).advance n).offset + Text.byteSize t.text ∧
        Text.slice? ⟨((Cursor.start source).advance n).offset,
          ((Cursor.start source).advance (n + 1)).offset⟩ source = some t.text) ∧
    ((Cursor.start source).advance (lex source).length).offset = Text.byteSize source ∧
    ∀ ts, lex source = ts ↔ textOf ts = source ∧ Tokenized ts := by
  refine ⟨fun t ht => ?_, ne_backslash_of_mem_dropLast source, textOf_lex source, ?_,
    fun n t ht => Cursor.slice?_token ht, ?_, fun ts => ⟨?_, ?_⟩⟩
  · have hformed := formed_of_mem_lex source t ht
    exact ⟨hformed.text_ne_nil, hformed⟩
  · rw [Cursor.offset_advance_start]
    rfl
  · rw [Cursor.offset_advance_start, List.take_length, textOf_lex]
  · rintro rfl
    exact ⟨textOf_lex source, tokenized_lex source⟩
  · rintro ⟨rfl, hts⟩
    exact lex_textOf_iff.mpr hts

theorem lex_unique_escapedBreak :
    (Token.mk .escape ['\\', '\r', '\n']).text ≠ [] ∧
      (Token.mk .escape ['\\', '\r', '\n']).Formed ∧
      Text.slice? ⟨1, 4⟩ ['a', '\\', '\r', '\n', '\\'] = some ['\\', '\r', '\n'] ∧
      lex ['a', '\\', '\r', '\n', '\\'] =
        [⟨.identifier, ['a']⟩, ⟨.escape, ['\\', '\r', '\n']⟩, ⟨.backslash, ['\\']⟩] ∧
      ¬ Tokenized [⟨.identifier, ['a']⟩, ⟨.escape, ['\\', '\r']⟩, ⟨.newline, ['\n']⟩,
        ⟨.backslash, ['\\']⟩] := by
  obtain ⟨hformed, -, -, -, htile, -, hunique⟩ := lex_unique ['a', '\\', '\r', '\n', '\\']
  have htoken := hformed ⟨.escape, ['\\', '\r', '\n']⟩ (by decide)
  have htokens : Tokenized
      [⟨.identifier, ['a']⟩, ⟨.escape, ['\\', '\r', '\n']⟩, ⟨.backslash, ['\\']⟩] :=
    { formed := by simp [Formed, IsLetter, single?]
      apart := .cons_cons ⟨nofun, nofun, nofun⟩ (.cons_cons ⟨nofun, nofun, nofun⟩ (.singleton _)) }
  refine ⟨htoken.1, htoken.2, (htile 1 ⟨.escape, ['\\', '\r', '\n']⟩ (by decide)).2,
    (hunique _).mpr ⟨rfl, htokens⟩, fun h => ?_⟩
  exact absurd ((hunique _).mpr ⟨rfl, h⟩) (by decide)

end Token

end MakeBlueprint.Makefile
