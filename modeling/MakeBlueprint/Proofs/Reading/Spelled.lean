import MakeBlueprint.Makefile.Phrase.Split
import MakeBlueprint.Proofs.Reading.Fits
import MakeBlueprint.Proofs.Reading.Positions
import MakeBlueprint.Proofs.Reading.Trimming

/-!
# Tokens that spell a phrase

A phrase ends at a token that ends it in its place, and the same text may be longer in one place
than in another. `Spells` says which tokens make up a phrase from the first to the last: all of its
references are closed, and no token in it ends it. It says so of tokens, so that names of references
may hold escapes.

* `Token.lex_append_of_head`: a text can be cut in front of a character that is a token.
* `Cursor.reads_of_spells`: tokens that spell a phrase are read as it, up to positions and to a
  token that ends it.
* `Spells.append`: phrases can be joined.
* `Spells.elsewhere`: without marks outside of references, a phrase is the same at the start of a
  line, behind a target, and in a value.
-/

namespace MakeBlueprint.Makefile

open Token (lex kindOf textOf)
open Phrase (Body)

/-! ## Where texts can be cut -/

namespace Token

variable {s u : Text} {c : Char} {t : Token}

theorem mem_consIdentifier {ts : List Token} (ht : t ∈ ts) (hkind : t.kind ≠ .identifier) :
    t ∈ consIdentifier c ts := by
  unfold consIdentifier
  split
  · next w ts =>
    rcases List.mem_cons.mp ht with rfl | ht
    · exact absurd rfl hkind
    · exact List.mem_cons_of_mem _ ht
  · exact List.mem_cons_of_mem _ ht

/-- A word does not go on with a character that is a token. -/
theorem consIdentifier_lex (hu : ∀ x ∈ u.head?, kindOf x ≠ .identifier) :
    consIdentifier c (lex u) = ⟨.identifier, [c]⟩ :: lex u := by
  have hbackslash : kindOf '\\' = .identifier := rfl
  fun_cases lex u with
  | case1 => rfl
  | case2 => rfl
  | case3 => exact absurd hbackslash (hu _ rfl)
  | case4 => exact absurd hbackslash (hu _ rfl)
  | case5 => exact absurd hbackslash (hu _ rfl)
  | case6 x u hbreak hlast hescape hother kind hkind =>
    refine consIdentifier_of_ne fun h => ?_
    exact single?_ne_identifier (hkind.trans (congrArg some h))
  | case7 x u hbreak hlast hescape hother hsingle =>
    exact absurd (congrArg (·.getD Kind.identifier) hsingle) (hu x rfl)

/-- **A text can be cut in front of a character that is a token**, unless a backslash or a carriage
return goes on with it. -/
theorem lex_append_of_head (hs : ∀ t ∈ lex s, t.kind ≠ .backslash)
    (hu : ∀ x ∈ u.head?, kindOf x ≠ .identifier)
    (hbreak : u.head? = some '\n' → s.getLast? ≠ some '\r') : lex (s ++ u) = lex s ++ lex u := by
  -- What is in front of the rest of `s` does not matter.
  have htail : ∀ {v w : Text}, (u.head? = some '\n' → (v ++ w).getLast? ≠ some '\r') →
      u.head? = some '\n' → w.getLast? ≠ some '\r' := fun h hnewline hlast =>
    h hnewline (by rw [List.getLast?_append, hlast]; rfl)
  -- A carriage return stays apart from a line feed at the cut.
  have hreturn : ∀ {v w r : Text} {d : Char},
      (u.head? = some '\n' → (v ++ d :: w).getLast? ≠ some '\r') → d = '\r' →
      (∀ r, w ≠ '\n' :: r) → w ++ u ≠ '\n' :: r := by
    rintro v w r d h rfl hw heq
    cases w with
    | nil => exact h (by rw [List.nil_append] at heq; rw [heq]; rfl) List.getLast?_concat
    | cons x w => exact hw w (by rw [(List.cons.inj heq).1])
  fun_induction lex s with
  | case1 => rfl
  | case2 s ih =>
    change lex ('\r' :: '\n' :: (s ++ u)) = _
    rw [lex, ih (List.forall_mem_cons.mp hs).2 (htail (v := ['\r', '\n']) hbreak), List.cons_append]
  | case3 => exact absurd rfl (hs _ List.mem_cons_self)
  | case4 s ih =>
    change lex ('\\' :: '\r' :: '\n' :: (s ++ u)) = _
    rw [lex, ih (List.forall_mem_cons.mp hs).2 (htail (v := ['\\', '\r', '\n']) hbreak),
      List.cons_append]
  | case5 c s hescape ih =>
    change lex ('\\' :: c :: (s ++ u)) = _
    rw [lex, ih (List.forall_mem_cons.mp hs).2 (htail (v := ['\\', c]) hbreak), List.cons_append]
    exact fun r hc => hreturn (v := ['\\']) hbreak hc fun v hv => hescape v hc hv
  | case6 c s hfeed hlast hescape hbackslash kind hkind ih =>
    rw [List.cons_append, lex_cons (ne_backslash hlast hbackslash), hkind,
      ih (List.forall_mem_cons.mp hs).2 (htail (v := [c]) hbreak), List.cons_append]
    exact fun r hc => hreturn (v := []) hbreak hc fun v hv => hfeed v hc hv
  | case7 c s hfeed hlast hescape hbackslash hsingle ih =>
    have hrest := ih (fun t ht hkind => hs t (mem_consIdentifier ht (by simp [hkind])) hkind)
      (htail (v := [c]) hbreak)
    rw [List.cons_append, lex_cons (ne_backslash hlast hbackslash), hsingle, hrest]
    · dsimp only
      cases hlex : lex s with
      | nil =>
        rw [List.nil_append]
        exact consIdentifier_lex hu
      | cons t ts => exact consIdentifier_append (List.cons_ne_nil t ts)
    · exact fun r hc => hreturn (v := []) hbreak hc fun v hv => hfeed v hc hv

/-- Characters that are tokens, and no carriage return, can be read one by one. -/
theorem lex_append_singles {w : Text}
    (hw : ∀ x ∈ w, kindOf x ≠ .identifier ∧ x ≠ '\r') (u : Text) :
    lex (w ++ u) = lex w ++ lex u := by
  have hbackslash : kindOf '\\' = .identifier := rfl
  induction w with
  | nil => rfl
  | cons x w ih =>
    obtain ⟨⟨hx, hreturn⟩, hw⟩ := List.forall_mem_cons.mp hw
    have hne : x ≠ '\\' := fun h => hx (h ▸ hbackslash)
    rw [List.cons_append, lex_cons hne fun _ h => absurd h hreturn,
      lex_cons hne fun _ h => absurd h hreturn, single?_of_kindOf hx, ih hw]
    rfl

/-- What a reference without brackets takes of the token behind its dollar sign: its name, and what
is left of a word. -/
def bareSplit (t : Token) : Text × List Token :=
  match t.kind, t.text with
  | .dollar, _ => (dollarName, [])
  | .identifier, x :: y :: w => ([x], [⟨.identifier, y :: w⟩])
  | _, w => (w, [])

end Token

/-! ## Spelling -/

/-- **Tokens spell a phrase** in a place, with some brackets open before them and none behind
them. The positions of its references are arbitrary. -/
inductive Spells : Place → Nat → List Token → Body → Prop
  | nil {place : Place} : Spells place 0 [] .nil
  | token {place : Place} {depth mid : Nat} {t : Token} {ts : List Token} {text : Text}
      {body : Body} (htake : place.Takes depth t text mid) (hrest : Spells place mid ts body) :
      Spells place depth (t :: ts) (.ofText text ++ body)
  | bracketed {place : Place} {depth m n : Nat} {b : Bracket} {ts us : List Token}
      {name body : Body} (hname : Spells (.name b) 0 ts name) (hrest : Spells place depth us body) :
      Spells place depth
        (⟨.dollar, ['$']⟩ :: ⟨b.opening, [b.openingChar]⟩ ::
          (ts ++ ⟨b.closing, [b.closingChar]⟩ :: us))
        (.ref name m n b.delimiter body)
  | bare {place : Place} {depth m n : Nat} {t : Token} {ts : List Token} {body : Body}
      (hkind : t.kind ≠ .newline ∧ t.kind ≠ .backslash)
      (hopen : Bracket.ofOpening? (some t.kind) = none)
      (hrest : Spells place depth (t.bareSplit.2 ++ ts) body) :
      Spells place depth (⟨.dollar, ['$']⟩ :: t :: ts)
        (.ref (.ofText t.bareSplit.1) m n .bare body)

namespace Cursor

/-- The cursor behind tokens, in front of others. -/
def past (c : Cursor) (ts us : List Token) : Cursor :=
  { c with rest := us, read := c.read + Text.byteSize (textOf ts) }

variable {c : Cursor} {place : Place} {depth : Nat} {body : Body} {t : Token}
  {ts us vs ws : List Token}

theorem past_past : (c.past ts us).past vs ws = c.past (ts ++ vs) ws := by
  unfold past
  simp only [Token.textOf_append, Text.byteSize_append, Nat.add_assoc]

theorem past_nil (h : c.rest = us) : c.past [] us = c := by
  subst h
  rfl

theorem advance_eq_past (ts : List Token) (h : c.rest = ts ++ us) :
    c.advance ts.length = c.past ts us := by
  unfold advance past
  rw [h, List.drop_left, List.take_left]

/-- Skipping the tokens of a class in front of another token. -/
theorem skipWhile_past (ts : List Token) {p : Token.Kind → Bool} (hc : c.rest = ts ++ us)
    (hts : ∀ t ∈ ts, p t.kind = true) (hus : ∀ u ∈ us.head?, p u.kind = false) :
    c.skipWhile p = c.past ts us := by
  have htake : c.rest.takeWhile (fun t => p t.kind) = ts := by
    rw [hc, List.takeWhile_append_of_pos hts]
    cases us with
    | nil => simp
    | cons u us => simp [hus u rfl]
  rw [skipWhile, htake]
  exact advance_eq_past ts hc

/-- A bracket that closes a reference. -/
theorem closeReference_past {b : Bracket} {name : Body}
    (hc : c.rest = ⟨b.closing, [b.closingChar]⟩ :: us) :
    c.closeReference b name = c.past [⟨b.closing, [b.closingChar]⟩] us := by
  unfold closeReference
  rw [if_pos (kindAt_of_rest hc)]
  exact advance_eq_past [⟨b.closing, [b.closingChar]⟩] hc

/-- A reference without brackets takes a beginning of the token behind its dollar sign. -/
theorem exists_bareName (dollar : Nat) (hc : c.rest = t :: us) (hkind : t.kind ≠ .newline) :
    ∃ pos d, c.bareName dollar = (t.bareSplit.1, pos, d) ∧ d.rest = t.bareSplit.2 ++ us ∧
      ∀ ts vs, d.past (t.bareSplit.2 ++ ts) vs = c.past (t :: ts) vs := by
  have hone : c.advance 1 = c.past [t] us := advance_eq_past [t] hc
  obtain ⟨kind, text⟩ := t
  -- All of the token is taken, or the first character of a word.
  have hwhole : (Token.mk kind text).bareSplit.2 = [] → (c.past [⟨kind, text⟩] us).rest =
      (Token.mk kind text).bareSplit.2 ++ us ∧ ∀ ts vs, (c.past [⟨kind, text⟩] us).past
        ((Token.mk kind text).bareSplit.2 ++ ts) vs = c.past (⟨kind, text⟩ :: ts) vs := fun h => by
    rw [h]
    exact ⟨rfl, fun ts vs => past_past⟩
  unfold bareName
  rw [hc]
  dsimp only
  rw [hone]
  cases kind with
  | newline => exact absurd rfl hkind
  | identifier =>
    match text with
    | [] => exact ⟨_, _, rfl, hwhole rfl⟩
    | [x] => exact ⟨_, _, rfl, hwhole rfl⟩
    | x :: y :: w =>
      refine ⟨_, _, rfl, rfl, fun ts vs => ?_⟩
      simp [past, Token.bareSplit, textOf, Text.byteSize, Nat.add_assoc]
  | _ => exact ⟨_, _, rfl, hwhole rfl⟩

/-- **Tokens that spell a phrase are read as it**, up to a token that ends it. -/
theorem reads_of_spells (h : Spells place depth ts body) (hc : c.rest = ts ++ us)
    (hstop : ∀ u ∈ us.head?, place.Stops 0 u.kind) :
    ∃ body', ReadsBody place depth c body' (c.past ts us) ∧
      body'.mapPos (fun _ => 0) = body.mapPos (fun _ => 0) := by
  induction h generalizing c us with
  | @nil place =>
    have hnil : c.past [] us = c := past_nil hc
    refine ⟨.nil, ?_, rfl⟩
    rw [hnil]
    refine .finish fun kind hkind => ?_
    obtain ⟨u, us', hrest, rfl⟩ := exists_of_kindAt hkind
    exact hstop u (by rw [← List.nil_append us, ← hc, hrest]; rfl)
  | @token place depth mid t ts text body htake hrest ih =>
    have hone : c.advance 1 = c.past [t] (ts ++ us) := advance_eq_past [t] hc
    obtain ⟨body', hread, hsame⟩ := ih (congrArg Cursor.rest hone) hstop
    rw [hone, past_past, ← hone] at hread
    exact ⟨_, .literal (by rw [hc]; rfl) htake hread, by simp [hsame]⟩
  | @bracketed place depth m n b ts vs name body hname hrest ihname ih =>
    have htwo : c.advance 2 = c.past [⟨.dollar, ['$']⟩, ⟨b.opening, [b.openingChar]⟩]
        (ts ++ ⟨b.closing, [b.closingChar]⟩ :: (vs ++ us)) :=
      advance_eq_past [⟨.dollar, ['$']⟩, ⟨b.opening, [b.openingChar]⟩] (by rw [hc]; simp)
    have hopen : Bracket.ofOpening? (c.kindAt 1) = some b := by
      unfold kindAt
      rw [hc]
      cases b <;> rfl
    obtain ⟨name', hreadName, hsameName⟩ := ihname (congrArg Cursor.rest htwo) (by
      rintro u ⟨⟩
      exact Place.stops_zero (Or.inl (by cases b <;> rfl)))
    have hclose := @closeReference_past ((c.advance 2).past ts _) (vs ++ us) b name' rfl
    obtain ⟨body', hread, hsame⟩ := ih (congrArg Cursor.rest hclose) hstop
    have hend : (((c.advance 2).past ts (⟨b.closing, [b.closingChar]⟩ :: (vs ++ us))).closeReference
        b name').past vs us = c.past (⟨.dollar, ['$']⟩ :: ⟨b.opening, [b.openingChar]⟩ ::
          (ts ++ ⟨b.closing, [b.closingChar]⟩ :: vs)) us := by
      rw [hclose, htwo, past_past, past_past, past_past]
      simp
    rw [hend] at hread
    exact ⟨_, .bracketed (kindAt_of_rest hc) hopen hreadName hread,
      by simp only [Body.mapPos, hsameName, hsame]⟩
  | @bare place depth m n t ts body hkind hopen hrest ih =>
    have hone : c.advance 1 = c.past [⟨.dollar, ['$']⟩] (t :: (ts ++ us)) :=
      advance_eq_past [⟨.dollar, ['$']⟩] hc
    obtain ⟨pos, d, hname, hd, hpast⟩ :=
      exists_bareName c.offset (congrArg Cursor.rest hone) hkind.1
    obtain ⟨body', hread, hsame⟩ := ih (by rw [hd, List.append_assoc]) hstop
    rw [hpast, hone, past_past] at hread
    have hbare := @ReadsBody.bare place depth c (c.past (⟨.dollar, ['$']⟩ :: t :: ts) us) body'
      (kindAt_of_rest hc) (by unfold kindAt; rw [hc]; exact hopen) (by rw [hname]; exact hread)
    rw [hname] at hbare
    exact ⟨_, hbare, by simp only [Body.mapPos, Body.mapPos_ofText, hsame]⟩

end Cursor

/-! ## Phrases made of phrases -/

namespace Spells

variable {place : Place} {depth : Nat} {a b body : Body} {ts us : List Token} {w : Text}

/-- Phrases can be joined. -/
theorem append (ha : Spells place depth ts a) (hb : Spells place 0 us b) :
    Spells place depth (ts ++ us) (a ++ b) := by
  induction ha with
  | nil => exact hb
  | token htake hrest ih =>
    rw [Body.append_assoc]
    exact .token htake (ih hb)
  | @bracketed place depth m n b ts vs name body hname hrest ihname ih =>
    have hwhole := Spells.bracketed (m := m) (n := n) hname (ih hb)
    simpa using hwhole
  | bare hkind hopen hrest ih =>
    have hjoined := ih hb
    rw [List.append_assoc] at hjoined
    exact .bare hkind hopen hjoined

theorem ne_backslash (h : Spells place depth ts body) : ∀ t ∈ ts, t.kind ≠ .backslash := by
  induction h with
  | nil => simp
  | token htake hrest ih =>
    refine List.forall_mem_cons.mpr ⟨fun hkind => ?_, ih⟩
    cases htake with
    | closing hdepth hcloses =>
      have hends := Place.ends_of_closes hcloses
      rw [hkind, Place.ends_backslash] at hends
      cases hends
    | escape hends hescape =>
      rw [hkind] at hescape
      cases hescape
    | literal hends hliteral =>
      rw [hkind] at hliteral
      cases hliteral
  | @bracketed place depth m n b ts us name body hname hrest ihname ih =>
    have hbracket : b.opening ≠ .backslash ∧ b.closing ≠ .backslash := by cases b <;> decide
    simp only [List.mem_cons, List.mem_append]
    rintro t (rfl | rfl | ht | rfl | ht)
    · nofun
    · exact hbracket.1
    · exact ihname t ht
    · exact hbracket.2
    · exact ih t ht
  | bare hkind hopen hrest ih =>
    refine List.forall_mem_cons.mpr ⟨nofun, List.forall_mem_cons.mpr ⟨hkind.2, fun t ht => ?_⟩⟩
    exact ih t (List.mem_append_right _ ht)

/-- No operator begins a phrase behind a target. -/
theorem head_ne {t : Token} (h : Spells .prerequisites depth (t :: ts) body) :
    t.kind ≠ .equals ∧ t.kind ≠ .colon := by
  cases h with
  | token htake hrest =>
    constructor <;> intro hkind <;> cases htake <;> simp_all [Place.ends, Place.closes]
  | bracketed hname hrest => exact ⟨nofun, nofun⟩
  | bare hkind hopen hrest => exact ⟨nofun, nofun⟩

/-- Blanks are part of every phrase. -/
theorem blanks (place : Place) (hw : ∀ x ∈ w, Text.isBlank x = true) :
    Spells place 0 (lex w) (.ofText w) := by
  induction w with
  | nil => exact .nil
  | cons x w ih =>
    obtain ⟨hx, hw⟩ := List.forall_mem_cons.mp hw
    rw [Token.lex_cons_blank hx]
    exact .token (Place.takes_of_isBlank (Token.isBlank_blankKind x)) (ih hw)

end Spells

/-! ## Phrases in other places -/

namespace Phrase.Body

variable {p : Char → Bool} {a b : Body} {c : Char}

theorem separators_append : (a ++ b).separators p = a.separators p + b.separators p := by
  induction a with
  | nil => simp [separators]
  | char x r ih => simp [separators, ih, Nat.add_assoc]
  | ref name m n d r _ ih => simp [separators, ih]

theorem separators_ofText (t : Text) : (ofText t).separators p = t.countP p := by
  induction t with
  | nil => rfl
  | cons x t ih => rw [ofText, separators, ih, List.countP_cons, Nat.add_comm]

theorem separators_trimEnd (h : b.separators p = 0) : b.trimEnd.separators p = 0 := by
  obtain ⟨w, hw⟩ := b.exists_append_trimEnd
  rw [← hw, separators_append, Nat.add_eq_zero_iff] at h
  exact h.1

theorem endsWith_of_separators (h : b.separators p = 0) (hc : p c = true) :
    b.endsWith c = false := by
  induction b with
  | nil => rfl
  | char x r ih =>
    rw [separators, Nat.add_eq_zero_iff] at h
    cases r with
    | nil =>
      rw [endsWith, beq_eq_false_iff_ne]
      rintro rfl
      rw [if_pos hc] at h
      exact absurd h.1 Nat.one_ne_zero
    | char => exact ih h.2
    | ref => exact ih h.2
  | ref name m n d r _ ih => exact ih h

end Phrase.Body

/-- The characters that are part of an operator or end the name of a target. -/
def isMark (c : Char) : Bool := [':', '=', '?', '+', '#', ';', '\\', '\n'].contains c

/-- What is left of a word is a word. -/
theorem Token.Formed.bareSplit {t : Token} (h : t.Formed) : ∀ u ∈ t.bareSplit.2, u.Formed := by
  unfold Token.bareSplit
  split
  · simp
  · next x y w hkind htext =>
    obtain ⟨kind, text⟩ := t
    cases hkind
    cases htext
    exact List.forall_mem_singleton.mpr ⟨List.cons_ne_nil _ _, (List.forall_mem_cons.mp h.2).2⟩
  · simp

/-- A token that ends a phrase at the start of a line or behind a target, but not in a value, is a
mark. -/
theorem Token.Formed.exists_isMark {place : Place} {t : Token} (h : t.Formed)
    (hplace : place = .head ∨ place = .prerequisites) (hends : place.ends t.kind = true) :
    ∃ c ∈ t.text, isMark c = true := by
  obtain ⟨kind, text⟩ := t
  have hsingle : ∀ y, kind.char? = some y → (∃ c, single? c = some kind ∧ text = [c]) →
      isMark y = true → ∃ c ∈ text, isMark c = true := by
    rintro y hy ⟨c, hc, rfl⟩ hmark
    refine ⟨c, List.mem_cons_self, ?_⟩
    rwa [eq_of_kindOf (congrArg (·.getD Kind.identifier) hc) hy]
  cases kind with
  | equals => exact hsingle '=' rfl h rfl
  | colon => exact hsingle ':' rfl h rfl
  | question => exact hsingle '?' rfl h rfl
  | semicolon => exact hsingle ';' rfl h rfl
  | hash => exact hsingle '#' rfl h rfl
  | newline => exact ⟨'\n', by rcases h with rfl | rfl <;> simp, rfl⟩
  | _ => rcases hplace with rfl | rfl <;> cases hends

/-- **Without marks outside of references**, a phrase is the same at the start of a line, behind a
target, and in a value. -/
theorem Spells.elsewhere {place : Place} {depth : Nat} {ts : List Token} {body : Body}
    (h : Spells .line depth ts body) (hformed : ∀ t ∈ ts, t.Formed)
    (hfree : body.separators isMark = 0) (hplace : place = .head ∨ place = .prerequisites) :
    Spells place depth ts body := by
  generalize hline : Place.line = value at h
  induction h with
  | nil => exact .nil
  | @token _ depth mid t ts text body htake hrest ih =>
    subst hline
    obtain ⟨ht, hformed⟩ := List.forall_mem_cons.mp hformed
    rw [Body.separators_append, Body.separators_ofText, Nat.add_eq_zero_iff,
      List.countP_eq_zero] at hfree
    have hopens : place.opens t.kind = false := by rcases hplace with rfl | rfl <;> rfl
    have hends : place.ends t.kind = true → (∀ c ∈ t.text, isMark c ≠ true) → False :=
      fun hends hmark => by
        obtain ⟨c, hc, hc'⟩ := ht.exists_isMark hplace hends
        exact hmark c hc hc'
    refine .token ?_ (ih hformed hfree.2 rfl)
    cases htake with
    | closing hdepth hcloses => cases hcloses
    | escape _ hkind =>
      refine .escape ?_ hkind
      rw [hkind]
      rcases hplace with rfl | rfl <;> rfl
    | literal _ hkind =>
      have htake := @Place.Takes.literal place depth t
        (Bool.eq_false_iff.mpr fun h => hends h hfree.1) hkind
      rwa [hopens] at htake
  | bracketed hname hrest ihname ih =>
    subst hline
    refine .bracketed hname (ih (fun t ht => hformed t ?_) hfree rfl)
    simp [ht]
  | bare hkind hopen hrest ih =>
    subst hline
    obtain ⟨-, ht, hformed⟩ := (List.forall_mem_cons.mp hformed).imp_right List.forall_mem_cons.mp
    exact .bare hkind hopen (ih (List.forall_mem_append.mpr ⟨ht.bareSplit, hformed⟩) hfree rfl)

end MakeBlueprint.Makefile
