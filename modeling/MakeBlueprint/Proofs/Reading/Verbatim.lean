import MakeBlueprint.Proofs.Reading.Followed
import MakeBlueprint.Proofs.Reading.Spelled

/-!
# Phrases keep their text

From a phrase one can tell what it was read from: its dump is the text of the tokens, with a blank
for every escaped line break (`Token.unbroken`), and its references stand where the dollar signs are
(`Token.dollars`, `Body.positions`). Comments and escapes behind dollar signs are the exceptions
(`Token.Lossless`).

* `Cursor.Passes`: a reader goes past tokens, and that is all it does.
* `Token.dump_bare`: what a reference without brackets takes of the token behind its dollar sign.
* `Cursor.Keeps.literal`, `Cursor.Keeps.bracketed`, `Cursor.Keeps.bare`: one part of a phrase.
* `Cursor.ReadsBody.keeps`: **phrases without faults keep their text**, by induction on what is
  read.
-/

namespace MakeBlueprint.Makefile

open Text (byteSize)
open Token (textOf)
open Phrase (Body)

/-! ## What is kept -/

namespace Token

/-- The text of tokens, with a blank for every escaped line break. -/
def unbroken (ts : List Token) : Text :=
  ts.flatMap fun t => if t.kind = .escape ∧ t.escapesBreak then [' '] else t.text

/-- The positions of the dollar signs of references, in tokens that begin at a position. A dollar
sign behind another one is its name; `named` says that one is in front. -/
def dollars (named : Bool) (n : Nat) : List Token → List Nat
  | [] => []
  | t :: ts =>
    if t.kind = .dollar ∧ named = false then n :: dollars true (n + byteSize t.text) ts
    else dollars false (n + byteSize t.text) ts

end Token

/-- The positions of the references in a body and in their names, as they are written. -/
def Phrase.Body.positions : Body → List Nat
  | .nil => []
  | .char _ r => positions r
  | .ref name _ pos _ r => pos :: (positions name ++ positions r)

namespace Phrase.Body

variable {a b : Body}

@[simp] theorem positions_append : (a ++ b).positions = a.positions ++ b.positions := by
  induction a with
  | nil => rfl
  | char c r ih => exact ih
  | ref name m n d r _ ih => simp [positions, ih]

@[simp] theorem positions_ofText (t : Text) : (ofText t).positions = [] := by
  induction t with
  | nil => rfl
  | cons c t ih => exact ih

end Phrase.Body

namespace Token

variable {t u : Token} {ts us : List Token} {named : Bool} {n p : Nat}

theorem unbroken_cons (ts : List Token) (h : t.kind ≠ .escape) :
    unbroken (t :: ts) = t.text ++ unbroken ts := by
  unfold unbroken
  rw [List.flatMap_cons, if_neg fun hescape => h hescape.1]

@[simp] theorem unbroken_append (ts us : List Token) :
    unbroken (ts ++ us) = unbroken ts ++ unbroken us := List.flatMap_append

theorem unbroken_words (h : ∀ {t}, t ∈ ts → t.kind = .identifier) : unbroken ts = textOf ts := by
  induction ts with
  | nil => rfl
  | cons t ts ih =>
    have ht : t.kind ≠ .escape := by
      rw [h List.mem_cons_self]
      decide
    rw [unbroken_cons ts ht, ih fun hu => h (List.mem_cons_of_mem t hu)]
    rfl

theorem dollars_named (n : Nat) (ts : List Token) :
    dollars true n (t :: ts) = dollars false (n + byteSize t.text) ts := if_neg nofun

theorem dollars_cons (h : t.kind ≠ .dollar) (ts : List Token) :
    dollars named n (t :: ts) = dollars false (n + byteSize t.text) ts := if_neg fun hk => h hk.1

/-- Tokens can be cut in front of one that is no dollar sign. -/
theorem dollars_append (hus : ∀ u ∈ us.head?, u.kind ≠ .dollar) :
    dollars named n (ts ++ us) =
      dollars named n ts ++ dollars false (n + byteSize (textOf ts)) us := by
  induction ts generalizing named n with
  | nil =>
    cases us with
    | nil => rfl
    | cons u us =>
      have hu := hus u rfl
      rw [List.nil_append, dollars_cons hu, dollars, List.nil_append, dollars_cons hu]
      rfl
  | cons t ts ih =>
    have hsize : n + byteSize (textOf (t :: ts)) = n + byteSize t.text + byteSize (textOf ts) := by
      rw [Nat.add_assoc, ← Text.byteSize_append]
      rfl
    rw [List.cons_append, dollars, dollars, hsize]
    split
    · rw [ih, List.cons_append]
    · rw [ih]

theorem dollars_append_of_ne (hts : ∀ t ∈ ts, t.kind ≠ .dollar) :
    dollars false n (ts ++ us) = dollars false (n + byteSize (textOf ts)) us := by
  induction ts generalizing n with
  | nil => rfl
  | cons t ts ih =>
    obtain ⟨ht, hts⟩ := List.forall_mem_cons.mp hts
    rw [List.cons_append, dollars_cons ht, ih hts, Nat.add_assoc, ← Text.byteSize_append]
    rfl

/-- There is a dollar sign at each of the positions. -/
theorem exists_of_mem_dollars (hp : p ∈ dollars named n ts) :
    ∃ us t vs, ts = us ++ t :: vs ∧ t.kind = .dollar ∧ p = n + byteSize (textOf us) := by
  induction ts generalizing named n with
  | nil => cases hp
  | cons t ts ih =>
    have hbehind : ∀ {named : Bool}, p ∈ dollars named (n + byteSize t.text) ts →
        ∃ us v vs, t :: ts = us ++ v :: vs ∧ v.kind = .dollar ∧ p = n + byteSize (textOf us) := by
      intro named hmem
      obtain ⟨us, v, vs, rfl, hv, rfl⟩ := ih hmem
      refine ⟨t :: us, v, vs, rfl, hv, ?_⟩
      rw [Nat.add_assoc, ← Text.byteSize_append]
      rfl
    rw [dollars] at hp
    split at hp
    · next hdollar =>
      rcases List.mem_cons.mp hp with rfl | hp
      · exact ⟨[], t, ts, rfl, hdollar.1, rfl⟩
      · exact hbehind hp
    · exact hbehind hp

/-! ## Tokens that are kept -/

/-- **Tokens that phrases keep**: no comment begins in them, and no escape is behind a dollar
sign. -/
structure Lossless (ts : List Token) : Prop where
  formed : ∀ t ∈ ts, t.Formed
  hash : '#' ∉ textOf ts
  escape : ¬ ['$', '\\'] <:+: textOf ts

theorem lossless_lex {source : Text} (hhash : '#' ∉ source) (hescape : ¬ ['$', '\\'] <:+: source) :
    Lossless (lex source) where
  formed := formed_of_mem_lex source
  hash := by rwa [textOf_lex]
  escape := by rwa [textOf_lex]

theorem Lossless.suffix (h : Lossless (ts ++ us)) : Lossless us := by
  have hsuffix : textOf us <:+ textOf (ts ++ us) := ⟨textOf ts, (textOf_append ts us).symm⟩
  exact ⟨fun t ht => h.formed t (List.mem_append_right _ ht),
    fun hmem => h.hash (hsuffix.subset hmem),
    fun hpart => h.escape (hpart.trans hsuffix.isInfix)⟩

/-- A token of a kind with one character. -/
theorem Formed.eq_of_char? {kind : Kind} {x : Char} (h : t.Formed) (hkind : t.kind = kind)
    (hx : kind.char? = some x) (hnewline : kind ≠ .newline) : t = ⟨kind, [x]⟩ := by
  obtain ⟨kind', text⟩ := t
  obtain rfl : kind' = kind := hkind
  have hsingle : ∃ c, single? c = some kind' ∧ text = [c] := by
    cases kind' with
    | newline => exact absurd rfl hnewline
    | whitespace | backslash | escape | identifier => cases hx
    | _ => exact h
  obtain ⟨c, hc, rfl⟩ := hsingle
  rw [eq_of_kindOf (congrArg (·.getD Kind.identifier) hc) hx]

theorem Lossless.ne_hash (h : Lossless (t :: ts)) : t.kind ≠ .hash := by
  intro hkind
  obtain rfl := (h.formed t List.mem_cons_self).eq_of_char? hkind rfl nofun
  exact h.hash List.mem_cons_self

/-- No escape is the name of a reference. -/
theorem Lossless.ne_escape (h : Lossless (⟨.dollar, ['$']⟩ :: t :: ts)) :
    t.kind ≠ .escape ∧ t.kind ≠ .backslash := by
  have hformed := h.formed t (List.mem_cons_of_mem _ List.mem_cons_self)
  have hfalse : ∀ w, t.text = '\\' :: w → False := fun w hw => by
    refine h.escape ⟨[], w ++ textOf ts, ?_⟩
    have htext : textOf (⟨.dollar, ['$']⟩ :: t :: ts) = '$' :: (t.text ++ textOf ts) := rfl
    rw [htext, hw]
    rfl
  obtain ⟨kind, text⟩ := t
  constructor
  · rintro rfl
    rcases hformed with rfl | ⟨c, rfl⟩
    · exact hfalse _ rfl
    · exact hfalse _ rfl
  · rintro rfl
    obtain rfl : text = ['\\'] := hformed
    exact hfalse _ rfl

/-- What a reference leaves of a word is a word. -/
theorem identifier_of_mem_bareSplit (hu : u ∈ t.bareSplit.2) : u.kind = .identifier := by
  unfold bareSplit at hu
  split at hu
  · cases hu
  · rw [List.mem_singleton.mp hu]
  · cases hu

/-- **A reference without brackets takes what is not left**, and its dump is what it takes. -/
theorem dump_bare (h : t.Formed) (hkind : t.kind ≠ .newline)
    (hescape : t.kind ≠ .escape ∧ t.kind ≠ .backslash) (m n : Nat) (r : Body) :
    ∃ w, t.text = w ++ textOf t.bareSplit.2 ∧
      (Body.ref (.ofText t.bareSplit.1) m n .bare r).dump = '$' :: w ++ r.dump := by
  obtain ⟨kind, text⟩ := t
  cases kind with
  | newline => exact absurd rfl hkind
  | escape => exact absurd rfl hescape.1
  | backslash => exact absurd rfl hescape.2
  | dollar =>
    obtain rfl : text = ['$'] := congrArg Token.text (h.eq_of_char? rfl rfl nofun)
    exact ⟨['$'], rfl, rfl⟩
  | identifier =>
    match text, h with
    | [], h => exact absurd rfl h.1
    | [x], _ => exact ⟨[x], rfl, Phrase.Body.dump_bare m n r x⟩
    | x :: y :: w, _ =>
      refine ⟨[x], ?_, Phrase.Body.dump_bare m n r x⟩
      exact congrArg (x :: ·) (List.append_nil (y :: w)).symm
  | _ =>
    obtain ⟨x, -, rfl⟩ := h
    exact ⟨[x], rfl, Phrase.Body.dump_bare m n r x⟩

theorem Lossless.bareSplit (h : Lossless (t :: ts)) : Lossless (t.bareSplit.2 ++ ts) := by
  have hsuffix : textOf (t.bareSplit.2 ++ ts) <:+ textOf (t :: ts) := by
    obtain ⟨kind, text⟩ := t
    unfold Token.bareSplit
    split
    · exact ⟨text, rfl⟩
    · next x y w hkind htext =>
      obtain rfl : text = x :: y :: w := htext
      exact ⟨[x], rfl⟩
    · exact ⟨text, rfl⟩
  obtain ⟨ht, hts⟩ := List.forall_mem_cons.mp h.formed
  exact ⟨List.forall_mem_append.mpr ⟨ht.bareSplit, hts⟩, fun hmem => h.hash (hsuffix.subset hmem),
    fun hpart => h.escape (hpart.trans hsuffix.isInfix)⟩

end Token

/-! ## Going past tokens -/

namespace Cursor

variable {c d mid : Cursor} {place : Place} {depth : Nat} {body : Body} {t : Token}
  {ts us : List Token}

/-- **A reader goes past tokens**, and that is all it does. -/
structure Passes (c : Cursor) (ts : List Token) (d : Cursor) : Prop where
  rest : c.rest = ts ++ d.rest
  eq_past : d = c.past ts d.rest

namespace Passes

theorem refl (c : Cursor) : Passes c [] c := ⟨rfl, rfl⟩

theorem trans (h : Passes c ts mid) (h' : Passes mid us d) : Passes c (ts ++ us) d where
  rest := by rw [h.rest, h'.rest, List.append_assoc]
  eq_past :=
    calc d = mid.past us d.rest := h'.eq_past
      _ = (c.past ts mid.rest).past us d.rest := congrArg (·.past us d.rest) h.eq_past
      _ = c.past (ts ++ us) d.rest := past_past

theorem read (h : Passes c ts d) : d.read = c.read + byteSize (textOf ts) := by
  rw [h.eq_past]
  rfl

theorem statements (h : Passes c ts d) : d.statements = c.statements := by
  rw [h.eq_past]
  rfl

theorem comments (h : Passes c ts d) : d.comments = c.comments := by
  rw [h.eq_past]
  rfl

theorem lossless (h : Passes c ts d) (hc : Token.Lossless c.rest) : Token.Lossless d.rest := by
  rw [h.rest] at hc
  exact hc.suffix

end Passes

theorem passes_past (h : c.rest = ts ++ us) : Passes c ts (c.past ts us) := ⟨h, rfl⟩

theorem passes_advance_one (h : c.rest = t :: us) : Passes c [t] (c.advance 1) :=
  advance_eq_past [t] h ▸ passes_past h

theorem passes_advance (c : Cursor) (n : Nat) : Passes c (c.rest.take n) (c.advance n) :=
  ⟨(List.take_append_drop n c.rest).symm, rfl⟩

/-! ## Phrases -/

/-- **A phrase keeps its text.** It ends in front of a token that ends it in its place, and its body
tells the tokens up to there. -/
structure Keeps (place : Place) (c : Cursor) (body : Body) (d : Cursor) : Prop where
  stops : ∀ u ∈ d.rest.head?, place.ends u.kind = true ∨ u.kind = .newline
  exists_tokens : ∃ ts, Passes c ts d ∧ Token.unbroken ts = body.dump ∧
    Token.dollars false c.read ts = body.positions

/-- No phrase ends in front of a dollar sign or inside of a word. -/
theorem Keeps.head_ne (h : Keeps place c body d) :
    ∀ u ∈ d.rest.head?, u.kind ≠ .dollar ∧ u.kind ≠ .identifier := by
  intro u hu
  have hstop := h.stops u hu
  constructor <;> intro hkind <;> rw [hkind] at hstop
  · rw [place.ends_dollar] at hstop
    simp at hstop
  · cases place with
    | name b => cases b <;> simp [Place.ends, Bracket.closing] at hstop
    | head | prerequisites | line => simp [Place.ends] at hstop

/-- A token of a phrase is kept, unless it escapes a line break. -/
theorem unbroken_of_takes {text : Text} {depth' : Nat} (h : place.Takes depth t text depth')
    (ts : List Token) :
    Token.unbroken (t :: ts) = text ++ Token.unbroken ts ∧ t.kind ≠ .dollar := by
  cases h with
  | closing hdepth hcloses =>
    have hkind : ∃ b : Bracket, t.kind = b.closing := by
      cases place with
      | name b => exact ⟨b, by simpa [Place.closes] using hcloses⟩
      | head | prerequisites | line => cases hcloses
    obtain ⟨b, hb⟩ := hkind
    have hne : t.kind ≠ .escape ∧ t.kind ≠ .dollar := by
      rw [hb]
      cases b <;> decide
    exact ⟨Token.unbroken_cons ts hne.1, hne.2⟩
  | escape hends hkind =>
    refine ⟨?_, by simp [hkind]⟩
    simp only [Token.unbroken, List.flatMap_cons, hkind, true_and]
  | literal hends hkind =>
    have hne : t.kind ≠ .escape ∧ t.kind ≠ .dollar := by
      constructor <;> intro hk <;> rw [hk] at hkind <;> cases hkind
    exact ⟨Token.unbroken_cons ts hne.1, hne.2⟩

/-- A reference without brackets has a name, or there is a fault. -/
theorem exists_token_of_bareName {n : Nat} (h : (c.bareName n).2.2.faults = []) :
    ∃ t us, c.rest = t :: us ∧ t.kind ≠ .newline := by
  unfold bareName at h
  split at h
  · exact absurd h (faults_report_ne_nil _ _ _)
  · next t us hrest =>
    refine ⟨t, us, hrest, fun hkind => ?_⟩
    simp only [hkind] at h
    exact absurd h (faults_report_ne_nil _ _ _)

theorem exists_of_closeReference {b : Bracket} {name : Body}
    (h : (c.closeReference b name).faults = []) (hc : Token.Lossless c.rest) :
    ∃ us, c.rest = ⟨b.closing, [b.closingChar]⟩ :: us := by
  unfold closeReference at h
  split at h
  · next hclosing =>
    obtain ⟨t, us, hrest, hkind⟩ := exists_of_kindAt hclosing
    refine ⟨us, ?_⟩
    rw [hrest, (hc.formed t (hrest ▸ List.mem_cons_self)).eq_of_char? hkind (Token.char?_closing b)
      (by cases b <;> nofun)]
  · exact absurd h (faults_report_ne_nil _ _ _)

theorem passes_closeReference {b : Bracket} {name : Body}
    (hc : c.rest = ⟨b.closing, [b.closingChar]⟩ :: us) :
    Passes c [⟨b.closing, [b.closingChar]⟩] (c.closeReference b name) :=
  closeReference_past hc ▸ passes_past hc

theorem exists_tokens_of_opening {b : Bracket} (hnext : c.kindAt 0 = some .dollar)
    (hopen : Bracket.ofOpening? (c.kindAt 1) = some b) (hc : Token.Lossless c.rest) :
    ∃ us, c.rest = [⟨.dollar, ['$']⟩, ⟨b.opening, [b.openingChar]⟩] ++ us := by
  obtain ⟨t, ts, hrest, hkind⟩ := exists_of_kindAt hnext
  have hformed := hc.formed
  rw [hrest] at hformed
  obtain ⟨ht, hts⟩ := List.forall_mem_cons.mp hformed
  unfold kindAt at hopen
  cases ts with
  | nil =>
    rw [hrest] at hopen
    cases hopen
  | cons u us =>
    rw [hrest] at hopen
    have hu : u.kind = b.opening := by
      simp only [List.getElem?_cons_succ, List.getElem?_cons_zero, Option.map_some] at hopen
      unfold Bracket.ofOpening? at hopen
      split at hopen <;> cases hopen <;> simp_all [Bracket.opening]
    refine ⟨us, ?_⟩
    rw [hrest, ht.eq_of_char? hkind rfl nofun,
      (hts u List.mem_cons_self).eq_of_char? hu (Token.char?_opening b) (by cases b <;> nofun)]
    rfl

/-- Words at the beginning of tokens are cut off with tokens that no word is behind. -/
theorem exists_append_of_words {ws vs rest : List Token}
    (hvs : ∀ {v}, v ∈ vs → v.kind = .identifier) (h : vs ++ us = ws ++ rest)
    (hrest : ∀ u ∈ rest.head?, u.kind ≠ .identifier) :
    ∃ ts, ws = vs ++ ts ∧ us = ts ++ rest := by
  rcases List.append_eq_append_iff.mp h with ⟨as, rfl, rfl⟩ | ⟨as, rfl, rfl⟩
  · exact ⟨as, rfl, rfl⟩
  · cases as with
    | nil => exact ⟨[], by simp, rfl⟩
    | cons v as => exact absurd (hvs (by simp)) (hrest v rfl)

/-! ## Phrases, part by part -/

namespace Keeps

theorem literal {depth' : Nat} {text : Text} (hcons : c.rest = t :: us)
    (htake : place.Takes depth t text depth') (h : Keeps place (c.advance 1) body d) :
    Keeps place c (.ofText text ++ body) d := by
  have hpass := passes_advance_one hcons
  obtain ⟨hstops, ts, hts, htext, hdollars⟩ := h
  obtain ⟨hunbroken, hne⟩ := unbroken_of_takes htake ts
  refine ⟨hstops, t :: ts, hpass.trans hts, ?_, ?_⟩
  · rw [hunbroken, htext, Body.dump_append, Body.dump_ofText]
  · rw [hpass.read, textOf, List.flatMap_singleton] at hdollars
    rw [Token.dollars_cons hne, hdollars, Body.positions_append, Body.positions_ofText,
      List.nil_append]

/-- A reference in brackets keeps its name, and what is behind it. -/
theorem bracketed {b : Bracket} {name : Body} {atClose : Cursor} {vs : List Token} {m : Nat}
    (hcons : c.rest = [⟨.dollar, ['$']⟩, ⟨b.opening, [b.openingChar]⟩] ++ us)
    (hname : Keeps (.name b) (c.advance 2) name atClose)
    (hvs : atClose.rest = ⟨b.closing, [b.closingChar]⟩ :: vs)
    (h : Keeps place (atClose.closeReference b name) body d) :
    Keeps place c (.ref name m c.read b.delimiter body) d := by
  have hopened : Passes c [⟨.dollar, ['$']⟩, ⟨b.opening, [b.openingChar]⟩] (c.advance 2) :=
    advance_eq_past [⟨.dollar, ['$']⟩, ⟨b.opening, [b.openingChar]⟩] hcons ▸ passes_past hcons
  have hclose := @passes_closeReference _ _ b name hvs
  obtain ⟨-, ts, hts, htext, hdollars⟩ := hname
  obtain ⟨hstops, ws, hws, htext', hdollars'⟩ := h
  have hkinds : (b.opening ≠ .escape ∧ b.opening ≠ .dollar) ∧
      b.closing ≠ .escape ∧ b.closing ≠ .dollar := by cases b <;> decide
  refine ⟨hstops, _, (hopened.trans hts).trans (hclose.trans hws), ?_, ?_⟩
  · rw [Token.unbroken_append, Token.unbroken_append, Token.unbroken_append, htext, htext',
      Body.dump_bracketed, Token.unbroken_cons _ (by simp), Token.unbroken_cons _ hkinds.1.1,
      Token.unbroken_cons _ hkinds.2.1]
    simp [Token.unbroken]
  · rw [hclose.read, hts.read, hopened.read] at hdollars'
    rw [hopened.read] at hdollars
    rw [Body.positions, ← hdollars, ← hdollars', List.append_assoc, List.cons_append,
      List.cons_append, List.nil_append, Token.dollars, if_pos ⟨rfl, rfl⟩, Token.dollars_named,
      Token.dollars_append (by rintro u ⟨⟩; exact hkinds.2.2), List.cons_append, List.nil_append,
      Token.dollars_cons hkinds.2.2]
    simp [textOf, byteSize, Nat.add_assoc]

/-- A reference without brackets keeps the token behind its dollar sign: what it takes of the token
is its name, and the rest is in front of the phrase that goes on. -/
theorem bare {n : Nat} (hcons : c.rest = ⟨.dollar, ['$']⟩ :: t :: us)
    (hkind : t.kind ≠ .newline) (hc : Token.Lossless c.rest)
    (h : Keeps place ((c.advance 1).bareName n).2.2 body d) :
    Keeps place c (.ref (.ofText ((c.advance 1).bareName n).1) ((c.advance 1).bareName n).2.1
      c.read .bare body) d := by
  have hdollar := passes_advance_one hcons
  have hbehind := hdollar.lossless hc
  have hnext : (c.advance 1).rest = t :: us := (List.cons.inj (hdollar.rest.symm.trans hcons)).2
  rw [hcons] at hc
  rw [hnext] at hbehind
  obtain ⟨pos, e, hname, he, hpast⟩ := exists_bareName n hnext hkind
  rw [hname] at h ⊢
  have hhead := h.head_ne
  obtain ⟨hstops, ws, hws, htext, hdollars⟩ := h
  obtain ⟨ts, rfl, rfl⟩ := exists_append_of_words Token.identifier_of_mem_bareSplit
    (he.symm.trans hws.rest) fun u hu => (hhead u hu).2
  have hread :
      e.read + byteSize (textOf t.bareSplit.2) = (c.advance 1).read + byteSize t.text := by
    have hread := congrArg Cursor.read (hpast [] [])
    rwa [List.append_nil, Cursor.past, Cursor.past, textOf, textOf, List.flatMap_singleton]
      at hread
  obtain ⟨ht, -⟩ := List.forall_mem_cons.mp hbehind.formed
  obtain ⟨w, hw, hdump⟩ := Token.dump_bare ht hkind hc.ne_escape pos c.read body
  refine ⟨hstops, ⟨.dollar, ['$']⟩ :: t :: ts, ⟨by rw [hcons]; rfl, ?_⟩, ?_, ?_⟩
  · have hend := hws.eq_past
    rw [hpast, hdollar.eq_past, past_past] at hend
    exact hend
  · rw [hdump, ← htext, Token.unbroken_cons _ (by simp), Token.unbroken_cons _ hc.ne_escape.1,
      Token.unbroken_append, Token.unbroken_words Token.identifier_of_mem_bareSplit, hw]
    simp
  · rw [Token.dollars_append_of_ne fun u hu => by
      simp [Token.identifier_of_mem_bareSplit hu], hread] at hdollars
    rw [Token.dollars, if_pos ⟨rfl, rfl⟩, Token.dollars_named, Body.positions,
      Body.positions_ofText, List.nil_append, ← hdollars, hdollar.read]
    simp [textOf]

end Keeps

/-- **A phrase without faults keeps its text.** -/
theorem ReadsBody.keeps (h : ReadsBody place depth c body d) (hc : Token.Lossless c.rest)
    (hd : d.faults = []) : Keeps place c body d := by
  induction h with
  | @finish place depth c hstop =>
    refine ⟨fun u hu => ?_, [], .refl c, rfl, rfl⟩
    obtain ⟨us, hrest⟩ := List.head?_eq_some_iff.mp hu
    exact (hstop u.kind (kindAt_of_rest hrest)).2
  | literal hnext htake hrest ih =>
    obtain ⟨us, hcons⟩ := List.head?_eq_some_iff.mp hnext
    exact .literal hcons htake (ih ((passes_advance_one hcons).lossless hc) hd)
  | backslash hnext => exact absurd ((ahead_advance _ 1).faults_nil hd) (faults_report_ne_nil _ _ _)
  | @comment place depth c hnext hends =>
    obtain ⟨t, us, hcons, hkind⟩ := exists_of_kindAt hnext
    rw [hcons] at hc
    exact absurd hkind hc.ne_hash
  | @bracketed place depth c atClose d b name body hnext hopen hname hrest ihname ih =>
    obtain ⟨us, hcons⟩ := exists_tokens_of_opening hnext hopen hc
    have hclosed := hrest.ahead.faults_nil hd
    have hinside := ihname ((passes_advance c 2).lossless hc)
      ((ahead_closeReference b name atClose).faults_nil hclosed)
    obtain ⟨ts, hts, -⟩ := hinside.exists_tokens
    have hlossless := hts.lossless ((passes_advance c 2).lossless hc)
    obtain ⟨vs, hvs⟩ := exists_of_closeReference hclosed hlossless
    have hclose := @passes_closeReference _ _ b name hvs
    rw [offset_of_kindAt hnext]
    exact .bracketed hcons hinside hvs (ih (hclose.lossless hlossless) hd)
  | @bare place depth c d body hnext hopen hrest ih =>
    obtain ⟨t₀, us₀, hcons₀, hkind₀⟩ := exists_of_kindAt hnext
    have ht₀ := hc.formed t₀ (hcons₀ ▸ List.mem_cons_self)
    obtain rfl := ht₀.eq_of_char? hkind₀ rfl (by decide)
    have hdollar := passes_advance_one hcons₀
    obtain ⟨t, us, hcons, hkind⟩ := exists_token_of_bareName (hrest.ahead.faults_nil hd)
    obtain ⟨pos, e, hname, he, -⟩ := exists_bareName c.offset hcons hkind
    have hbehind := hdollar.lossless hc
    rw [hcons] at hbehind
    rw [offset_of_kindAt hnext] at hname ih ⊢
    refine .bare (by rw [hdollar.rest, hcons]; rfl) hkind hc (ih ?_ hd)
    rw [hname, he]
    exact hbehind.bareSplit

end Cursor

end MakeBlueprint.Makefile
