import MakeBlueprint.Proofs.Reading.Plain

/-!
# Phrases of plain texts

`Fits` says which phrases can be written in a place, character by character and reference by
reference, and `FitsPieces` which can be written as prerequisites.

* `Fits.append`, `Fits.cut`: phrases that fit can be joined and cut.
* `Fits.plain`, `FitsPieces.plain`: what fits is written in plain text.
* `FitsPieces.cut`, `FitsPieces.head_ne`: the first parts of prerequisites.
-/

namespace MakeBlueprint.Makefile

open Text (IsPlain)
open Token (lex kindOf)
open Phrase (Body)

/-- The opening bracket as it is written. -/
def Bracket.openingChar : Bracket → Char
  | .paren => '('
  | .brace => '\x7b'

namespace Phrase.Body

variable (m n : Nat) (r : Body)

theorem dump_bracketed (b : Bracket) (name : Body) :
    (Body.ref name m n b.delimiter r).dump =
      ['$', b.openingChar] ++ name.dump ++ [b.closingChar] ++ r.dump := by
  cases b <;> rfl

theorem dump_dollar : (Body.ref (.ofText dollarName) m n .bare r).dump = ['$', '$'] ++ r.dump := rfl

theorem dump_bare (x : Char) : (Body.ref (.ofText [x]) m n .bare r).dump = ['$', x] ++ r.dump := by
  have hlength : ¬ 1 = dollarName.length := by decide
  have hne : ¬ [x] = dollarName := fun h => hlength (congrArg List.length h)
  have hwrap : Delimiter.bare.wrap [x] = ['$', x] := congrArg ('$' :: ·) (if_neg hne)
  exact congrArg (· ++ r.dump) hwrap

theorem dump_eq_nil_iff {b : Body} : b.dump = [] ↔ b = .nil := by
  cases b with
  | nil => exact iff_of_true rfl rfl
  | char => exact iff_of_false (List.cons_ne_nil _ _) nofun
  | ref name m n d r =>
    refine iff_of_false (fun h => ?_) nofun
    cases d <;> cases h

end Phrase.Body

/-! ## Characters and their kinds -/

namespace Token

variable {x y : Char}

/-- The only character of a kind, if there is one. -/
def Kind.char? : Kind → Option Char
  | .tab => some '\t'
  | .newline => some '\n'
  | .dollar => some '$'
  | .leftParen => some '('
  | .rightParen => some ')'
  | .leftBrace => some '\x7b'
  | .rightBrace => some '\x7d'
  | .colon => some ':'
  | .equals => some '='
  | .plus => some '+'
  | .question => some '?'
  | .hash => some '#'
  | .semicolon => some ';'
  | .pipe => some '|'
  | .whitespace | .backslash | .escape | .identifier => none

/-- A character of such a kind is that character. -/
theorem eq_of_kindOf {kind : Kind} (h : kindOf x = kind) (hkind : kind.char? = some y) : x = y := by
  subst h
  unfold kindOf single? at hkind
  split at hkind <;> cases hkind <;> rfl

theorem char?_opening (b : Bracket) : b.opening.char? = some b.openingChar := by
  cases b <;> rfl

theorem char?_closing (b : Bracket) : b.closing.char? = some b.closingChar := by
  cases b <;> rfl

theorem kindOf_openingChar (b : Bracket) : kindOf b.openingChar = b.opening := by
  cases b <;> rfl

theorem kindOf_closingChar (b : Bracket) : kindOf b.closingChar = b.closing := by
  cases b <;> rfl

/-- The first token of a plain text is a character that is a token, or a word. -/
theorem head_lex_cases {s : Text} {t : Token} {ts : List Token} (hplain : IsPlain s)
    (h : lex s = t :: ts) :
    (∃ x u, s = x :: u ∧ kindOf x ≠ .identifier ∧ t = ⟨kindOf x, [x]⟩ ∧ ts = lex u) ∨
      (∃ w u, s = w ++ u ∧ (∀ x ∈ w, kindOf x = .identifier) ∧ t = ⟨.identifier, w⟩ ∧
        ts = lex u) := by
  cases s with
  | nil => cases h
  | cons x s =>
    by_cases hx : isLetter x = true
    · rw [lex_word hplain hx] at h
      cases h
      refine Or.inr ⟨_, _, (List.takeWhile_append_dropWhile).symm, fun y hy => ?_, rfl, rfl⟩
      simpa [isLetter] using List.mem_takeWhile_imp hy
    · have hsingle : kindOf x ≠ .identifier := by simpa [isLetter] using hx
      rw [lex_single hplain hsingle] at h
      cases h
      exact Or.inl ⟨x, s, rfl, hsingle, rfl, rfl⟩

end Token

namespace Place

theorem ends_identifier (place : Place) : place.ends .identifier = false := by
  cases place with
  | name b => cases b <;> rfl
  | head | prerequisites | line => rfl

theorem closes_identifier (place : Place) : place.closes .identifier = false := by
  cases place with
  | name b => cases b <;> rfl
  | head | prerequisites | line => rfl

theorem opens_identifier (place : Place) : place.opens .identifier = false := by
  cases place with
  | name b => cases b <;> rfl
  | head | prerequisites | line => rfl

/-- Words are part of every phrase. -/
theorem takes_word (place : Place) (depth : Nat) (w : Text) :
    place.Takes depth ⟨.identifier, w⟩ w depth := by
  have h : place.Takes depth ⟨.identifier, w⟩ w
      (if place.opens .identifier then depth + 1 else depth) :=
    .literal place.ends_identifier rfl
  rwa [opens_identifier, if_neg Bool.false_ne_true] at h

theorem Takes.eq_of_word {place : Place} {depth depth' : Nat} {w text : Text}
    (h : place.Takes depth ⟨.identifier, w⟩ text depth') : text = w ∧ depth' = depth := by
  cases h with
  | closing hdepth hcloses =>
    rw [closes_identifier] at hcloses
    cases hcloses
  | escape hends hkind => cases hkind
  | literal hends hkind => exact ⟨rfl, if_neg (by rw [opens_identifier]; exact Bool.false_ne_true)⟩

/-- The text that a token adds is its own, unless it is an escape. -/
theorem Takes.text_eq {place : Place} {depth depth' : Nat} {t : Token} {text : Text}
    (h : place.Takes depth t text depth') (hescape : t.kind ≠ .escape) : text = t.text := by
  cases h with
  | closing hdepth hcloses => rfl
  | escape hends hkind => exact absurd hkind hescape
  | literal hends hkind => rfl

end Place

/-! ## What fits a place -/

/-- **A phrase can be written in a place**, with some brackets open before it and behind it. -/
inductive Fits : Place → Nat → Body → Nat → Prop
  | nil {place : Place} {depth : Nat} : Fits place depth .nil depth
  | char {place : Place} {depth mid depth' : Nat} {x : Char} {r : Body} (hplain : IsPlain [x])
      (htake : place.Takes depth ⟨kindOf x, [x]⟩ [x] mid) (hrest : Fits place mid r depth') :
      Fits place depth (.char x r) depth'
  | bracketed {place : Place} {depth depth' m n : Nat} {b : Bracket} {name r : Body}
      (hname : Fits (.name b) 0 name 0) (hrest : Fits place depth r depth') :
      Fits place depth (.ref name m n b.delimiter r) depth'
  | dollar {place : Place} {depth depth' m n : Nat} {r : Body} (hrest : Fits place depth r depth') :
      Fits place depth (.ref (.ofText dollarName) m n .bare r) depth'
  | bare {place : Place} {depth depth' m n : Nat} {x : Char} {r : Body} (hplain : IsPlain [x])
      (hnewline : kindOf x ≠ .newline) (hdollar : kindOf x ≠ .dollar)
      (hopen : Bracket.ofOpening? (some (kindOf x)) = none) (hrest : Fits place depth r depth') :
      Fits place depth (.ref (.ofText [x]) m n .bare r) depth'

variable {place : Place} {depth mid depth' : Nat} {a b body : Body} {x : Char} {s u w : Text}

theorem Fits.append (ha : Fits place depth a mid) (hb : Fits place mid b depth') :
    Fits place depth (a ++ b) depth' := by
  induction ha with
  | nil => exact hb
  | char hplain htake hrest ih => exact .char hplain htake (ih hb)
  | bracketed hname hrest ihname ih => exact .bracketed hname (ih hb)
  | dollar hrest ih => exact .dollar (ih hb)
  | bare hplain hnewline hdollar hopen hrest ih => exact .bare hplain hnewline hdollar hopen (ih hb)

/-- The parts of what fits, fit. -/
theorem Fits.cut (h : Fits place depth (a ++ b) depth') :
    ∃ mid, Fits place depth a mid ∧ Fits place mid b depth' := by
  induction a generalizing depth with
  | nil => exact ⟨depth, .nil, h⟩
  | char c r ih =>
    cases h with
    | char hplain htake hrest =>
      obtain ⟨mid, hr, hb⟩ := ih hrest
      exact ⟨mid, .char hplain htake hr, hb⟩
  | ref name m n d r ihname ih =>
    cases h with
    | bracketed hname hrest =>
      obtain ⟨mid, hr, hb⟩ := ih hrest
      exact ⟨mid, .bracketed hname hr, hb⟩
    | dollar hrest =>
      obtain ⟨mid, hr, hb⟩ := ih hrest
      exact ⟨mid, .dollar hr, hb⟩
    | bare hplain hnewline hdollar hopen hrest =>
      obtain ⟨mid, hr, hb⟩ := ih hrest
      exact ⟨mid, .bare hplain hnewline hdollar hopen hr, hb⟩

/-- Outside of names, brackets are not counted. -/
theorem Fits.depth_eq (h : Fits place depth body depth') (hopens : ∀ k, place.opens k = false)
    (hcloses : ∀ k, place.closes k = false) : depth' = depth := by
  induction h with
  | nil => rfl
  | char hplain htake hrest ih =>
    rw [ih hopens hcloses]
    cases htake with
    | closing hdepth hclosing =>
      rw [hcloses] at hclosing
      cases hclosing
    | escape hends hkind => rfl
    | literal hends hkind => exact if_neg (by rw [hopens]; exact Bool.false_ne_true)
  | bracketed hname hrest ihname ih => exact ih hopens hcloses
  | dollar hrest ih => exact ih hopens hcloses
  | bare hplain hnewline hdollar hopen hrest ih => exact ih hopens hcloses

/-- A phrase that fits is written in plain text. -/
theorem Fits.plain (h : Fits place depth body depth') : IsPlain body.dump := by
  induction h with
  | nil => exact Text.isPlain_nil
  | char hplain htake hrest ih => exact Text.isPlain_cons.mpr ⟨hplain _ List.mem_cons_self, ih⟩
  | @bracketed place depth depth' m n b name r hname hrest ihname ih =>
    have hopening : IsPlain ['$', b.openingChar] := by cases b <;> decide
    have hclosing : IsPlain [b.closingChar] := by cases b <;> decide
    have hname := Text.isPlain_append.mpr ⟨hopening, ihname⟩
    rw [Body.dump_bracketed]
    exact Text.isPlain_append.mpr ⟨Text.isPlain_append.mpr ⟨hname, hclosing⟩, ih⟩
  | dollar hrest ih =>
    rw [Body.dump_dollar]
    exact Text.isPlain_append.mpr ⟨by decide, ih⟩
  | bare hplain hnewline hne hopen hrest ih =>
    rw [Body.dump_bare]
    exact Text.isPlain_append.mpr ⟨Text.isPlain_cons.mpr ⟨by decide, hplain⟩, ih⟩

/-! ## Pieces with colons between them -/

/-- **Prerequisites can be written**: they are phrases with colons between them. -/
inductive FitsPieces : Body → Prop
  | last {b : Body} (hlast : Fits .prerequisites 0 b 0) : FitsPieces b
  | more {a b : Body} (hfirst : Fits .prerequisites 0 a 0) (hrest : FitsPieces b) :
      FitsPieces (a ++ .char ':' b)

theorem Fits.depth_prerequisites (h : Fits .prerequisites depth body depth') : depth' = depth :=
  h.depth_eq (fun _ => rfl) fun _ => rfl

theorem Fits.depth_head (h : Fits .head depth body depth') : depth' = depth :=
  h.depth_eq (fun _ => rfl) fun _ => rfl

theorem Fits.depth_line (h : Fits .line depth body depth') : depth' = depth :=
  h.depth_eq (fun _ => rfl) fun _ => rfl

/-- The parts of a phrase up to the end of the line. -/
theorem Fits.cut_line (h : Fits .line 0 (a ++ b) 0) : Fits .line 0 a 0 ∧ Fits .line 0 b 0 := by
  obtain ⟨mid, ha, hb⟩ := h.cut
  obtain rfl := ha.depth_line
  exact ⟨ha, hb⟩

theorem FitsPieces.append (h : FitsPieces a) (hb : Fits .prerequisites 0 b 0) :
    FitsPieces (a ++ b) := by
  induction h with
  | last hlast => exact .last (hlast.append hb)
  | more hfirst hrest ih =>
    rw [Body.append_assoc]
    exact .more hfirst ih

theorem FitsPieces.plain (h : FitsPieces body) : IsPlain body.dump := by
  have hcolon : ':' ≠ '\\' ∧ ':' ≠ '#' ∧ ':' ≠ '\r' := by decide
  induction h with
  | last hlast => exact hlast.plain
  | more hfirst hrest ih =>
    rw [Body.dump_append]
    exact Text.isPlain_append.mpr ⟨hfirst.plain, Text.isPlain_cons.mpr ⟨hcolon, ih⟩⟩

/-- Of two beginnings of a body, one is a beginning of the other. -/
theorem exists_of_append_eq {a b e f : Body} (h : a ++ b = e ++ f) :
    (∃ z, e = a ++ z ∧ b = z ++ f) ∨ ∃ z, a = e ++ z ∧ f = z ++ b := by
  induction a generalizing e with
  | nil => exact Or.inl ⟨e, rfl, h⟩
  | char x r ih =>
    cases e with
    | nil => exact Or.inr ⟨.char x r, rfl, h.symm⟩
    | char y e =>
      obtain ⟨rfl, hrest⟩ := Body.char.inj h
      rcases ih hrest with ⟨z, rfl, hz⟩ | ⟨z, rfl, hz⟩
      · exact Or.inl ⟨z, rfl, hz⟩
      · exact Or.inr ⟨z, rfl, hz⟩
    | ref => cases h
  | ref name m n d r _ ih =>
    cases e with
    | nil => exact Or.inr ⟨.ref name m n d r, rfl, h.symm⟩
    | char => cases h
    | ref name' m' n' d' e =>
      obtain ⟨rfl, rfl, rfl, rfl, hrest⟩ := Body.ref.inj h
      rcases ih hrest with ⟨z, rfl, hz⟩ | ⟨z, rfl, hz⟩
      · exact Or.inl ⟨z, rfl, hz⟩
      · exact Or.inr ⟨z, rfl, hz⟩

/-- The first part of prerequisites can be written too. -/
theorem FitsPieces.cut (h : FitsPieces (a ++ b)) : FitsPieces a := by
  generalize hbody : a ++ b = body at h
  induction h generalizing a with
  | last hlast =>
    rw [← hbody] at hlast
    obtain ⟨mid, ha, hb⟩ := hlast.cut
    exact .last (ha.depth_prerequisites ▸ ha)
  | @more first rest hfirst hrest ih =>
    rcases exists_of_append_eq hbody with ⟨z, rfl, hz⟩ | ⟨z, rfl, hz⟩
    · obtain ⟨mid, ha, -⟩ := hfirst.cut
      exact .last (ha.depth_prerequisites ▸ ha)
    · cases z with
      | nil =>
        rw [Body.append_nil]
        exact .last hfirst
      | char x z =>
        obtain ⟨rfl, hrest'⟩ := Body.char.inj hz
        exact .more hfirst (ih hrest'.symm)
      | ref => cases hz

/-- No equals sign is in front of prerequisites. -/
theorem FitsPieces.head_ne (h : FitsPieces body) : ∀ y ∈ body.dump.head?, y ≠ '=' := by
  have hfits : ∀ {e : Body}, Fits .prerequisites 0 e 0 → ∀ y ∈ e.dump.head?, y ≠ '=' := by
    intro e he y hy
    cases he with
    | nil => cases hy
    | char hplain htake hrest =>
      cases hy
      rintro rfl
      cases htake with
      | closing hdepth hcloses => cases hcloses
      | escape hends hkind => cases hkind
      | literal hends hkind => cases hends
    | bracketed hname hrest =>
      rw [Body.dump_bracketed] at hy
      cases hy
      decide
    | dollar hrest =>
      cases hy
      decide
    | bare hplain hnewline hdollar hopen hrest =>
      cases hy
      decide
  cases h with
  | last hlast => exact hfits hlast
  | @more first rest hfirst hrest =>
    intro y hy
    rw [Body.dump_append] at hy
    cases hdump : first.dump with
    | nil =>
      rw [hdump] at hy
      cases hy
      decide
    | cons x t =>
      rw [hdump] at hy
      cases hy
      exact hfits hfirst y (by rw [hdump]; rfl)

end MakeBlueprint.Makefile
