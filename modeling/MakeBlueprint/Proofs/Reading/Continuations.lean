import MakeBlueprint.Proofs.Reading.Abreast.Documents
import Mathlib.Data.List.DropRight

/-!
# Continuations

An escaped line break that goes on with a line is a blank: a makefile with a blank in its place
(`Continuation.blanked`) says the same (`Continuation.parse_blanked`).

That holds only where the reader does not skip blanks, because it does not skip escaped line breaks
(`Continuation.IsRead`). In front of a statement, behind the word of a directive, and behind the
colon of a target, a continuation is not the same as a blank.

* `Continuation.lex_blanked`: the blank is a token, and all others stay as they are.
* `Continuation.paired`: the tokens of the two texts are paired.
-/

namespace MakeBlueprint.Makefile

open Text (byteSize)
open Token (textOf)

namespace Token

/-! ## Tokens of a text -/

/-- **A blank in place of an escape is a token**, and the others stay as they are. -/
theorem lex_blank {s : Text} {ts us : List Token} {e : Token} (h : lex s = ts ++ e :: us)
    (he : e.kind = .escape) :
    lex (textOf ts ++ ' ' :: textOf us) = ts ++ ⟨.whitespace, [' ']⟩ :: us := by
  have hbehind : lex (textOf us) = us := @lex_textOf s (ts ++ [e]) us (by rw [h, List.append_cons])
  rw [lex_append_blank rfl h (by rw [he]; nofun), lex_cons_blank rfl, hbehind]
  rfl

end Token

/-! ## Continuations -/

/-- **An escaped line break in a text**, as a token between others. It is not the name of a
reference. -/
structure Continuation (t : Text) where
  before : List Token
  escape : Token
  behind : List Token
  lex_eq : Token.lex t = before ++ escape :: behind
  kind_eq : escape.kind = .escape
  breaks : escape.escapesBreak = true
  not_dollar : ∀ u ∈ before.getLast?, u.kind ≠ .dollar

namespace Continuation

variable {t : Text}

/-- Where the escaped line break starts. -/
def position (k : Continuation t) : Nat := byteSize (textOf k.before)

/-- Where the last token in front that is no blank ends. -/
def wordEnd (k : Continuation t) : Nat :=
  byteSize (textOf (k.before.rdropWhile fun u => u.kind.isBlank))

/-- **The text with a blank in place of the escaped line break.** -/
def blanked (k : Continuation t) : Text := textOf k.before ++ ' ' :: textOf k.behind

/-- The positions of the text with the blank, in the text itself. -/
def alignment (k : Continuation t) : Alignment where
  place p := if p ≤ k.position then p else p + (byteSize k.escape.text - 1)
  strictMono p p' h := by
    dsimp only
    split <;> split <;> omega
  returns := False
  joins n := n = k.position
  bound n := n = k.wordEnd
  apart := False.elim

variable {k : Continuation t}

theorem joinsIn_iff {lo hi : Nat} :
    k.alignment.JoinsIn lo hi ↔ lo ≤ k.position ∧ k.position < hi :=
  ⟨fun ⟨_, heq, h⟩ => heq ▸ h, fun h => ⟨_, rfl, h⟩⟩

theorem formed (k : Continuation t) : ∀ u ∈ k.before ++ k.escape :: k.behind, u.Formed :=
  k.lex_eq ▸ Token.formed_of_mem_lex t

theorem byteSize_escape_pos (k : Continuation t) : 0 < byteSize k.escape.text :=
  Text.byteSize_pos (k.formed _ (List.mem_append_right _ List.mem_cons_self)).text_ne_nil

/-- What is behind the escaped line break is the same, and moved on. -/
theorem paired_behind {n : Nat} {us : List Token} (hn : k.position < n)
    (hlast : ∀ u ∈ us.dropLast, u.kind ≠ .backslash) :
    Paired k.alignment n (n + (byteSize k.escape.text - 1)) us us := by
  induction us generalizing n with
  | nil => exact .nil (if_neg (Nat.not_le.mpr hn))
  | cons u us ih =>
    have hplace : ∀ i, k.alignment.place (n + i) = n + (byteSize k.escape.text - 1) + i := by
      intro i
      refine (if_neg (by omega)).trans ?_
      omega
    have hjoin : ∀ i, ¬ k.alignment.joins (n + (byteSize k.escape.text - 1) + i) := fun i hi => by
      have hi : _ = k.position := hi
      omega
    have hrest : ∀ v ∈ us.dropLast, v.kind ≠ .backslash := by
      cases us with
      | nil => exact nofun
      | cons v vs => exact (List.forall_mem_cons.mp hlast).2
    refine .same (fun i _ => hplace i) (fun i _ => hjoin i) (fun hk => ?_) (fun _ _ hu _ => hu)
      (fun _ hawaits => ?_) ?_
    · by_contra hne
      obtain ⟨v, vs, rfl⟩ := List.exists_cons_of_ne_nil hne
      exact hlast u List.mem_cons_self hk
    · exact absurd hawaits.2 (Nat.add_assoc _ _ _ ▸ hjoin _)
    · rw [Nat.add_right_comm]
      exact ih (Nat.lt_of_lt_of_le hn (Nat.le_add_right _ _)) hrest

theorem position_eq {ts us : List Token} (h : k.before = ts ++ us) :
    k.position = byteSize (textOf ts) + byteSize (textOf us) := by
  rw [position, h, Token.byteSize_textOf_append]

/-- Only blanks are between a word and the escaped line break that is next behind blanks. -/
theorem eq_wordEnd {done more : List Token} {u : Token} (hbefore : k.before = done ++ [u] ++ more)
    (hword : u.kind = .identifier)
    (hawaits : k.alignment.Awaits Token.Kind.isBlank (byteSize (textOf (done ++ [u])))
      (more ++ k.escape :: k.behind)) : byteSize (textOf (done ++ [u])) = k.wordEnd := by
  have hskip : (more ++ k.escape :: k.behind).takeWhile (fun v => v.kind.isBlank) =
      more.takeWhile fun v => v.kind.isBlank := by
    rw [List.takeWhile_append]
    split
    · next hall =>
      rw [List.takeWhile_cons, if_neg (by rw [k.kind_eq]; decide), List.append_nil]
      exact (List.IsPrefix.eq_of_length (List.takeWhile_prefix _) hall).symm
    · rfl
  have hreach : byteSize (textOf (done ++ [u])) +
      byteSize (textOf ((more ++ k.escape :: k.behind).takeWhile fun v => v.kind.isBlank)) =
        k.position := hawaits.2
  have hsplit := @List.takeWhile_append_dropWhile _ (fun v : Token => v.kind.isBlank) more
  -- What is not skipped has no bytes.
  have hall : more.dropWhile (fun v => v.kind.isBlank) = [] := by
    rw [hskip, position_eq hbefore, Nat.add_left_cancel_iff] at hreach
    have hsize := congrArg (byteSize ∘ textOf) hsplit
    simp only [Function.comp_apply, Token.byteSize_textOf_append] at hsize
    by_contra hne
    obtain ⟨v, vs, hcons⟩ := List.exists_cons_of_ne_nil hne
    have hv : v ∈ more := (List.dropWhile_suffix _).subset (hcons ▸ List.mem_cons_self)
    have hpos := Text.byteSize_pos
      (k.formed v (List.mem_append_left _ (hbefore ▸ List.mem_append_right _ hv))).text_ne_nil
    rw [hcons, textOf, textOf, List.flatMap_cons, Text.byteSize_append] at hsize
    change byteSize (List.flatMap Token.text _) = _ at hreach
    omega
  have hblank : ∀ v ∈ more, v.kind.isBlank = true := by simpa using hall
  have hkept : ¬ u.kind.isBlank = true := by
    rw [hword]
    decide
  rw [wordEnd, hbefore, List.rdropWhile, List.reverse_append,
    List.dropWhile_append_of_pos (fun v hv => hblank v (List.mem_reverse.mp hv))]
  simp [hkept]

/-- The tokens of the two texts are paired from a token in front of the escaped line break on. -/
theorem paired_before {done more : List Token} (hbefore : k.before = done ++ more) :
    Paired k.alignment (byteSize (textOf done)) (byteSize (textOf done))
      (more ++ ⟨.whitespace, [' ']⟩ :: k.behind) (more ++ k.escape :: k.behind) := by
  have hlast := Token.ne_backslash_of_mem_dropLast t
  rw [k.lex_eq, List.dropLast_append_cons, List.forall_mem_append] at hlast
  induction more generalizing done with
  | nil =>
    have hposition : byteSize (textOf done) = k.position := by
      rw [position, hbefore, List.append_nil]
    have hescape := k.byteSize_escape_pos
    have hbehind := @paired_behind t k (k.position + 1) k.behind (Nat.lt_add_one _) fun u hu => by
      refine hlast.2 u ?_
      rw [List.dropLast_cons_of_ne_nil fun hnil => by simp [hnil] at hu]
      exact List.mem_cons_of_mem _ hu
    rw [show k.position + 1 + (byteSize k.escape.text - 1) =
      k.position + byteSize k.escape.text by omega] at hbehind
    rw [hposition]
    exact .join k.kind_eq k.breaks (k.formed _ (List.mem_append_right _ List.mem_cons_self)) rfl
      (if_pos (Nat.le_refl _)) hbehind
  | cons u more ih =>
    have hposition := position_eq hbefore
    have hbefore : k.before = done ++ [u] ++ more := by rw [hbefore, List.append_cons]
    have hpos := Text.byteSize_pos
      (k.formed u (List.mem_append_left _ (by rw [hbefore]; simp))).text_ne_nil
    have hsize : byteSize (textOf (done ++ [u])) = byteSize (textOf done) + byteSize u.text := by
      rw [Token.byteSize_textOf_append]
      simp [textOf]
    have hwhole := position_eq hbefore
    rw [hsize] at hwhole
    have hrest := ih hbefore
    rw [hsize] at hrest
    refine .same (fun i hi => if_pos (by omega)) (fun i hi hjoin => ?_) (fun hk => ?_)
      (fun hk v hv _ => ?_) (fun hk hawaits => ?_) hrest
    · have hjoin : _ = k.position := hjoin
      omega
    · exact absurd hk (hlast.1 u (by rw [hbefore]; simp))
    · cases more with
      | nil =>
        refine absurd hk (k.not_dollar u ?_)
        rw [hbefore]
        simp
      | cons w more => exact hv
    · rw [← hsize] at hawaits ⊢
      exact eq_wordEnd hbefore hk hawaits

/-- **The tokens of the text with the blank are paired with those of the text.** -/
theorem paired (k : Continuation t) :
    Paired k.alignment 0 0 (Token.lex k.blanked) (Token.lex t) := by
  rw [k.lex_eq, blanked, Token.lex_blank k.lex_eq k.kind_eq]
  exact paired_before (List.nil_append _).symm

/-! ## What a text says -/

/-- **The escaped line break goes on with a line that is read**: it is in no comment, in no line of
a recipe and in no definition. -/
structure Outside (k : Continuation t) : Prop where
  comments : ∀ s ∈ (parse t).statements, s.content.isComment = true →
    ¬ (s.span.start ≤ k.position ∧ k.position < s.span.stop)
  recipes : ∀ line, IsRecipeLine t line → ¬ (line.start ≤ k.position ∧ k.position < line.stop)
  /-- A definition reaches as far as its lines and the line break behind them, also without an
  end. -/
  definitions : ∀ s ∈ (parse t).statements, ∀ lines, s.content = .directive ⟨.define, lines⟩ →
    s.span.start ≤ k.position →
    s.span.stop ≤ k.position ∧ lines.pos + byteSize lines.dump + 2 ≤ k.position

/-- **The reader does not skip blanks up to the escaped line break**: neither a statement begins
there, nor the arguments of a directive, nor the prerequisites of a rule, nor the name in an
assignment to a target. -/
structure IsRead (k : Continuation t) : Prop where
  statement : k.position ∉ beginnings t
  arguments : ∀ s ∈ (parse t).statements, ∀ d, s.content = .directive d →
    s.span.start + byteSize d.keyword.text ≠ k.wordEnd
  prerequisites : ∀ s ∈ (parse t).statements, ∀ r, s.content = .rule r →
    r.prerequisites.pos ≠ k.position
  name : ∀ s ∈ (parse t).statements, ∀ a, s.content = .assignment a → a.target.isSome = true →
    a.name.pos ≠ k.position

theorem spares {s : Statement} (hs : s ∈ (parse t).statements) (hout : k.Outside)
    (hread : k.IsRead) : k.alignment.Spares (s.content, s.span) := by
  unfold Alignment.Spares
  dsimp only
  split
  · next d hd =>
    refine ⟨hread.arguments s hs d hd, ?_⟩
    rintro hkeyword n rfl hle
    obtain ⟨keyword, lines⟩ := d
    cases hkeyword
    exact hout.definitions s hs lines hd hle
  · next r hr => exact hread.prerequisites s hs r hr
  · next a ha => exact hread.name s hs a ha
  · trivial

/-- **A continuation is a blank.** With a blank in place of an escaped line break that goes on with
a line, a text has the same statements, up to their positions, and errors with the same messages, if
the reader does not skip blanks there. -/
theorem parse_blanked (k : Continuation t) (hout : k.Outside) (hread : k.IsRead) :
    (parse k.blanked).statements.map (fun s => s.content.mapPos forget) =
      (parse t).statements.map (fun s => s.content.mapPos forget) ∧
    (parse k.blanked).errors.map ParseError.message = (parse t).errors.map ParseError.message := by
  obtain ⟨hstatements, herrors⟩ := k.paired.parse
    (fun n hn (hjoin : n = k.position) => hread.statement (hjoin ▸ hn))
    (fun s hs => spares hs hout hread)
    (fun line hline => mt joinsIn_iff.mp (hout.recipes line hline))
  constructor
  · rw [← List.forall₂_eq_eq_eq, List.forall₂_map_left_iff, List.forall₂_map_right_iff]
    refine (forall₂_mem hstatements).imp fun s s' ⟨_, hs', hsame⟩ => ?_
    have hcontent : Content.Alike k.alignment _ s.content s'.content := hsame.content
    generalize s.content = content, hk' : s'.content = content' at hcontent
    cases hcontent with
    | bare h => exact h.symm
    | comment hfree =>
      exact absurd (joinsIn_iff.mp hfree) (hout.comments s' hs' (hk' ▸ rfl))
    | rule hreturns | define hreturns => exact hreturns.elim
  · rw [← List.forall₂_eq_eq_eq, List.forall₂_map_left_iff, List.forall₂_map_right_iff]
    exact herrors.imp fun e e' h => h.1.symm

/-- Among assignments there is nothing but lines that are read. -/
theorem outside_of_assignments (h : ∀ s ∈ (parse t).statements, ∃ a, s.content = .assignment a) :
    k.Outside := by
  refine ⟨fun s hs hcomment => ?_, fun line hline => ?_, fun s hs lines hlines => ?_⟩
  · obtain ⟨a, ha⟩ := h s hs
    rw [ha] at hcomment
    cases hcomment
  · obtain ⟨s, hs, r, hr⟩ := hline.exists_rule
    obtain ⟨a, ha⟩ := h s hs
    cases ha.symm.trans hr
  · obtain ⟨a, ha⟩ := h s hs
    cases ha.symm.trans hlines

/-- A continuation in the value of an assignment. -/
def inValue : Continuation "X := a \\\n  b\nY := $(X)\n" where
  before := Token.lex "X := a "
  escape := ⟨.escape, "\\\n"⟩
  behind := Token.lex "  b\nY := $(X)\n"
  lex_eq := by decide +kernel
  kind_eq := rfl
  breaks := rfl
  not_dollar := by decide +kernel

theorem parse_blanked_inValue :
    inValue.Outside ∧ inValue.IsRead ∧ inValue.blanked = "X := a    b\nY := $(X)\n" ∧
    (parse inValue.blanked).statements.map (fun s => s.content.mapPos forget) =
      (parse "X := a \\\n  b\nY := $(X)\n").statements.map (fun s => s.content.mapPos forget) ∧
    (parse inValue.blanked).errors.map ParseError.message =
      (parse "X := a \\\n  b\nY := $(X)\n").errors.map ParseError.message := by
  have hplain : ∀ s ∈ (parse "X := a \\\n  b\nY := $(X)\n").statements,
      ∃ a, s.content = .assignment a ∧ a.target = none := by
    obtain ⟨s, s', hsts, hs, hs'⟩ : ∃ s s',
        (parse "X := a \\\n  b\nY := $(X)\n").statements = [s, s'] ∧
        (∃ a, s.content = .assignment a ∧ a.target = none) ∧
        ∃ a, s'.content = .assignment a ∧ a.target = none :=
      ⟨_, _, rfl, ⟨_, rfl, rfl⟩, ⟨_, rfl, rfl⟩⟩
    rw [hsts]
    simp [hs, hs']
  have hout : inValue.Outside :=
    outside_of_assignments fun s hs => (hplain s hs).imp fun _ => And.left
  have hread : inValue.IsRead := by
    refine ⟨by decide +kernel, fun s hs d hd => ?_, fun s hs r hr => ?_, fun s hs a ha => ?_⟩
    · obtain ⟨a, ha, -⟩ := hplain s hs
      cases ha.symm.trans hd
    · obtain ⟨a, ha, -⟩ := hplain s hs
      cases ha.symm.trans hr
    · obtain ⟨a', ha', htarget⟩ := hplain s hs
      cases ha.symm.trans ha'
      rw [htarget]
      exact nofun
  exact ⟨hout, hread, by decide +kernel, parse_blanked inValue hout hread⟩

/-- A continuation in front of a statement. -/
def inFront : Continuation "\\\nX := 1\n" where
  before := []
  escape := ⟨.escape, "\\\n"⟩
  behind := Token.lex "X := 1\n"
  lex_eq := by decide +kernel
  kind_eq := rfl
  breaks := rfl
  not_dollar := nofun

/-- **In front of a statement a continuation is not a blank**: the name of an assignment begins with
it. -/
theorem not_blank_inFront :
    inFront.Outside ∧ inFront.blanked = " X := 1\n" ∧
      (assignments (parse inFront.blanked).statements).map (fun a => a.name.dump) = ["X"] ∧
      (assignments (parse "\\\nX := 1\n").statements).map (fun a => a.name.dump) = [" X"] := by
  refine ⟨outside_of_assignments ?_, by decide +kernel⟩
  obtain ⟨s, hsts, hs⟩ : ∃ s, (parse "\\\nX := 1\n").statements = [s] ∧
      ∃ a, s.content = .assignment a := ⟨_, rfl, _, rfl⟩
  rw [hsts]
  simp [hs]

end Continuation

end MakeBlueprint.Makefile
