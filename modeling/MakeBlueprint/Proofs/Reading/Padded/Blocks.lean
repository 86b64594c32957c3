import MakeBlueprint.Proofs.Reading.Padded.Phrases

/-!
# Definition blocks in front of blanks

A text with a definition block has parts (`BlockParts`): the lines in front of the end of the block,
the line that ends it, and what is behind (`exists_of_blockEnd?`, `BlockParts.blockEnd?_eq`). Blanks
behind a block make no difference, and blanks right behind its end belong to its last line.

* `blockEnd?_append_of_lt`: what is behind the last line of a block does not matter.
* `blockEnd?_insert`: blanks at the end of the last line move the end of the block.
* `Padding.Beside.defineArguments`: definitions are read side by side.
-/

namespace MakeBlueprint.Text

variable {w : Text} {p : Char → Bool}

/-- A text that does not end with characters of a class keeps its end. -/
theorem dropEndWhile_eq_self (h : ∀ c ∈ w.getLast?, p c = false) : dropEndWhile p w = w := by
  unfold dropEndWhile
  cases hw : w.reverse with
  | nil =>
    rw [List.reverse_eq_nil_iff.mp hw]
    rfl
  | cons c v =>
    have hc : p c = false := h c (by rw [← List.head?_reverse, hw]; rfl)
    rw [List.dropWhile_cons, hc, if_neg Bool.false_ne_true, ← hw, List.reverse_reverse]

theorem getLast?_dropEndWhile : ∀ c ∈ (dropEndWhile p w).getLast?, p c = false := by
  intro c hc
  unfold dropEndWhile at hc
  rw [List.getLast?_reverse] at hc
  have hhead := List.head?_dropWhile_not p w.reverse
  rw [Option.mem_def.mp hc] at hhead
  simpa using hhead

end MakeBlueprint.Text

namespace MakeBlueprint.Makefile

open Text (byteSize dropEndWhile linesWithBreaks)
open Token (textOf)

variable {s u v z body w tail : Text} {size : Nat}

/-! ## The parts of a text with a block -/

theorem isWhite_of_isBreak {c : Char} (h : isBreak c = true) : Text.isWhite c = true := by
  rw [isBreak, Bool.or_eq_true, beq_iff_eq, beq_iff_eq] at h
  rcases h with rfl | rfl <;> rfl

theorem isEndLine_append_white (hv : ∀ c ∈ v, Text.isWhite c = true) :
    isEndLine (w ++ v) = isEndLine w := by
  unfold isEndLine
  rw [Text.trim_append_white hv]

theorem isEndLine_dropEndWhile (w : Text) : isEndLine (dropEndWhile isBreak w) = isEndLine w := by
  obtain ⟨v, hv, hbreaks⟩ := Text.exists_dropEndWhile_append isBreak w
  conv_rhs => rw [hv]
  exact (isEndLine_append_white fun c hc => isWhite_of_isBreak (hbreaks c hc)).symm

/-- **The parts of a text with a block**: the lines in front of its end, of which the first one is
the name and no other one ends a block, the end, carriage returns behind it, and the rest from the
line break on. -/
structure BlockParts (s body last returns tail : Text) : Prop where
  eq_append : s = body ++ last ++ (returns ++ tail)
  endsWithBreak : Text.EndsWithBreak body
  notEndLine : ∃ first before, linesWithBreaks body = first :: before ∧
    ∀ l ∈ before, isEndLine l = false
  endLine : isEndLine last = true
  not_mem : '\n' ∉ last
  notBreak : ∀ c ∈ last.getLast?, isBreak c = false
  eq_return : ∀ c ∈ returns, c = '\r'
  nil_or_break : tail = [] ∨ ∃ rest, tail = '\n' :: rest

namespace BlockParts

variable {last returns : Text}

theorem last_ne_nil (h : BlockParts s body last returns tail) : last ≠ [] := by
  rintro rfl
  cases h.endLine

theorem isBreak_of_mem {c : Char} (h : BlockParts s body last returns tail) (hc : c ∈ returns) :
    isBreak c = true := by
  rw [h.eq_return c hc]
  rfl

/-- The end of a block is a line up to its break. -/
theorem exists_line (h : BlockParts s body last returns tail) :
    ∃ v after, linesWithBreaks (last ++ (returns ++ tail)) = (last ++ v) :: after ∧
      ∀ c ∈ v, isBreak c = true := by
  have hmem : '\n' ∉ last ++ returns := fun hmem => (List.mem_append.mp hmem).elim h.not_mem
    fun hmem => absurd (h.eq_return _ hmem) (by decide)
  rcases h.nil_or_break with rfl | ⟨rest, rfl⟩
  · rw [List.append_nil,
      Text.linesWithBreaks_of_not_mem hmem (List.append_ne_nil_of_left_ne_nil h.last_ne_nil _)]
    exact ⟨returns, [], rfl, fun c hc => h.isBreak_of_mem hc⟩
  · rw [← List.append_assoc, Text.linesWithBreaks_line hmem, List.append_assoc]
    refine ⟨_, _, rfl, fun c hc => ?_⟩
    rcases List.mem_append.mp hc with hc | hc
    · exact h.isBreak_of_mem hc
    · rw [List.mem_singleton.mp hc]
      rfl

/-- **A text with such parts has the block.** -/
theorem blockEnd?_eq (h : BlockParts s body last returns tail) :
    blockEnd? s = some (body, byteSize (body ++ last)) := by
  obtain ⟨first, before, hlines, hbefore⟩ := h.notEndLine
  obtain ⟨v, after, hrest, hbreaks⟩ := h.exists_line
  have hflat := Text.flatten_linesWithBreaks body
  rw [hlines] at hflat
  have hends : isEndLine (last ++ v) = true :=
    (isEndLine_append_white fun c hc => isWhite_of_isBreak (hbreaks c hc)).trans h.endLine
  have hdrop : dropEndWhile isBreak (last ++ v) = last :=
    (Text.dropEndWhile_append_of_all hbreaks).trans (Text.dropEndWhile_eq_self h.notBreak)
  unfold blockEnd?
  rw [h.eq_append, List.append_assoc, Text.linesWithBreaks_append h.endsWithBreak, hlines, hrest,
    List.cons_append]
  dsimp only
  rw [splitAtEndLine?_of_notEndLine hbefore hends, Text.byteSize_append, ← hflat]
  conv_rhs => rw [← hdrop]
  rfl

end BlockParts

/-- The first line of a text up to its line feed. -/
theorem exists_of_first_line {line : Text} {lines : List Text}
    (h : linesWithBreaks s = line :: lines) :
    ∃ w tail, s = w ++ tail ∧ '\n' ∉ w ∧ (tail = [] ∨ ∃ rest, tail = '\n' :: rest) ∧
      dropEndWhile isBreak line = dropEndWhile isBreak w := by
  by_cases hmem : '\n' ∈ s
  · obtain ⟨w, rest, rfl, hw⟩ := List.eq_append_cons_of_mem hmem
    rw [Text.linesWithBreaks_line hw] at h
    obtain ⟨rfl, rfl⟩ := List.cons.inj h
    exact ⟨w, '\n' :: rest, rfl, hw, .inr ⟨rest, rfl⟩,
      Text.dropEndWhile_append_of_all (List.forall_mem_singleton.mpr rfl)⟩
  · have hs : s ≠ [] := by
      rintro rfl
      cases h
    rw [Text.linesWithBreaks_of_not_mem hmem hs] at h
    obtain ⟨rfl, rfl⟩ := List.cons.inj h
    exact ⟨s, [], (List.append_nil s).symm, hmem, .inl rfl, rfl⟩

/-- **Every block has such parts.** -/
theorem exists_of_blockEnd? (h : blockEnd? s = some (body, size)) :
    ∃ last returns tail, BlockParts s body last returns tail ∧ size = byteSize (body ++ last) := by
  unfold blockEnd? at h
  split at h
  · cases h
  · next first lines hlines =>
    obtain ⟨⟨before, line⟩, hsplit, heq⟩ := Option.map_eq_some_iff.mp h
    cases heq
    obtain ⟨after, rfl⟩ := exists_of_splitAtEndLine? hsplit
    have hends := isEndLine_of_splitAtEndLine? hsplit
    have hparts : linesWithBreaks s = (first :: before) ++ (line :: after) := hlines
    have hbody := Text.linesWithBreaks_flatten hparts (List.cons_ne_nil _ _)
    have hbreak := Text.endsWithBreak_flatten hparts (List.cons_ne_nil _ _) (List.cons_ne_nil _ _)
    obtain ⟨r, hs⟩ : ∃ r, s = (first :: before).flatten ++ r :=
      ⟨_, by rw [← Text.flatten_linesWithBreaks s, hparts, List.flatten_append]⟩
    have hrest : linesWithBreaks r = line :: after := by
      rw [hs, Text.linesWithBreaks_append hbreak, hbody] at hparts
      exact List.append_cancel_left hparts
    obtain ⟨w, tail, rfl, hw, htail, hdrop⟩ := exists_of_first_line hrest
    obtain ⟨returns, hreturns, hbreaks⟩ := Text.exists_dropEndWhile_append isBreak w
    refine ⟨dropEndWhile isBreak w, returns, tail, ⟨?_, hbreak, ⟨first, before, hbody,
      notEndLine_of_splitAtEndLine? hsplit⟩, ?_, ?_, Text.getLast?_dropEndWhile, ?_, htail⟩, ?_⟩
    · rw [List.append_assoc, ← List.append_assoc _ returns, ← hreturns]
      exact hs
    · rw [← hdrop, isEndLine_dropEndWhile, hends]
    · rw [hreturns] at hw
      exact fun hmem => hw (List.mem_append_left _ hmem)
    · intro c hc
      have hc' := hbreaks c hc
      rw [isBreak, Bool.or_eq_true, beq_iff_eq, beq_iff_eq] at hc'
      refine hc'.resolve_left ?_
      rintro rfl
      exact hw (hreturns ▸ List.mem_append_right _ hc)
    · rw [← hdrop]
      exact (Text.byteSize_append _ _).symm

/-! ## What is behind a block -/

/-- **What is behind the last line of a block does not matter**, if there is more between than
carriage returns. -/
theorem blockEnd?_append_of_lt {a : Text} {c : Char} (h : blockEnd? (a ++ v ++ u) = some (body, size))
    (hsize : size ≤ byteSize a) (hc : c ∈ v) (hreturn : c ≠ '\r') :
    blockEnd? (a ++ v ++ z) = some (body, size) := by
  obtain ⟨last, returns, tail, hparts, rfl⟩ := exists_of_blockEnd? h
  have hwhole : (body ++ last) ++ (returns ++ tail) = a ++ (v ++ u) := by
    rw [← hparts.eq_append, List.append_assoc]
  obtain ⟨x, rfl, hx⟩ := Text.exists_append_of_byteSize_le hwhole hsize
  -- The line break behind the block is in front of the end of `v`.
  obtain ⟨y, hy⟩ : ∃ y, x ++ v = returns ++ '\n' :: y := by
    rw [← List.append_assoc] at hx
    rcases List.append_eq_append_iff.mp hx with ⟨y, hxv, htaily⟩ | ⟨y, hry, -⟩
    · cases y with
      | nil =>
        rw [List.append_nil] at hxv
        exact absurd (hparts.eq_return c (hxv ▸ List.mem_append_right _ hc)) hreturn
      | cons d y =>
        rcases hparts.nil_or_break with rfl | ⟨rest, rfl⟩
        · cases htaily
        · obtain ⟨rfl, -⟩ := List.cons.inj htaily
          exact ⟨y, hxv⟩
    · refine absurd (hparts.eq_return c ?_) hreturn
      rw [hry]
      exact List.mem_append_left _ (List.mem_append_right _ hc)
  have hparts' : BlockParts (body ++ last ++ x ++ v ++ z) body last returns ('\n' :: (y ++ z)) :=
    { hparts with
      eq_append := by
        rw [List.append_assoc _ x, hy]
        simp only [List.append_assoc, List.cons_append]
      nil_or_break := .inr ⟨_, rfl⟩ }
  exact hparts'.blockEnd?_eq

/-- **Blanks behind the end of a block** belong to its last line, with the carriage returns in front
of them. -/
theorem blockEnd?_insert {a q b : Text} (h : blockEnd? (a ++ (q ++ z)) = some (body, byteSize a))
    (hq : ∀ c ∈ q, c = '\r') (hb : ∀ c ∈ b, Text.isBlank c = true) (hne : b ≠ []) :
    blockEnd? (a ++ (q ++ (b ++ z))) = some (body, byteSize a + (byteSize q + byteSize b)) := by
  obtain ⟨last, returns, tail, hparts, hsize⟩ := exists_of_blockEnd? h
  -- The text ends where the block does, and the carriage returns are those behind it.
  obtain ⟨rfl, hrest⟩ : a = body ++ last ∧ q ++ z = returns ++ tail :=
    Text.append_inj_of_byteSize hparts.eq_append hsize
  obtain ⟨returns, rfl, rfl⟩ : ∃ r, returns = q ++ r ∧ z = r ++ tail := by
    rcases List.append_eq_append_iff.mp hrest with hleft | ⟨x, hqx, htailx⟩
    · exact hleft
    · cases x with
      | nil => exact ⟨[], by rw [hqx]; simp, htailx.symm⟩
      | cons d x =>
        rcases hparts.nil_or_break with rfl | ⟨rest, rfl⟩
        · cases htailx
        · obtain ⟨rfl, -⟩ := List.cons.inj htailx
          exact absurd (hq '\n' (hqx ▸ List.mem_append_right _ List.mem_cons_self)) (by decide)
  have hwhite : ∀ c ∈ q ++ b, Text.isWhite c = true := by
    intro c hc
    rcases List.mem_append.mp hc with hc | hc
    · rw [hq c hc]
      rfl
    · exact Text.isWhite_of_isBlank (hb c hc)
  have hparts' : BlockParts (body ++ last ++ (q ++ (b ++ (returns ++ tail)))) body
      (last ++ (q ++ b)) returns tail :=
    { hparts with
      eq_append := by simp only [List.append_assoc]
      endLine := (isEndLine_append_white hwhite).trans hparts.endLine
      not_mem := by
        simp only [List.mem_append, not_or]
        exact ⟨hparts.not_mem, fun hmem => absurd (hq _ hmem) (by decide),
          fun hmem => Bool.false_ne_true (hb _ hmem)⟩
      notBreak := fun c hc => by
        rw [← List.append_assoc, List.getLast?_append_of_ne_nil _ hne] at hc
        have hblank := hb c (List.mem_of_getLast? hc)
        rw [Text.isBlank, Bool.or_eq_true, beq_iff_eq, beq_iff_eq] at hblank
        rcases hblank with rfl | rfl <;> rfl
      eq_return := fun c hc => hparts.eq_return c (List.mem_append_right _ hc) }
  rw [hparts'.blockEnd?_eq, ← List.append_assoc, Text.byteSize_append _ (q ++ b),
    Text.byteSize_append q]

/-- A block ends in front of what follows it. -/
theorem exists_of_blockEnd?_append (h : blockEnd? (u ++ z) = some (body, size))
    (hsize : size ≤ byteSize u) : ∃ a x, u = a ++ x ∧ byteSize a = size := by
  obtain ⟨last, returns, tail, hparts, rfl⟩ := exists_of_blockEnd? h
  obtain ⟨x, hu, -⟩ := Text.exists_append_of_byteSize_le hparts.eq_append.symm hsize
  exact ⟨_, x, hu, rfl⟩

/-! ## The tokens of a block -/

/-- If all tokens start before a position, the last one does. -/
theorem lt_of_tokensBefore {us : List Token} {u : Token} {n : Nat}
    (h : tokensBefore n (us ++ [u]) = (us ++ [u]).length) : byteSize (textOf us) < n := by
  induction us generalizing n with
  | nil =>
    rw [List.nil_append, tokensBefore] at h
    split at h
    · cases h
    · next hn => exact Nat.pos_of_ne_zero hn
  | cons v us ih =>
    rw [List.cons_append, tokensBefore] at h
    split at h
    · cases h
    · rw [List.length_cons, Nat.add_comm, Nat.add_right_cancel_iff] at h
      have hlt := ih h
      rw [textOf] at hlt ⊢
      rw [List.flatMap_cons, Text.byteSize_append]
      omega

/-- Only the line break of a text with carriage returns has a character of a line break that is not
the first one of its token. -/
theorem eq_return_of_formed {u : Token} {x y : Text} {d : Char} (hu : u.Formed)
    (hkind : u.kind ≠ .escape) (htext : u.text = x ++ d :: y) (hx : x ≠ [])
    (hd : isBreak d = true) : x = ['\r'] := by
  obtain ⟨c, x, rfl⟩ := List.exists_cons_of_ne_nil hx
  rw [isBreak, Bool.or_eq_true, beq_iff_eq, beq_iff_eq] at hd
  obtain ⟨kind, text⟩ := u
  dsimp only at hkind htext
  subst htext
  cases kind with
  | escape => exact absurd rfl hkind
  | identifier =>
    have hletter := hu.2 d (List.mem_append_right _ List.mem_cons_self)
    rcases hd with rfl | rfl <;> cases hletter.1
  | newline =>
    rcases hu with htext | htext
    · simp at htext
    · obtain ⟨rfl, hrest⟩ := List.cons.inj htext
      cases x with
      | nil => rfl
      | cons e x => simp at hrest
  | backslash =>
    have htext : c :: x ++ d :: y = ['\\'] := hu
    simp at htext
  | whitespace | tab | dollar | leftParen | rightParen | leftBrace | rightBrace | colon | equals
  | plus | question | hash | semicolon | pipe =>
    obtain ⟨e, -, htext⟩ := hu
    simp at htext

/-- **A block that takes all of some tokens ends where they end**: its end is not inside the last
one. -/
theorem eq_of_tokensBefore {us : List Token} (hformed : ∀ u ∈ us, u.Formed)
    (hlast : ∀ u ∈ us.getLast?, u.kind ≠ .escape)
    (h : blockEnd? (textOf us ++ z) = some (body, size))
    (htokens : tokensBefore size us = us.length) (hle : size ≤ byteSize (textOf us)) :
    size = byteSize (textOf us) := by
  rcases List.eq_nil_or_concat' us with rfl | ⟨vs, u, rfl⟩
  · exact Nat.le_zero.mp hle
  by_contra hne
  have hstart := lt_of_tokensBefore htokens
  obtain ⟨last, returns, tail, hparts, hsize⟩ := exists_of_blockEnd? h
  have htext : textOf (vs ++ [u]) = textOf vs ++ u.text := by
    rw [Token.textOf_append]
    simp [textOf]
  rw [htext, Text.byteSize_append] at hle hne
  have hwhole : textOf vs ++ (u.text ++ z) = (body ++ last) ++ (returns ++ tail) := by
    rw [← List.append_assoc, ← htext, hparts.eq_append]
  obtain ⟨x, hx, hu⟩ := Text.exists_append_of_byteSize_le hwhole (by omega)
  rw [hx, Text.byteSize_append] at hsize
  obtain ⟨y, huy, hy⟩ := Text.exists_append_of_byteSize_le hu.symm (by omega)
  -- The token goes on with a line break behind the end of the block.
  obtain ⟨d, y, rfl⟩ := List.exists_cons_of_ne_nil (by
    rintro rfl
    rw [List.append_nil] at huy
    rw [huy] at hne
    omega : y ≠ [])
  have hd : isBreak d = true := by
    cases returns with
    | cons e returns =>
      obtain ⟨rfl, -⟩ := List.cons.inj hy
      exact hparts.isBreak_of_mem List.mem_cons_self
    | nil =>
      rcases hparts.nil_or_break with rfl | ⟨rest, rfl⟩
      · cases hy
      · obtain ⟨rfl, -⟩ := List.cons.inj hy
        rfl
  have hxne : x ≠ [] := by
    rintro rfl
    rw [byteSize] at hsize
    omega
  obtain rfl := eq_return_of_formed (hformed u (by simp)) (hlast u (by simp)) huy hxne hd
  have hlastChar : last.getLast? = some '\r' := by
    rw [← List.getLast?_append_of_ne_nil body hparts.last_ne_nil, hx, List.getLast?_concat]
  cases hparts.notBreak '\r' hlastChar

/-- Tokens of carriage returns are blanks. -/
theorem isBlank_of_return {u : Token} (hu : u.Formed) (h : ∀ c ∈ u.text, c = '\r') :
    u.kind.isBlank = true := by
  obtain ⟨c, w, htext⟩ := List.exists_cons_of_ne_nil hu.text_ne_nil
  obtain rfl : c = '\r' := h c (htext ▸ List.mem_cons_self)
  obtain ⟨kind, text⟩ := u
  dsimp only at htext h
  subst htext
  cases kind with
  | whitespace | tab => rfl
  | newline =>
    rcases hu with htext | htext
    · simp at htext
    · obtain ⟨-, rfl⟩ := List.cons.inj htext
      exact absurd (h '\n' (List.mem_cons_of_mem _ List.mem_cons_self)) (by decide)
  | escape => rcases hu with htext | ⟨c, htext⟩ <;> simp at htext
  | identifier =>
    have hletter := hu.2 '\r' List.mem_cons_self
    cases hletter.1
  | backslash =>
    have htext : '\r' :: w = ['\\'] := hu
    simp at htext
  | dollar | leftParen | rightParen | leftBrace | rightBrace | colon | equals | plus | question
  | hash | semicolon | pipe =>
    obtain ⟨e, he, htext⟩ := hu
    obtain ⟨rfl, -⟩ := List.cons.inj htext
    cases he

namespace Padding

open Cursor

variable {t : Text} {k : Padding t} {c c' : Cursor}

theorem textOf_spaced (k : Padding t) : textOf k.spaced = k.blanks ++ textOf k.rest := by
  rw [spaced, Token.textOf_append, Token.textOf_lex]

/-- In front of the carriage returns in front of the line break, there is another character up to
it. -/
theorem exists_of_lt_returns {us vs : List Token} (hc : StandsIn t c)
    (hrest : c.rest = us ++ vs ++ k.rest)
    (hlt : c.read + byteSize (textOf us) < k.returns) : ∃ d ∈ textOf vs, d ≠ '\r' := by
  obtain ⟨before, after, ht, hbefore, hafter⟩ := hc.placed
  have hafter : textOf c.rest = after := hafter.resolve_right fun hnil => by
    rw [hrest] at hnil
    simp [rest] at hnil
  have hwhole : textOf k.before ++ textOf k.rest = t := by
    have htext := Token.textOf_lex t
    rwa [k.lex_eq, Token.textOf_append] at htext
  have hbeforeText : textOf k.before = before ++ textOf us ++ textOf vs := by
    have hall : textOf k.before ++ textOf k.rest =
        before ++ textOf us ++ textOf vs ++ textOf k.rest := by
      refine hwhole.trans (ht.trans ?_)
      rw [← hafter, hrest, Token.textOf_append, Token.textOf_append]
      simp only [List.append_assoc]
    exact List.append_cancel_right hall
  by_contra hnone
  simp only [not_exists, not_and, not_not] at hnone
  have hdrop : Text.dropEndWhile (· == '\r') (textOf k.before) =
      Text.dropEndWhile (· == '\r') (before ++ textOf us) := by
    rw [hbeforeText]
    exact Text.dropEndWhile_append_of_all fun d hd => by rw [hnone d hd]; rfl
  have hle := Text.byteSize_dropEndWhile_le (· == '\r') (before ++ textOf us)
  rw [Text.byteSize_append, hbefore] at hle
  unfold returns at hlt
  rw [hdrop] at hlt
  omega

/-- **What a block comes to in both texts**: the same token is next. If only carriage returns are in
front of the line break, they are skipped in the text, and in the padded text they belong to the
block. -/
inductive BlockEnds (k : Padding t) (d d' : Cursor) : Prop
  | beside (hrests : k.Rests d d') (hnext : d'.kindAt 0 = d.kindAt 0)
  | frayed (hskip : k.Rests d.skipSpace d'.skipSpace) (hreturns : k.returns ≤ d.read)
      (hread : d.read < k.position)

theorem BlockEnds.of_rest (hrests : k.Rests c c') (hrest : c'.rest = c.rest) : k.BlockEnds c c' :=
  .beside hrests (by rw [Cursor.kindAt, Cursor.kindAt, hrest])

/-- A block that goes up to the line break in the padded text. -/
theorem blockEnds_of_returns {us : List Token} {d' : Cursor} {m : Nat} {a x : Text}
    (hc : StandsIn t c) (hrest : c.rest = us ++ k.rest)
    (hread : c.read + byteSize (textOf us) = k.position) (hm : m ≤ us.length)
    (htext : textOf us = a ++ x) (hreach : byteSize a ≤ byteSize (textOf (us.take m)))
    (hx : ∀ d ∈ x, d = '\r') (hrest' : d'.rest = k.rest) (hread' : d'.read = k.position + k.size) :
    k.BlockEnds (c.advance m) d' := by
  have hformed : ∀ u ∈ us, u.Formed := fun u hu => hc.formed u (hrest ▸ List.mem_append_left _ hu)
  obtain ⟨hend, hendRead⟩ := advance_length hrest
  rw [hread] at hendRead
  have hends : k.Rests (c.advance us.length) d' :=
    .behind (hrest'.trans hend.symm) (Nat.le_of_eq hendRead.symm) (hendRead ▸ hread')
  rcases Nat.eq_or_lt_of_le hm with rfl | hlt
  · exact .of_rest hends (hrest'.trans hend.symm)
  -- Behind the tokens of the block there are carriage returns.
  have hleft : (c.advance m).rest = us.drop m ++ k.rest := by
    unfold Cursor.advance
    dsimp only
    rw [hrest, List.drop_append_of_le_length hm]
  have hreturn : ∀ d ∈ textOf (us.drop m), d = '\r' := by
    have hsplit : a ++ x = textOf (us.take m) ++ textOf (us.drop m) := by
      rw [← htext, ← Token.textOf_append, List.take_append_drop]
    obtain ⟨y, -, hy⟩ := Text.exists_append_of_byteSize_le hsplit hreach
    exact fun d hd => hx d (hy ▸ List.mem_append_right _ hd)
  have hblank : ∀ u ∈ us.drop m, (u.kind.isBlank || u.kind == .newline) = true := fun u hu => by
    rw [isBlank_of_return (hformed u (List.mem_of_mem_drop hu)) fun d hd =>
      hreturn d (List.mem_flatMap.mpr ⟨u, hu, hd⟩), Bool.true_or]
  have hskip : (c.advance us.length).skipSpace = (c.advance m).skipSpace := by
    have hcount : (us.drop m).length = us.length - m := List.length_drop
    have hover := @skipWhile_advance (c.advance m) (fun k => k.isBlank || k == .newline)
      (us.drop m).length (by rw [hleft, List.length_append]; omega) (by rwa [hleft, List.take_left])
    rw [advance_advance, hcount, Nat.add_sub_cancel' hm] at hover
    exact hover
  refine .frayed (hskip ▸ hends.skipSpace.1) ?_ ?_
  · refine Nat.not_lt.mp fun hlt => ?_
    have hsplit : c.rest = us.take m ++ us.drop m ++ k.rest := by rw [List.take_append_drop, hrest]
    obtain ⟨d, hd, hne⟩ := exists_of_lt_returns hc hsplit (by
      unfold Cursor.advance at hlt
      rwa [hrest, List.take_append_of_le_length hm] at hlt)
    exact hne (hreturn d hd)
  · have hlast := (hc.advance m).read_lt_advance (kindAt_of_rest (hleft.trans
      (congrArg (· ++ _) (List.drop_eq_getElem_cons hlt))))
    have hahead := (ahead_advance ((c.advance m).advance 1) (us.length - (m + 1))).read
    rw [advance_advance, advance_advance, Nat.add_sub_cancel' hlt, hendRead] at hahead
    rw [advance_advance] at hlast
    exact Nat.lt_of_lt_of_le hlast hahead

section

-- The texts up to the line break, and a block that ends in front of it.
variable {us : List Token} {a x : Text} (hc : StandsIn t c) (hrest : c.rest = us ++ k.rest)
  (hrest' : c'.rest = us ++ k.spaced) (hread : c.read + byteSize (textOf us) = k.position)
  (hread' : c'.read = c.read) (hcut : textOf us = a ++ x)
  (hblock : blockEnd? (textOf us ++ textOf k.rest) = some (body, byteSize a))

include hc hrest hrest' hread hread' hcut hblock

/-- A block whose last line goes on in front of the line break. -/
theorem Rests.block_of_mem (hlast : ∀ u ∈ us.getLast?, u.kind ≠ .escape) {d : Char} (hd : d ∈ x)
    (hreturn : d ≠ '\r') :
    blockEnd? (textOf us ++ textOf k.spaced) = some (body, byteSize a) ∧
      k.BlockEnds (c.advance (tokensBefore (byteSize a) us))
        (c'.advance (tokensBefore (byteSize a) us)) := by
  have hsize : byteSize a ≤ byteSize (textOf us) := by
    rw [hcut, Text.byteSize_append]
    exact Nat.le_add_right _ _
  have hle := (@tokensBefore_append us k.rest _ hsize).2
  have hbefore := (advance_before hrest hrest' hread hread' hlast hle).1
  refine ⟨?_, .beside hbefore (hbefore.kindAt_or.resolve_right fun hfaces => ?_)⟩
  · rw [hcut] at hblock ⊢
    exact blockEnd?_append_of_lt hblock (Nat.le_refl _) hd hreturn
  -- If it took all tokens, it would end with them.
  have hall : tokensBefore (byteSize a) us = us.length := by
    have hspan := hfaces.rest
    unfold Cursor.advance at hspan
    dsimp only at hspan
    rw [hrest, List.drop_append_of_le_length hle] at hspan
    exact Nat.le_antisymm hle (List.drop_eq_nil_iff.mp (List.append_left_eq_self.mp hspan))
  have hformed : ∀ u ∈ us, u.Formed := fun u hu => hc.formed u (hrest ▸ List.mem_append_left _ hu)
  have hwhole := eq_of_tokensBefore hformed hlast hblock hall hsize
  have hpos := Text.byteSize_pos (List.ne_nil_of_mem hd)
  rw [hcut, Text.byteSize_append] at hwhole
  omega

/-- A block in front of the line break, or of carriage returns in front of it: blanks belong to
it. -/
theorem Rests.block_of_returns (hx : ∀ d ∈ x, d = '\r') (hblanks : k.blanks ≠ []) :
    ∃ size', blockEnd? (textOf us ++ textOf k.spaced) = some (body, size') ∧
      k.BlockEnds (c.advance (tokensBefore (byteSize a) us))
        (c'.advance (tokensBefore size' c'.rest)) := by
  have hformed : ∀ u ∈ us, u.Formed := fun u hu => hc.formed u (hrest ▸ List.mem_append_left _ hu)
  have hsize : byteSize a ≤ byteSize (textOf us) := by
    rw [hcut, Text.byteSize_append]
    exact Nat.le_add_right _ _
  obtain ⟨hcount, hle⟩ := @tokensBefore_append us k.rest _ hsize
  have hreach := le_byteSize_tokensBefore (le_of_blockEnd?
    ((congrArg blockEnd? (Token.textOf_append us k.rest)).trans hblock))
  rw [hcount, List.take_append_of_le_length hle] at hreach
  rw [hcut, List.append_assoc] at hblock
  have hspaced : c'.rest = (us ++ Token.lex k.blanks) ++ k.rest := by
    rw [hrest', spaced, List.append_assoc]
  have hbytes : byteSize (textOf (us ++ Token.lex k.blanks)) =
      byteSize a + (byteSize x + byteSize k.blanks) := by
    rw [Token.byteSize_textOf_append, Token.textOf_lex, hcut, Text.byteSize_append, Nat.add_assoc]
  have hcount' : tokensBefore (byteSize a + (byteSize x + byteSize k.blanks)) c'.rest =
      (us ++ Token.lex k.blanks).length := by
    rw [hspaced, ← hbytes]
    exact tokensBefore_textOf fun u hu =>
      (List.mem_append.mp hu).elim (hformed u) (Token.formed_of_mem_lex _ u)
  obtain ⟨hend, hendRead⟩ := advance_length hspaced
  refine ⟨byteSize a + (byteSize x + byteSize k.blanks), ?_, ?_⟩
  · rw [textOf_spaced, hcut, List.append_assoc]
    exact blockEnd?_insert hblock hx k.isBlank hblanks
  · rw [hcount']
    refine blockEnds_of_returns hc hrest hread hle hcut hreach hx hend ?_
    rw [hendRead, hread', hbytes, ← hread, hcut, Text.byteSize_append, size]
    omega

end

/-- **Past a block in both texts**, if it does not end behind the line break. -/
theorem Rests.block (h : k.Rests c c') (hc : StandsIn t c) {body : Text} {size : Nat}
    (hblock : blockEnd? (textOf c.rest) = some (body, size))
    (hstop : c.read ≤ k.position → (c.advance (tokensBefore size c.rest)).read ≤ k.position) :
    ∃ size', blockEnd? (textOf c'.rest) = some (body, size') ∧
      k.BlockEnds (c.advance (tokensBefore size c.rest))
        (c'.advance (tokensBefore size' c'.rest)) := by
  cases h with
  | behind hrest hread hread' =>
    refine ⟨size, hrest ▸ hblock, ?_⟩
    rw [hrest]
    exact .of_rest (advance_behind hrest hread hread' _).1 (congrArg (List.drop _) hrest)
  | @before us hrest hrest' hread hread' hlast =>
    have hreach := le_byteSize_tokensBefore (le_of_blockEnd? hblock)
    have hwithin : c.read + byteSize (textOf (c.rest.take (tokensBefore size c.rest))) ≤
      k.position := hstop (by omega)
    have hsize : size ≤ byteSize (textOf us) := by omega
    obtain ⟨hcount, hle⟩ := @tokensBefore_append us k.rest size hsize
    obtain ⟨hcount', -⟩ := @tokensBefore_append us k.spaced size hsize
    by_cases hblanks : k.blanks = []
    · have hsame : c'.rest = c.rest := by
        rw [hrest, hrest', spaced, hblanks]
        rfl
      refine ⟨size, hsame ▸ hblock, ?_⟩
      rw [hsame, hrest, hcount]
      exact .of_rest (advance_before hrest hrest' hread hread' hlast hle).1
        (congrArg (List.drop _) hsame)
    · rw [hrest, Token.textOf_append] at hblock
      rw [hrest, hcount, hrest', Token.textOf_append, ← hrest']
      obtain ⟨a, x, hcut, rfl⟩ := exists_of_blockEnd?_append hblock hsize
      by_cases hx : ∃ d ∈ x, d ≠ '\r'
      · obtain ⟨d, hd, hreturn⟩ := hx
        obtain ⟨hpadded, hends⟩ :=
          block_of_mem hc hrest hrest' hread hread' hcut hblock hlast hd hreturn
        exact ⟨_, hpadded, by rwa [hrest', hcount']⟩
      · simp only [not_exists, not_and, not_not] at hx
        exact block_of_returns hc hrest hrest' hread hread' hcut hblock hx hblanks

/-- **A definition in both texts**, if it does not end behind the line break. The same token is next,
unless there are carriage returns in front of the line break. -/
theorem Beside.defineArguments (h : k.Beside c c') (hc : StandsIn t c)
    (hfaults : c.defineArguments.2.faults = [])
    (hstop : c.read ≤ k.position → c.defineArguments.2.read ≤ k.position) :
    c'.defineArguments.1.mapPos forget = c.defineArguments.1.mapPos forget ∧
      (k.Beside c.defineArguments.2 c'.defineArguments.2 ∧
        c'.defineArguments.2.kindAt 0 = c.defineArguments.2.kindAt 0 ∨
      k.Near c.defineArguments.2 c'.defineArguments.2 ∧
        k.returns ≤ c.defineArguments.2.read ∧ c.defineArguments.2.read < k.position) := by
  obtain ⟨hskip, -⟩ := h.skipBlanks
  have hstands : StandsIn t c.skipBlanks := hc.advance _
  have hread : c.read ≤ c.skipBlanks.read := Nat.le_add_right _ _
  unfold Cursor.defineArguments at hfaults hstop ⊢
  dsimp only at hfaults hstop ⊢
  generalize c.skipBlanks = e at *
  generalize c'.skipBlanks = e' at *
  cases hblock : blockEnd? (textOf e.rest) with
  | none =>
    rw [hblock] at hfaults
    exact absurd hfaults (faults_report_ne_nil e _ _)
  | some block =>
    obtain ⟨body, length⟩ := block
    rw [hblock] at hstop
    dsimp only at hstop ⊢
    obtain ⟨length', hblock', hends⟩ :=
      hskip.rests.block hstands hblock fun hle => hstop (Nat.le_trans hread hle)
    rw [hblock']
    refine ⟨by simp [Phrase.ofText, Phrase.mapPos, forget], ?_⟩
    cases hends with
    | beside hrests hnext =>
      exact .inl ⟨hskip.congr hrests ⟨rfl, rfl⟩ ⟨rfl, rfl⟩ ⟨rfl, rfl⟩, hnext⟩
    | frayed hrests hreturns hread =>
      exact .inr ⟨hskip.congr hrests ⟨rfl, rfl⟩ ⟨rfl, rfl⟩ ⟨rfl, rfl⟩, hreturns, hread⟩

end Padding

end MakeBlueprint.Makefile
