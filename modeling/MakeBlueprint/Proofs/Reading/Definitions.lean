import MakeBlueprint.Proofs.Reading.Padded.Blocks
import MakeBlueprint.Proofs.Reading.Targeted
import MakeBlueprint.Proofs.Reading.Tokenization

/-!
# Definitions are opaque

The lines of a definition are kept as they are, whatever stands in them: references, hash signs,
colons, and escapes that reach over the ends of lines. The end of the block is found in the text,
and the tokens up to there are skipped; both meet, because the line that ends the block holds no
backslash.

* `Definition`: a name, lines, and a line that ends the block. `Definition.exists_parts` says where
  its block ends.
* `Definition.lex_block`: there is a token that ends where the block ends.
* `Definition.parse_text`: a definition is one directive and nothing else.
-/

namespace MakeBlueprint

open Text (byteSize dropEndWhile linesWithBreaks)

/-! ## Lines -/

namespace Text

theorem linesWithBreaks_flatMap {ls : List Text} (h : ∀ l ∈ ls, '\n' ∉ l) :
    linesWithBreaks (ls.flatMap fun l => l ++ ['\n']) = ls.map fun l => l ++ ['\n'] := by
  induction ls with
  | nil => rfl
  | cons l ls ih =>
    obtain ⟨hl, hls⟩ := List.forall_mem_cons.mp h
    rw [List.flatMap_cons, List.append_assoc, List.singleton_append, linesWithBreaks_line hl,
      ih hls, List.map_cons]

theorem endsWithBreak_flatMap {ls : List Text} (hne : ls ≠ []) :
    EndsWithBreak (ls.flatMap fun l => l ++ ['\n']) := by
  obtain ⟨before, l, rfl⟩ := (List.eq_nil_or_concat' ls).resolve_left hne
  unfold EndsWithBreak
  rw [List.flatMap_append, List.flatMap_singleton, ← List.append_assoc, List.getLast?_concat]

end Text

namespace Makefile

open Token (lex kindOf textOf)

/-- **A definition**, as it is written: the text behind the word `define`, the lines, and the line
that ends the block. -/
structure Definition where
  name : Text
  lines : List Text
  last : Text
  name_unbroken : ∀ x ∈ name, isBreak x = false
  /-- Otherwise the blank would not count, or the line would be an assignment or a rule. -/
  name_front : ∀ x ∈ name.head?, Text.isBlank x = false ∧ x ∉ ['=', ':', '+', '?']
  lines_open : ∀ l ∈ lines, '\n' ∉ l ∧ isEndLine l = false
  last_unbroken : '\n' ∉ last
  last_unescaped : '\\' ∉ last
  last_ends : isEndLine last = true

namespace Definition

variable (b : Definition)

/-- The name and the lines, each with its line break. -/
def body : Text := (b.name :: b.lines).flatMap fun l => l ++ ['\n']

/-- The text of the line that ends the block. Carriage returns in front of its line feed belong to
the line break. -/
def ending : Text := dropEndWhile isBreak b.last

/-- The whole definition. -/
def text : Text := Keyword.define.text ++ ' ' :: (b.body ++ (b.last ++ ['\n']))

/-! ## Its block -/

/-- What is behind the block: carriage returns, and a line feed. -/
theorem exists_parts : ∃ returns, b.last = b.ending ++ returns ∧
    BlockParts (b.body ++ (b.last ++ ['\n'])) b.body b.ending returns ['\n'] := by
  obtain ⟨returns, hreturns, hbreaks⟩ := Text.exists_dropEndWhile_append isBreak b.last
  have hlines : ∀ l ∈ b.name :: b.lines, '\n' ∉ l := by
    refine List.forall_mem_cons.mpr ⟨fun h => ?_, fun l hl => (b.lines_open l hl).1⟩
    cases b.name_unbroken _ h
  have hlast : ∀ x ∈ dropEndWhile isBreak b.last ++ returns, x ≠ '\n' := by
    rintro x hx rfl
    exact b.last_unbroken (hreturns ▸ hx)
  refine ⟨returns, hreturns, ?_⟩
  constructor
  case eq_append =>
    rw [List.append_assoc, ← List.append_assoc b.ending]
    exact congrArg (fun w => b.body ++ (w ++ ['\n'])) hreturns
  case endsWithBreak => exact Text.endsWithBreak_flatMap (List.cons_ne_nil _ _)
  case notEndLine =>
    refine ⟨_, _, Text.linesWithBreaks_flatMap hlines, fun l hl => ?_⟩
    obtain ⟨w, hw, rfl⟩ := List.mem_map.mp hl
    rw [isEndLine_append_white (List.forall_mem_singleton.mpr rfl)]
    exact (b.lines_open w hw).2
  case endLine =>
    rw [ending, isEndLine_dropEndWhile]
    exact b.last_ends
  case not_mem => exact fun h => hlast _ (List.mem_append_left _ h) rfl
  case notBreak => exact Text.getLast?_dropEndWhile
  case eq_return =>
    intro x hx
    have hbreak := hbreaks x hx
    rw [isBreak, Bool.or_eq_true, beq_iff_eq, beq_iff_eq] at hbreak
    exact hbreak.resolve_left (hlast x (List.mem_append_right _ hx))
  case nil_or_break => exact .inr ⟨[], rfl⟩

/-- A backslash by itself would be the last character of the line that ends the block. -/
theorem ne_backslash_of_mem_lex : ∀ t ∈ lex (b.body ++ b.ending), t.kind ≠ .backslash := by
  obtain ⟨returns, hlast, hparts⟩ := b.exists_parts
  intro t ht hkind
  rcases List.eq_nil_or_concat' (lex (b.body ++ b.ending)) with hnil | ⟨ts, u, hlex⟩
  · rw [hnil] at ht
    cases ht
  · have hdropLast := Token.ne_backslash_of_mem_dropLast (b.body ++ b.ending)
    rw [hlex, List.dropLast_concat] at hdropLast
    have htu : t = u := by
      rw [hlex, List.mem_append, List.mem_singleton] at ht
      exact ht.resolve_left fun h => hdropLast t h hkind
    subst htu
    have hformed := Token.formed_of_mem_lex _ t ht
    rw [Token.Formed, hkind] at hformed
    have htext : textOf ts ++ ['\\'] = b.body ++ b.ending := by
      rw [← Token.textOf_lex (b.body ++ b.ending), hlex, Token.textOf_append]
      exact congrArg (textOf ts ++ ·) ((List.append_nil t.text).trans hformed).symm
    have hend := congrArg List.getLast? htext
    rw [List.getLast?_concat, List.getLast?_append_of_ne_nil _ hparts.last_ne_nil] at hend
    refine b.last_unescaped ?_
    rw [hlast]
    exact List.mem_append_left _ (List.mem_of_getLast? hend.symm)

/-- **A token ends where the block ends.** -/
theorem lex_block {returns : Text}
    (h : BlockParts (b.body ++ (b.last ++ ['\n'])) b.body b.ending returns ['\n']) :
    lex (b.body ++ (b.last ++ ['\n'])) =
      lex (b.body ++ b.ending) ++ lex (returns ++ ['\n']) := by
  have hbehind : ∀ x ∈ (returns ++ ['\n']).head?, kindOf x ≠ .identifier := by
    intro x hx
    rcases List.mem_append.mp (List.mem_of_mem_head? hx) with hx | hx
    · rw [h.eq_return x hx]
      decide
    · rw [List.mem_singleton.mp hx]
      decide
  rw [h.eq_append]
  refine Token.lex_append_of_head b.ne_backslash_of_mem_lex hbehind fun _ hreturn => ?_
  rw [List.getLast?_append_of_ne_nil _ h.last_ne_nil] at hreturn
  cases h.notBreak _ hreturn

/-! ## Reading it -/

/-- What is behind the word `define` begins with no blank, and makes the line no assignment. -/
theorem head_block : ∀ x ∈ (b.body ++ (b.last ++ ['\n'])).head?,
    (kindOf x).isBlank = false ∧ (kindOf x).deniesDirective = false := by
  intro x hx
  cases hname : b.name with
  | nil =>
    simp only [body, hname, List.flatMap_cons, List.nil_append, List.cons_append,
      List.head?_cons, Option.mem_some] at hx
    subst hx
    exact ⟨rfl, rfl⟩
  | cons y w =>
    simp only [body, hname, List.flatMap_cons, List.cons_append, List.head?_cons,
      Option.mem_some] at hx
    subst hx
    have hfront := b.name_front y (by rw [hname]; rfl)
    have hreturn := b.name_unbroken y (by rw [hname]; exact List.mem_cons_self)
    unfold kindOf Token.single?
    split <;> simp_all [Token.Kind.isBlank, Token.Kind.deniesDirective, Text.isBlank, isBreak]

/-- The tokens of a definition. -/
theorem lex_text : lex b.text = ⟨.identifier, Keyword.define.text⟩ :: ⟨.whitespace, [' ']⟩ ::
    lex (b.body ++ (b.last ++ ['\n'])) := by
  have hblank := Token.lex_cons_blank (c := ' ') rfl (b.body ++ (b.last ++ ['\n']))
  rw [text, Token.lex_keyword, hblank]
  · rfl
  · rw [hblank]
    rintro u ⟨⟩
    nofun

/-- The first token behind the word `define`, and the blank. -/
theorem head_lex_block : ∀ u ∈ (lex (b.body ++ (b.last ++ ['\n']))).head?,
    u.kind.isBlank = false ∧ u.kind.deniesDirective = false := by
  intro u hu
  obtain ⟨x, hx, hblank, hdenies⟩ := Token.exists_of_mem_head?_lex hu
  have hhead := b.head_block x hx
  rw [← Bool.not_eq_true, ← Bool.not_eq_true] at hhead ⊢
  exact ⟨fun h => hhead.1 (hblank h), fun h => hhead.2 (hdenies h)⟩

/-- **The arguments are the name and the lines**, and reading goes on behind the block. -/
theorem defineArguments_eq {c : Cursor} {returns : Text}
    (h : BlockParts (b.body ++ (b.last ++ ['\n'])) b.body b.ending returns ['\n'])
    (hc : c.rest = ⟨.whitespace, [' ']⟩ :: lex (b.body ++ (b.last ++ ['\n']))) :
    c.defineArguments = (.ofText (c.read + 1) (Text.withoutBreak b.body),
      c.past (⟨.whitespace, [' ']⟩ :: lex (b.body ++ b.ending)) (lex (returns ++ ['\n']))) := by
  have hskip : c.skipBlanks =
      c.past [⟨.whitespace, [' ']⟩] (lex (b.body ++ (b.last ++ ['\n']))) :=
    Cursor.skipWhile_past [⟨.whitespace, [' ']⟩] hc (List.forall_mem_singleton.mpr rfl)
      fun u hu => (b.head_lex_block u hu).1
  generalize hinside :
    c.past [⟨.whitespace, [' ']⟩] (lex (b.body ++ (b.last ++ ['\n']))) = d at hskip
  have hrest : d.rest = lex (b.body ++ (b.last ++ ['\n'])) := by rw [← hinside]; rfl
  have htokens : tokensBefore (byteSize (b.body ++ b.ending)) d.rest =
      (lex (b.body ++ b.ending)).length := by
    have hcount := @tokensBefore_textOf _ (lex (returns ++ ['\n']))
      (Token.formed_of_mem_lex (b.body ++ b.ending))
    rwa [Token.textOf_lex, ← b.lex_block h, ← hrest] at hcount
  have hadvance : d.advance (lex (b.body ++ b.ending)).length =
      d.past (lex (b.body ++ b.ending)) (lex (returns ++ ['\n'])) :=
    Cursor.advance_eq_past _ (hrest.trans (b.lex_block h))
  have hoffset : d.offset = c.read + 1 := by
    have hne : d.rest ≠ [] := by
      rw [hrest]
      exact mt Token.lex_eq_nil_iff.mp (by simp)
    rw [Cursor.offset, if_neg (by simpa using hne), ← hinside]
    rfl
  have htext : textOf d.rest = b.body ++ (b.last ++ ['\n']) := by rw [hrest, Token.textOf_lex]
  unfold Cursor.defineArguments
  rw [hskip]
  dsimp only
  rw [htext, h.blockEnd?_eq]
  dsimp only
  rw [htokens, hadvance, hoffset, ← hinside, Cursor.past_past]
  rfl

/-- What is behind the block is skipped. -/
theorem isSpace_of_mem_lex {v : Text} (hv : ∀ x ∈ v, isBreak x = true) :
    ∀ t ∈ lex v, (t.kind.isBlank || t.kind == .newline) = true := by
  intro t ht
  have hbreak : ∀ x ∈ t.text, isBreak x = true := fun x hx => hv x (Token.mem_of_mem_lex ht hx)
  have hformed := Token.formed_of_mem_lex v t ht
  obtain ⟨kind, text⟩ := t
  cases kind with
  | whitespace | tab | newline => rfl
  | identifier =>
    obtain ⟨x, w, hw⟩ := List.exists_cons_of_ne_nil hformed.1
    obtain rfl : text = x :: w := hw
    have hx := hbreak x List.mem_cons_self
    rw [isBreak, Bool.or_eq_true, beq_iff_eq, beq_iff_eq] at hx
    have hletter := (hformed.2 x List.mem_cons_self).1
    rcases hx with rfl | rfl <;> cases hletter
  | escape => rcases hformed with rfl | ⟨c, rfl⟩ <;> cases hbreak '\\' List.mem_cons_self
  | backslash =>
    obtain rfl : text = ['\\'] := hformed
    cases hbreak '\\' List.mem_cons_self
  | _ =>
    obtain ⟨c, hc, rfl⟩ := hformed
    have hbreak := hbreak c List.mem_cons_self
    rw [isBreak, Bool.or_eq_true, beq_iff_eq, beq_iff_eq] at hbreak
    rcases hbreak with rfl | rfl <;> cases hc

/-- A definition is read as a directive that ends with the text of its last line. -/
theorem statement_eq {returns : Text}
    (h : BlockParts (b.body ++ (b.last ++ ['\n'])) b.body b.ending returns ['\n']) :
    (Cursor.start b.text).statement =
      ((Cursor.start b.text).past (⟨.identifier, Keyword.define.text⟩ :: ⟨.whitespace, [' ']⟩ ::
        lex (b.body ++ b.ending)) (lex (returns ++ ['\n']))).record
          (.directive ⟨.define, .ofText 7 (Text.withoutBreak b.body)⟩) 0 := by
  have hcons : (Cursor.start b.text).rest = ⟨.identifier, Keyword.define.text⟩ ::
      ⟨.whitespace, [' ']⟩ :: lex (b.body ++ (b.last ++ ['\n'])) := b.lex_text
  have hdefine : (Cursor.start b.text).rest = [⟨.identifier, Keyword.define.text⟩] ++
      ⟨.whitespace, [' ']⟩ :: lex (b.body ++ (b.last ++ ['\n'])) := hcons
  have hkeyword : (Cursor.start b.text).keyword? = some .define := by
    refine Cursor.keyword?_of_rest hcons ?_
    rw [List.dropWhile_cons_of_pos rfl]
    intro u hu
    cases hblock : lex (b.body ++ (b.last ++ ['\n'])) with
    | nil =>
      rw [hblock] at hu
      cases hu
    | cons v vs =>
      have hv := b.head_lex_block v (by rw [hblock]; rfl)
      rw [hblock, List.dropWhile_cons_of_neg (by simp [hv.1])] at hu
      cases hu
      exact hv.2
  have hone : (Cursor.start b.text).advance 1 =
      (Cursor.start b.text).past [⟨.identifier, Keyword.define.text⟩]
        (⟨.whitespace, [' ']⟩ :: lex (b.body ++ (b.last ++ ['\n']))) :=
    Cursor.advance_eq_past _ hdefine
  have hoffset : (Cursor.start b.text).offset = 0 := Cursor.offset_of_kindAt
    (Cursor.kindAt_of_rest hcons)
  rw [(Cursor.ReadsStatement.directive hkeyword).eq_statement]
  unfold Cursor.directive
  rw [Cursor.directiveArguments, b.defineArguments_eq h (by rw [hone]; rfl), hone,
    Cursor.past_past, hoffset]
  rfl

/-- What is behind a definition is skipped. -/
theorem skipSpace_statement {returns : Text}
    (h : BlockParts (b.body ++ (b.last ++ ['\n'])) b.body b.ending returns ['\n']) :
    (Cursor.start b.text).statement.skipSpace.rest = [] := by
  have hbreaks : ∀ x ∈ returns ++ ['\n'], isBreak x = true := by
    refine List.forall_mem_append.mpr ⟨fun x hx => h.isBreak_of_mem hx, ?_⟩
    exact List.forall_mem_singleton.mpr rfl
  have hrest : (Cursor.start b.text).statement.rest = lex (returns ++ ['\n']) ++ [] := by
    rw [b.statement_eq h, List.append_nil]
    rfl
  have hskip : (Cursor.start b.text).statement.skipSpace =
      (Cursor.start b.text).statement.past (lex (returns ++ ['\n'])) [] :=
    Cursor.skipWhile_past _ hrest (isSpace_of_mem_lex hbreaks) (by rintro u ⟨⟩)
  rw [hskip]
  rfl

/-- **A definition is opaque.** Whatever its lines hold, it is one directive and nothing else, and
nothing is wrong with it. Its arguments are the constant text of its name and its lines, without
the line break in front of the line that ends the block, and its span ends with the text of that
line. -/
theorem parse_text (b : Definition) :
    parse b.text = ⟨[locate b.text (.directive ⟨.define, .ofText 7 (Text.withoutBreak b.body)⟩)
      ⟨0, byteSize (Keyword.define.text ++ ' ' :: (b.body ++ b.ending))⟩], []⟩ := by
  obtain ⟨returns, -, hparts⟩ := b.exists_parts
  have hskip : (Cursor.start b.text).skipSpace = Cursor.start b.text :=
    Cursor.skipSpace_start (by rintro x ⟨⟩; decide)
  have hne : (Cursor.start b.text).rest ≠ [] := by
    have hrest : (Cursor.start b.text).rest = _ := b.lex_text
    rw [hrest]
    exact List.cons_ne_nil _ _
  have hsize : byteSize (textOf (⟨.identifier, Keyword.define.text⟩ :: ⟨.whitespace, [' ']⟩ ::
      lex (b.body ++ b.ending))) = byteSize (Keyword.define.text ++ ' ' :: (b.body ++ b.ending)) :=
    congrArg (fun w => byteSize (Keyword.define.text ++ ' ' :: w)) (Token.textOf_lex _)
  refine Cursor.parse_eq_singleton hskip hne (b.skipSpace_statement hparts) ?_ ?_ ?_
  case refine_1 =>
    rw [b.statement_eq hparts, Cursor.record, Cursor.spanFrom]
    simp only [Cursor.past, Cursor.start, hsize, List.nil_append, Nat.zero_add, Nat.max_zero]
  case refine_2 =>
    rw [b.statement_eq hparts]
    rfl
  case refine_3 =>
    rw [b.statement_eq hparts]
    rfl

/-- A definition with a reference that is not closed, a hash sign, a rule, and backslashes at the
ends of its name and of its last line. -/
def escaped : Definition where
  name := "f $(a \\".toList
  lines := ["# b".toList, "c: $X \\".toList]
  last := "  endef # d\r".toList
  name_unbroken := by
    have hname : "f $(a \\".toList.any isBreak = false := by decide
    simpa using hname
  name_front := by
    rintro x ⟨⟩
    decide
  lines_open := by decide
  last_unbroken := by decide
  last_unescaped := by decide
  last_ends := by decide

theorem parse_text_escaped :
    parse "define f $(a \\\n# b\nc: $X \\\n  endef # d\r\n".toList =
      ⟨[⟨.directive ⟨.define, .ofText 7 "f $(a \\\n# b\nc: $X \\".toList⟩, ⟨0, 38⟩, ⟨1, 4⟩⟩], []⟩ :=
  parse_text escaped

end Definition

end Makefile

end MakeBlueprint
