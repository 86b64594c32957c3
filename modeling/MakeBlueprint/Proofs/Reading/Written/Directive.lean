import MakeBlueprint.Proofs.Reading.Written.Basic

/-!
# Reading written directives

* `readsAgain_alone`, `readsAgain_directive`: directives without arguments, and with arguments on
  their line.
* `blockEnd?_of_isBlock`, `readsAgain_define`: definitions with their lines.
-/

namespace MakeBlueprint.Makefile

open Text (IsPlain)
open Token (lex kindOf textOf isLetter)
open Phrase (Body)

namespace Cursor

variable {c : Cursor} {keyword : Keyword}

/-! ## Directives -/

theorem dump_alone {pos : Nat} (hkeyword : keyword ∈ [.elseBranch, .endIf, .endDefine]) :
    Content.dump (.directive ⟨keyword, ⟨pos, .nil⟩⟩) = keyword.text := by
  simp only [List.mem_cons, List.not_mem_nil, or_false] at hkeyword
  rcases hkeyword with rfl | rfl | rfl <;> rfl

theorem dump_arguments {arguments : Phrase} (hkeyword : keyword ≠ .define) :
    Content.dump (.directive ⟨keyword, arguments⟩) =
      if arguments.isEmpty then keyword.text else keyword.text ++ ' ' :: arguments.body.dump := by
  simp [Content.dump, Directive.dump, hkeyword, Phrase.dump]

theorem dump_define (pos : Nat) (block : Text) :
    Content.dump (.directive ⟨.define, .ofText pos block⟩) =
      "define ".toList ++ block ++ "\nendef".toList := by
  rw [Content.dump, Directive.dump, if_pos rfl]
  exact congrArg (fun t => "define ".toList ++ t ++ "\nendef".toList) (Body.dump_ofText block)

/-- A directive without arguments is read again. -/
theorem readsAgain_alone {pos : Nat} (hkeyword : keyword ∈ [.elseBranch, .endIf, .endDefine])
    (hc : c.rest = lex (Content.dump (.directive ⟨keyword, ⟨pos, .nil⟩⟩) ++ ['\n'])) :
    ReadsAgain (.directive ⟨keyword, ⟨pos, .nil⟩⟩) c c.statement := by
  rw [dump_alone hkeyword] at hc
  obtain ⟨hword, hone⟩ := keyword?_of_text hc (by decide) (by rintro x ⟨⟩; rfl)
    (by rintro x ⟨⟩; rfl)
  rw [(ReadsStatement.directive hword).eq_statement]
  unfold directive
  rw [hone, directiveArguments_of_mem hkeyword]
  exact readsAgain_record c _ _ rfl

/-- There is a blank in front of the arguments of a directive, if there are any. -/
theorem exists_gap {arguments : Phrase} (hkeyword : keyword ≠ .define) :
    ∃ gap : Text, Content.dump (.directive ⟨keyword, arguments⟩) ++ ['\n'] =
        keyword.text ++ (gap ++ (arguments.body.dump ++ ['\n'])) ∧
      (∀ x ∈ gap, (kindOf x).isBlank = true) ∧
      ∀ x ∈ (gap ++ (arguments.body.dump ++ ['\n'])).head?, isLetter x = false := by
  rw [dump_arguments hkeyword]
  by_cases hempty : arguments.isEmpty = true
  · have hnil : arguments.body = .nil := by simpa [Phrase.isEmpty] using hempty
    rw [if_pos hempty, hnil]
    exact ⟨[], rfl, fun x hx => absurd hx List.not_mem_nil, by rintro x ⟨⟩; rfl⟩
  · rw [if_neg hempty]
    exact ⟨[' '], by simp, List.forall_mem_singleton.mpr rfl, by rintro x ⟨⟩; rfl⟩

/-- **A directive with arguments on its line is read again.** -/
theorem readsAgain_directive {arguments : Phrase}
    (hkeyword : keyword ∉ [.define, .elseBranch, .endIf, .endDefine])
    (harguments : arguments.body.IsArguments)
    (hc : c.rest = lex (Content.dump (.directive ⟨keyword, arguments⟩) ++ ['\n']))
    (hplain : IsPlain (Content.dump (.directive ⟨keyword, arguments⟩) ++ ['\n'])) :
    ReadsAgain (.directive ⟨keyword, arguments⟩) c c.statement := by
  obtain ⟨gap, hdump, hblank, hletter⟩ :=
    @exists_gap keyword arguments fun h => hkeyword (h ▸ List.mem_cons_self)
  rw [hdump] at hc hplain
  have hplainGap := (Text.isPlain_append.mp hplain).2
  have hplainLine := (Text.isPlain_append.mp hplainGap).2
  have hhead : ∀ x ∈ (arguments.body.dump ++ ['\n']).head?,
      (kindOf x).isBlank = false ∧ (kindOf x).deniesDirective = false :=
    forall_mem_head?_append harguments.head (by rintro x ⟨⟩; exact ⟨rfl, rfl⟩)
  have hbehind : ((gap ++ (arguments.body.dump ++ ['\n'])).dropWhile
      fun x => (kindOf x).isBlank) = arguments.body.dump ++ ['\n'] := by
    rw [dropWhile_append_of_head? fun x hx => (hhead x hx).1,
      List.dropWhile_eq_nil_iff.mpr hblank, List.nil_append]
  obtain ⟨hword, hone⟩ := keyword?_of_text hc hplainGap hletter
    (by rw [hbehind]; exact fun x hx => (hhead x hx).2)
  have hskip := skipBlanks_append (c := c.upTo keyword.text
    (gap ++ (arguments.body.dump ++ ['\n']))) rfl hplainGap hblank fun x hx => (hhead x hx).1
  obtain ⟨body, hread, hsame⟩ := reads_of_fits harguments.fits
    (c := c.upTo (keyword.text ++ gap) (arguments.body.dump ++ ['\n'])) rfl hplainLine (by
      rintro y ⟨⟩
      exact Place.stops_zero (Or.inr rfl))
  rw [(ReadsStatement.directive hword).eq_statement]
  unfold directive
  rw [hone, directiveArguments_of_not_mem hkeyword, hskip, upTo_upTo, hread.phrase_eq, upTo_upTo]
  refine readsAgain_record c _ _ ?_
  simp only [Content.mapPos]
  rw [trimEnd_of_mapPos_eq hsame harguments.trimEnd]

/-! ## Definitions -/

/-- The end of a written block is found. -/
theorem blockEnd?_of_isBlock {block : Text} (h : IsBlock block) :
    blockEnd? (block ++ "\nendef\n".toList) =
      some (block ++ ['\n'], Text.byteSize (block ++ "\nendef".toList)) := by
  obtain ⟨first, before, hlines, hbefore⟩ := h.lines
  have hbreak : Text.EndsWithBreak (block ++ ['\n']) := List.getLast?_concat
  have htext : block ++ "\nendef\n".toList = block ++ ['\n'] ++ "endef\n".toList := by
    simp
  have hbody : first ++ before.flatten = block ++ ['\n'] := by
    rw [← Text.flatten_linesWithBreaks (block ++ ['\n']), hlines]
    rfl
  have hend : Text.linesWithBreaks "endef\n".toList = ["endef\n".toList] := by decide
  unfold blockEnd?
  rw [htext, Text.linesWithBreaks_append hbreak, hlines, hend, List.cons_append]
  dsimp only
  rw [splitAtEndLine?_of_notEndLine hbefore (by decide), Option.map_some]
  dsimp only
  rw [hbody]
  have hsize : Text.byteSize (block ++ ['\n']) + Text.byteSize
      (Text.dropEndWhile (fun c => c == '\n' || c == '\r') "endef\n".toList) =
        Text.byteSize (block ++ "\nendef".toList) := by
    rw [Text.byteSize_append, Text.byteSize_append, Nat.add_assoc]
    exact congrArg (Text.byteSize block + ·) (by decide)
  rw [hsize]

/-- **A written block is read again.** -/
theorem defineArguments_of_isBlock {block : Text} (hblock : IsBlock block)
    (hc : c.rest = lex ([' '] ++ (block ++ "\nendef\n".toList)))
    (hplain : IsPlain ([' '] ++ (block ++ "\nendef\n".toList))) :
    ∃ pos, c.defineArguments =
      (.ofText pos block, c.upTo ([' '] ++ (block ++ "\nendef".toList)) ['\n']) := by
  have hplainBlock := (Text.isPlain_append.mp hplain).2
  have hskip := skipBlanks_append hc hplain (List.forall_mem_singleton.mpr rfl)
    (forall_mem_head?_append (fun x hx => (hblock.head x hx).1) (by rintro x ⟨⟩; rfl))
  -- The line break behind the last line is a token of its own.
  have hcut : block ++ "\nendef\n".toList = block ++ "\nendef".toList ++ '\n' :: [] :=
    (List.append_assoc block "\nendef".toList ['\n']).symm
  have hlex : lex (block ++ "\nendef\n".toList) =
      lex (block ++ "\nendef".toList) ++ lex ['\n'] := by
    rw [hcut] at hplainBlock ⊢
    exact Token.lex_append_single hplainBlock (by decide)
  have htokens : tokensBefore (Text.byteSize (block ++ "\nendef".toList))
      (lex (block ++ "\nendef\n".toList)) = (lex (block ++ "\nendef".toList)).length := by
    have hcount := @tokensBefore_textOf _ (lex ['\n'])
      (Token.formed_of_mem_lex (block ++ "\nendef".toList))
    rwa [Token.textOf_lex, ← hlex] at hcount
  have hadvance := advance_tokens
    (c := c.upTo [' '] (block ++ "\nendef\n".toList)) (u := ['\n']) hlex
  rw [Token.textOf_lex, upTo_upTo] at hadvance
  have hreturn : '\r' ∉ block := fun hr => (hblock.plain _ hr).2.2 rfl
  have htext : textOf (c.upTo [' '] (block ++ "\nendef\n".toList)).rest =
      block ++ "\nendef\n".toList := Token.textOf_lex _
  have hrest : (c.upTo [' '] (block ++ "\nendef\n".toList)).rest =
      lex (block ++ "\nendef\n".toList) := rfl
  unfold defineArguments
  rw [hskip]
  dsimp only
  rw [htext, blockEnd?_of_isBlock hblock]
  dsimp only
  rw [hrest, htokens, hadvance, Text.withoutBreak_line hreturn]
  exact ⟨_, rfl⟩

/-- **A definition is read again.** -/
theorem readsAgain_define {pos : Nat} {block : Text} (hblock : IsBlock block)
    (hc : c.rest = lex (Content.dump (.directive ⟨.define, .ofText pos block⟩) ++ ['\n']))
    (hplain : IsPlain (Content.dump (.directive ⟨.define, .ofText pos block⟩) ++ ['\n'])) :
    ReadsAgain (.directive ⟨.define, .ofText pos block⟩) c c.statement := by
  have hdump : Content.dump (.directive ⟨.define, .ofText pos block⟩) ++ ['\n'] =
      Keyword.define.text ++ ([' '] ++ (block ++ "\nendef\n".toList)) := by
    have hword : "define ".toList = Keyword.define.text ++ [' '] := by decide
    have hend : "\nendef\n".toList = "\nendef".toList ++ ['\n'] := by decide
    rw [dump_define, hword, hend]
    simp only [List.append_assoc]
  rw [hdump] at hc hplain
  have hplainGap := (Text.isPlain_append.mp hplain).2
  have hhead : ∀ x ∈ (block ++ "\nendef\n".toList).head?,
      (kindOf x).isBlank = false ∧ (kindOf x).deniesDirective = false :=
    forall_mem_head?_append hblock.head (by rintro x ⟨⟩; exact ⟨rfl, rfl⟩)
  obtain ⟨hword, hone⟩ := keyword?_of_text hc hplainGap (by rintro x ⟨⟩; rfl) (by
    rw [dropWhile_append_of_head? fun x hx => (hhead x hx).1]
    exact fun x hx => (hhead x hx).2)
  obtain ⟨pos', harguments⟩ := defineArguments_of_isBlock hblock
    (c := c.upTo Keyword.define.text ([' '] ++ (block ++ "\nendef\n".toList))) rfl hplainGap
  rw [(ReadsStatement.directive hword).eq_statement]
  unfold directive
  rw [hone, directiveArguments, harguments, upTo_upTo]
  exact readsAgain_record c _ _ (by simp [Content.mapPos, Phrase.mapPos, Phrase.ofText])

end Cursor

end MakeBlueprint.Makefile
