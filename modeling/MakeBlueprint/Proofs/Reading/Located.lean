import MakeBlueprint.Proofs.Reading.Concatenation
import MakeBlueprint.Proofs.Reading.Returns
import MakeBlueprint.Proofs.Reading.Sound

/-!
# Where faults and statements are

A fault is noted at the next token, at the end of the text, or at the start of the phrase or of the
target that it is about. None of these positions cuts a character, also when a fault is the last one
that is noted and the rest of the text is given up (`Marked`). Lines and columns follow from that.

* `lineAt_boundary`, `columnAt_boundary`, `lineAt_lastByte`: lines and columns as counts of the
  characters in front of a position.
* `Marked.statement`, `ReadsLines.marked`: one statement, and all of them.
* `parse_located`: **the places of errors and statements**.
-/

namespace MakeBlueprint.Text

variable {earlier current : Text} {c : Char}

/-! ## Lines and columns at the ends of characters -/

theorem lineAt_boundary (before after : Text) :
    lineAt (byteSize before) (before ++ after) = before.count '\n' + 1 := by
  have h := lineAt_append before after 0
  rwa [Nat.add_zero, lineAt_zero] at h

/-- The last byte of a character is on the line of the character: no line feed has two bytes. -/
theorem lineAt_lastByte (before after : Text) (c : Char) :
    lineAt (byteSize (before ++ [c]) - 1) (before ++ [c] ++ after) = before.count '\n' + 1 := by
  have hpos := Char.utf8Size_pos c
  have hoffset : byteSize (before ++ [c]) - 1 = byteSize before + (c.utf8Size - 1) := by
    rw [byteSize_append, byteSize, byteSize]
    omega
  have hinside : lineAt (c.utf8Size - 1) (c :: after) = 1 := by
    by_cases hc : c = '\n'
    · subst hc
      exact lineAt_zero _
    · exact lineAt_inside hc (Nat.sub_le _ _)
  rw [hoffset, List.append_assoc, lineAt_append, List.singleton_append, hinside]

theorem columnFrom_line (h : '\n' ∉ current) (column : Nat) (after : Text) :
    columnFrom column (byteSize current) (current ++ after) = column + byteSize current := by
  induction current generalizing column with
  | nil => exact columnFrom_zero column after
  | cons c t ih =>
    have hpos := Char.utf8Size_pos c
    have hc : '\n' ≠ c := List.ne_of_not_mem_cons h
    have ht : '\n' ∉ t := List.not_mem_of_not_mem_cons h
    have hrest : byteSize (c :: t) - c.utf8Size = byteSize t := Nat.add_sub_cancel_left _ _
    have hmin : min c.utf8Size (byteSize (c :: t)) = c.utf8Size :=
      Nat.min_eq_left (Nat.le_add_right _ _)
    rw [List.cons_append, columnFrom, if_neg (by rw [byteSize]; omega), if_neg (Ne.symm hc), hrest,
      hmin, ih ht, byteSize, Nat.add_assoc]

theorem columnAt_boundary (hearlier : earlier = [] ∨ EndsWithBreak earlier)
    (hcurrent : '\n' ∉ current) (after : Text) :
    columnAt (byteSize (earlier ++ current)) (earlier ++ current ++ after) =
      byteSize (earlier ++ current) - byteSize earlier + 1 := by
  rw [byteSize_append, List.append_assoc, columnAt_append hearlier, columnAt,
    columnFrom_line hcurrent]
  omega

/-- Every text is whole lines and the beginning of a line. -/
theorem exists_currentLine (t : Text) :
    ∃ earlier current, t = earlier ++ current ∧ (earlier = [] ∨ EndsWithBreak earlier) ∧
      '\n' ∉ current := by
  induction t with
  | nil => exact ⟨[], [], rfl, Or.inl rfl, List.not_mem_nil⟩
  | cons c t ih =>
    obtain ⟨earlier, current, rfl, hearlier, hcurrent⟩ := ih
    rcases hearlier with rfl | hend
    · by_cases hc : c = '\n'
      · subst hc
        exact ⟨['\n'], current, rfl, Or.inr rfl, hcurrent⟩
      · have hline : '\n' ∉ c :: current :=
          List.not_mem_cons_of_ne_of_not_mem (Ne.symm hc) hcurrent
        exact ⟨[], c :: current, rfl, Or.inl rfl, hline⟩
    · exact ⟨c :: earlier, current, rfl, Or.inr ((endsWithBreak_cons hend.ne_nil).mpr hend),
        hcurrent⟩

theorem isBoundary_byteSize (source : Text) : IsBoundary source (byteSize source) :=
  ⟨source, [], (List.append_nil source).symm, rfl⟩

end MakeBlueprint.Text

namespace MakeBlueprint.Makefile

open Text (byteSize IsBoundary)

namespace Cursor

variable {source : Text} {c d mid next : Cursor} {body : Phrase.Body} {place : Place} {depth : Nat}

/-! ## Steps -/

/-- **A sound cursor whose faults cut no character.** -/
structure Marked (source : Text) (c : Cursor) : Prop where
  sound : Sound source c
  faults : ∀ f ∈ c.faults, IsBoundary source f.offset

theorem marked_start (source : Text) : Marked source (start source) := ⟨sound_start source, nofun⟩

theorem Marked.of_faults (h : Marked source c) (hd : Sound source d)
    (hfaults : d.faults = c.faults) : Marked source d :=
  ⟨hd, hfaults ▸ h.faults⟩

/-- The next token starts at a boundary, and so does the end of a text. -/
theorem Sound.isBoundary_offset (h : Sound source c) : IsBoundary source c.offset := by
  unfold Cursor.offset
  split
  · rw [h.size]
    exact Text.isBoundary_byteSize source
  · exact h.stands.isBoundary

theorem Marked.advance (h : Marked source c) (n : Nat) : Marked source (c.advance n) :=
  h.of_faults (h.sound.advance n) rfl

theorem Marked.report {offset : Nat} {cause : Cause} (h : Marked source c)
    (hoffset : IsBoundary source offset) (hcause : cause.isFallback = false) :
    Marked source (c.report offset cause) := by
  rcases report_cases c offset cause with hsame | ⟨-, hfaults, -⟩
  · rwa [hsame]
  · refine ⟨h.sound.report offset hcause, ?_⟩
    rw [hfaults]
    exact List.forall_mem_append.mpr ⟨h.faults, List.forall_mem_singleton.mpr hoffset⟩

theorem Marked.reportHere {cause : Cause} (h : Marked source c)
    (hcause : cause.isFallback = false) : Marked source (c.reportHere cause) :=
  h.report h.sound.isBoundary_offset hcause

theorem Marked.bareName (h : Marked source c) (dollar : Nat) :
    Marked source (c.bareName dollar).2.2 := by
  have hsound := h.sound.bareName dollar
  have hreport : Marked source (c.reportHere .missingName) := h.reportHere rfl
  unfold Cursor.bareName at hsound ⊢
  split
  · exact hreport
  · next t ts hrest =>
    rw [hrest] at hsound
    dsimp only at hsound
    split
    · exact hreport
    · exact h.advance 1
    · next hkind =>
      rw [hkind] at hsound
      dsimp only at hsound
      split
      · next x y w htext =>
        rw [htext] at hsound
        exact h.of_faults hsound rfl
      · exact h.advance 1
    · exact h.advance 1

theorem Marked.closeReference (h : Marked source c) (b : Bracket) (name : Phrase.Body) :
    Marked source (c.closeReference b name) := by
  unfold Cursor.closeReference
  split
  · exact h.advance 1
  · exact h.reportHere rfl

theorem Marked.comment (h : Marked source c) : Marked source c.comment :=
  h.of_faults h.sound.comment rfl

theorem Marked.recipeLine (h : Marked source c) : Marked source c.recipeLine.2 :=
  (h.advance _).advance 1

theorem Marked.record (h : Marked source c) (content : Content) (start : Nat) :
    Marked source (c.record content start) :=
  h.of_faults (h.sound.record content start) rfl

/-! ## Phrases -/

theorem ReadsBody.marked (h : ReadsBody place depth c body d) (hc : Marked source c) :
    Marked source d := by
  induction h with
  | finish hstop => exact hc
  | literal hnext htake hrest ih => exact ih (hc.advance 1)
  | backslash hnext => exact (hc.reportHere rfl).advance 1
  | comment hnext hends => exact hc.comment
  | bracketed hnext hopen hname hrest ihname ih =>
    exact ih ((ihname (hc.advance 2)).closeReference _ _)
  | bare hnext hopen hrest ih => exact ih ((hc.advance 1).bareName _)

theorem Marked.phrase (h : Marked source c) (place : Place) : Marked source (c.phrase place).2 :=
  (reads_phrase place c).marked h

theorem ReadsPrerequisites.marked (h : ReadsPrerequisites c body d) (hc : Marked source c) :
    Marked source d := by
  induction h with
  | last hbody hstop => exact hbody.marked hc
  | more hfirst hcolon hrest ih => exact ih ((hfirst.marked hc).advance 1)

/-! ## Statements -/

theorem Marked.defineArguments (h : Marked source c) : Marked source c.defineArguments.2 := by
  have hskip : Marked source c.skipBlanks := h.advance _
  unfold Cursor.defineArguments
  dsimp only
  split
  · exact hskip.advance _
  · exact (hskip.reportHere rfl).advance _

theorem Marked.directive (h : Marked source c) (keyword : Keyword) :
    Marked source (c.directive keyword) := by
  have hone := h.advance 1
  have hphrase : Marked source ((c.advance 1).skipBlanks.phrase .line).2 :=
    Marked.phrase (hone.advance _) .line
  have harguments : Marked source ((c.advance 1).directiveArguments keyword).2 := by
    unfold directiveArguments
    split
    · exact hone
    · exact hone
    · exact hone
    · exact hone.defineArguments
    · exact hphrase
  exact harguments.record _ _

theorem Marked.skipBreak (h : Marked source c) : Marked source c.skipBreak := by
  unfold Cursor.skipBreak
  split
  · exact h.advance 1
  · exact h

/-- An assignment without a name is reported where it starts: at its target if it has one. -/
theorem Marked.assignment {op : AssignOp} {target : Option Phrase} {name : Phrase}
    (h : Marked source c) (hpos : IsBoundary source (target.elim name.pos Phrase.pos)) :
    Marked source (c.assignment op target name) := by
  have hvalue := (h.advance 1).phrase .line
  unfold Cursor.assignment
  dsimp only
  split
  · refine hvalue.report ?_ rfl
    cases target with
    | none => exact hpos
    | some t => exact hpos
  · exact hvalue.record _ _

theorem ReadsRecipe.marked {lines : Text} (h : ReadsRecipe c lines d) (hc : Marked source c) :
    Marked source d := by
  induction h with
  | line htab hrest ih => exact ih (hc.advance _).recipeLine
  | directive htab hkeyword hrest ih => exact ih (hc.directive _).skipBreak
  | stop htab hkeyword => exact hc

theorem Marked.recipeStart (h : Marked source c) (firstLine : Bool) :
    Marked source (recipeStart firstLine c).2 := by
  unfold Cursor.recipeStart
  split
  · exact h.recipeLine
  · exact h

theorem Marked.recipe (h : Marked source c) (target prerequisites : Phrase) (firstLine : Bool) :
    Marked source (c.recipe target prerequisites firstLine) := by
  have hsound := h.sound.recipe target prerequisites firstLine
  obtain ⟨lines, d, hlines, heq⟩ := exists_recipe target prerequisites firstLine c
  have hstart := h.recipeStart firstLine
  have hinside := hlines.marked (hstart.of_faults (hstart.sound.congr rfl rfl rfl rfl) rfl)
  rw [heq] at hsound ⊢
  exact hinside.of_faults hsound rfl

theorem OpensRecipe.marked {firstLine : Bool} (h : OpensRecipe mid firstLine next)
    (hbody : ReadsPrerequisites c body mid) (hc : Marked source c) : Marked source next := by
  have hmid := hbody.marked hc
  cases h with
  | semicolon hnext => exact (hmid.advance 1).advance _
  | newline hnext => exact hmid.advance 1
  | comment hnext => exact hmid.comment
  | nothing hnext => exact hmid
  | unexpected kind hnext hkind => exact absurd (hbody.ends hc.sound hnext) hkind

theorem Marked.rule {target : Phrase} (h : Marked source c)
    (hpos : IsBoundary source target.pos) : Marked source (c.rule target) := by
  have hskip : Marked source c.skipBlanks := h.advance _
  have hrule := readsRule_rule target c
  generalize c.rule target = d at hrule
  cases hrule with
  | assignment hbody hnext => exact (hbody.marked hskip).assignment hpos
  | simple hbody hnext => exact ((hbody.marked hskip).advance 1).assignment hpos
  | recipe hbody hopens => exact (hopens.marked hbody hskip).recipe _ _ _

theorem ReadsOperator.marked {op : AssignOp} (h : ReadsOperator c op next)
    (hc : Marked source c) : Marked source next := by
  cases h with
  | recursive hequals => exact hc
  | conditional hquestion hequals => exact hc.advance 1
  | simple hcolon hequals => exact hc.advance 1
  | double hcolon hcolon' hequals => exact hc.advance 2

theorem ReadsColons.marked (h : ReadsColons c next) (hc : Marked source c) :
    Marked source next := by
  cases h with
  | single hcolon hequals hcolon' => exact hc.advance 1
  | double hcolon hcolon' hequals => exact hc.advance 2

theorem Marked.noted {phrase : Phrase} (h : Marked source c)
    (hpos : IsBoundary source phrase.pos) : Marked source (c.noted phrase) := by
  unfold Cursor.noted
  split
  · exact h.record _ _
  · split
    · exact h
    · exact h.report hpos rfl

theorem Marked.endLine (h : Marked source c) : Marked source c.endLine := by
  unfold Cursor.endLine
  split
  · exact h.comment
  · exact h.advance 1

/-- **A statement notes its faults at boundaries**: its first phrase starts at one. -/
theorem Marked.statement (h : Marked source c) : Marked source c.statement := by
  have hstart := h.sound.isBoundary_offset
  have hstatement := readsStatement_statement c
  generalize c.statement = d at hstatement
  cases hstatement with
  | directive hkeyword => exact h.directive _
  | assignment hkeyword hhead hop => exact (hop.marked (hhead.marked h)).assignment hstart
  | rule hkeyword hhead hcolons => exact (hcolons.marked (hhead.marked h)).rule hstart
  | @lone mid head hkeyword hhead hnext =>
    have hnoted : Marked source (mid.noted ⟨c.offset, head⟩) := (hhead.marked h).noted hstart
    rw [loneLine_eq]
    exact hnoted.endLine
  | expectedEquals hkeyword hhead hquestion hequals =>
    exact ((((hhead.marked h).advance 1).reportHere rfl).advance _).advance 1
  | unexpected hkeyword hhead hnext hkind => exact absurd (hhead.ends_head h.sound hnext) hkind

theorem ReadsLines.marked (h : ReadsLines c d) (hc : Marked source c) : Marked source d := by
  induction h with
  | done hrest => exact hc.advance _
  | statement hrest hlines ih => exact ih (Marked.statement (hc.advance _))

end Cursor

/-! ## Texts -/

theorem marked_readText (source : Text) : Cursor.Marked source (readText source) :=
  (Cursor.readsLines_readText source).marked (Cursor.marked_start source)

/-- A fault at a boundary is located by the lines in front of it. -/
theorem Fault.locate_of_isBoundary {source : Text} {f : Fault} (h : IsBoundary source f.offset) :
    ∃ earlier current after, source = earlier ++ current ++ after ∧
      (earlier = [] ∨ Text.EndsWithBreak earlier) ∧ '\n' ∉ current ∧
      (f.locate source).offset = byteSize (earlier ++ current) ∧
      (f.locate source).line = (earlier ++ current).count '\n' + 1 ∧
      (f.locate source).column = (f.locate source).offset - byteSize earlier + 1 := by
  obtain ⟨before, after, rfl, hsize⟩ := h
  obtain ⟨earlier, current, rfl, hearlier, hcurrent⟩ := Text.exists_currentLine before
  refine ⟨earlier, current, after, rfl, hearlier, hcurrent, hsize.symm, ?_, ?_⟩
  · unfold locate
    rw [← hsize, Text.lineAt_boundary]
  · unfold locate
    rw [← hsize, Text.columnAt_boundary hearlier hcurrent]

/-- A statement between boundaries is on the lines of its first and its last byte. -/
theorem lines_locate {source : Text} {span : Span} (content : Content)
    (hstart : IsBoundary source span.start) (hstop : IsBoundary source span.stop)
    (hlt : span.start < span.stop) :
    ∃ before front c after, source = before ++ front ++ [c] ++ after ∧
      span = ⟨byteSize before, byteSize (before ++ front ++ [c])⟩ ∧
      (locate source content span).lines =
        ⟨before.count '\n' + 1, (before ++ front).count '\n' + 1⟩ := by
  obtain ⟨before, part, after, rfl, hne, hlo, hhi⟩ := Text.exists_part hstart hstop hlt
  obtain ⟨front, c, rfl⟩ : ∃ front c, part = front ++ [c] :=
    ⟨_, _, (List.dropLast_append_getLast hne).symm⟩
  rw [← List.append_assoc] at hhi
  refine ⟨before, front, c, after, by rw [← List.append_assoc], ?_, ?_⟩
  · rw [hlo, hhi]
  · unfold locate
    dsimp only
    rw [if_pos hlt, ← hlo, ← hhi, ← List.append_assoc before front, Text.lineAt_lastByte,
      List.append_assoc (before ++ front), List.append_assoc before, Text.lineAt_boundary]

/-- **Positions are right.** For every text, in bytes,

* an error is at a boundary between two characters or at an end of the text; its line is one more
  than the number of line feeds in front of it, and its column is one more than its distance from
  the end of the last of them, or from the start of the text;
* a statement is a part of the text that is not empty, from a boundary to a boundary; its lines are
  those of its first and its last byte. -/
theorem parse_located (source : Text) :
    (∀ e ∈ (parse source).errors, ∃ earlier current after,
      source = earlier ++ current ++ after ∧
      (earlier = [] ∨ Text.EndsWithBreak earlier) ∧ '\n' ∉ current ∧
      e.offset = byteSize (earlier ++ current) ∧
      e.line = (earlier ++ current).count '\n' + 1 ∧
      e.column = e.offset - byteSize earlier + 1) ∧
    (∀ s ∈ (parse source).statements, ∃ before front c after,
      source = before ++ front ++ [c] ++ after ∧
      s.span = ⟨byteSize before, byteSize (before ++ front ++ [c])⟩ ∧
      s.lines = ⟨before.count '\n' + 1, (before ++ front).count '\n' + 1⟩) := by
  refine ⟨fun e he => ?_, fun s hs => ?_⟩
  · obtain ⟨f, hf, rfl⟩ := List.mem_map.mp he
    exact Fault.locate_of_isBoundary ((marked_readText source).faults f hf)
  · obtain ⟨l, hl, -, hbounds, -⟩ := exists_interleave source
    rw [hl] at hs
    obtain ⟨⟨content, span⟩, hmem, rfl⟩ := List.mem_map.mp hs
    obtain ⟨hlt, hstart, hstop⟩ := hbounds _ hmem
    exact lines_locate content hstart hstop hlt

/-- A character of two bytes in front of a fault on the second line. -/
example : (parse ['\n', 'é', '?', 'x']).errors.map (fun e => (e.offset, e.line, e.column)) =
    [(4, 2, 4)] := by decide

end MakeBlueprint.Makefile
