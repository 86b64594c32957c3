import MakeBlueprint.Proofs.Reading.Written.Assignment
import MakeBlueprint.Proofs.Reading.Written.Directive
import MakeBlueprint.Proofs.Reading.Written.Rule

/-!
# Reading a statement that was dumped

Every statement of a plain text without faults is a statement that can be written
(`writable_of_mem_parse`), and what can be written is read again (`Content.Writable.readsAgain`).
Here the two halves meet: its makefile text is a makefile with this one statement
(`Content.Writable.parse_eq`, `parse_dump`).
-/

namespace MakeBlueprint.Makefile

open Text (IsPlain)
open Token (lex kindOf)
open Phrase (Body)

variable {content : Content} {s t : Text}

/-! ## All statements -/

namespace Content.Writable

theorem isPlain_assignment {name value : Text} (hname : IsPlain name) (op : AssignOp)
    (hvalue : IsPlain value) :
    IsPlain (name ++ " ".toList ++ op.text ++ " ".toList ++ value) := by
  have hop : IsPlain (" ".toList ++ op.text ++ " ".toList) := by cases op <;> decide
  have hboth := Text.isPlain_append.mpr ⟨Text.isPlain_append.mpr ⟨hname, hop⟩, hvalue⟩
  simpa only [List.append_assoc] using hboth

theorem isPlain_lines {recipe : Text} (hrecipe : IsPlain recipe)
    (hlast : recipe.getLast? ≠ some '\n') :
    IsPlain ((Text.lines recipe).flatMap fun l => '\n' :: '\t' :: l) := by
  by_cases hnil : recipe = []
  · subst hnil
    exact Text.isPlain_nil
  · have hreturn : '\r' ∉ recipe := fun hr => (hrecipe _ hr).2.2 rfl
    have hwhole : IsPlain (recipe ++ ['\n']) := Text.isPlain_append.mpr ⟨hrecipe, by decide⟩
    rw [← (Text.flatMap_lines hreturn hnil hlast).1] at hwhole
    intro x hx
    obtain ⟨l, hl, hx⟩ := List.mem_flatMap.mp hx
    have hline : IsPlain l := fun y hy =>
      hwhole y (List.mem_flatMap.mpr ⟨l, hl, List.mem_append_left _ hy⟩)
    have htab : IsPlain ['\n', '\t'] := by decide
    exact Text.isPlain_append.mpr ⟨htab, hline⟩ x hx

/-- What can be written is plain text. -/
theorem isPlain_dump (h : content.Writable) : IsPlain content.dump := by
  cases h with
  | @assignment name value op hname hne hvalue =>
    exact isPlain_assignment hname.fits.plain op hvalue.fits.plain
  | @targeted target name value op htarget hname hne hmark hvalue =>
    have hcolon : IsPlain (target.body.dump ++ ": ".toList) :=
      Text.isPlain_append.mpr ⟨htarget.fits.plain, by decide⟩
    exact Text.isPlain_append.mpr
      ⟨hcolon, isPlain_assignment hname.fits.plain op hvalue.fits.plain⟩
  | @rule target prerequisites recipe htarget hprerequisites hrecipe hlast =>
    have hcolon : IsPlain (target.body.dump ++ ": ".toList) :=
      Text.isPlain_append.mpr ⟨htarget.fits.plain, by decide⟩
    have hline := Text.isPlain_append.mpr ⟨hcolon, hprerequisites.fits.plain⟩
    exact Text.isPlain_append.mpr ⟨hline, isPlain_lines hrecipe hlast⟩
  | @reference r hfits =>
    have hdump : (Body.ofReference r).dump = r.dump := List.append_nil _
    have hplain := hfits.plain
    rwa [hdump] at hplain
  | @alone keyword pos hkeyword =>
    rw [Cursor.dump_alone hkeyword]
    exact keyword.isPlain_text
  | @directive keyword arguments hkeyword harguments =>
    have hblank : IsPlain (' ' :: arguments.body.dump) :=
      Text.isPlain_cons.mpr ⟨by decide, harguments.fits.plain⟩
    rw [Cursor.dump_arguments fun h => hkeyword (h ▸ List.mem_cons_self)]
    split
    · exact keyword.isPlain_text
    · exact Text.isPlain_append.mpr ⟨keyword.isPlain_text, hblank⟩
  | @define pos text hblock =>
    rw [Cursor.dump_define]
    have hword : IsPlain ("define ".toList ++ text) :=
      Text.isPlain_append.mpr ⟨by decide, hblock.plain⟩
    exact Text.isPlain_append.mpr ⟨hword, by decide⟩

/-- **All statements that can be written are read again.** -/
theorem readsAgain {c : Cursor} (h : content.Writable)
    (hc : c.rest = lex (content.dump ++ ['\n'])) :
    c.ReadsAgain content c.statement := by
  have hplain : IsPlain (content.dump ++ ['\n']) :=
    Text.isPlain_append.mpr ⟨h.isPlain_dump, by decide⟩
  cases h with
  | assignment hname hne hvalue => exact Cursor.readsAgain_plain hname hne hvalue hc hplain
  | targeted htarget hname hne hmark hvalue =>
    exact Cursor.readsAgain_targeted htarget hname hne hmark hvalue hc hplain
  | rule htarget hprerequisites hrecipe hlast =>
    exact Cursor.readsAgain_rule htarget hprerequisites hrecipe hlast hc hplain
  | reference hfits => exact Cursor.readsAgain_reference hfits hc hplain
  | alone hkeyword => exact Cursor.readsAgain_alone hkeyword hc
  | directive hkeyword harguments => exact Cursor.readsAgain_directive hkeyword harguments hc hplain
  | define hblock => exact Cursor.readsAgain_define hblock hc hplain

end Content.Writable

/-! ## The start of a statement -/

theorem StartsLine.visible (h : StartsLine s) (hs : s ≠ []) : ∃ x ∈ s.head?, Visible x := by
  obtain ⟨u, -, hvisible⟩ := h
  obtain ⟨x, s, rfl⟩ := List.exists_cons_of_ne_nil hs
  exact ⟨x, rfl, hvisible x rfl⟩

/-- A target may be empty; then its colon is seen. -/
theorem StartsLine.visible_append (h : StartsLine s) (hcolon : ∃ x ∈ t.head?, Visible x) :
    ∃ x ∈ (s ++ t).head?, Visible x := by
  by_cases hs : s = []
  · rw [hs]
    exact hcolon
  · obtain ⟨x, hx, hvisible⟩ := h.visible hs
    exact ⟨x, List.mem_head?_append_of_mem_head? hx, hvisible⟩

theorem Keyword.visible_append (keyword : Keyword) (t : Text) :
    ∃ x ∈ (keyword.text ++ t).head?, Visible x := by
  have hne : keyword.text ≠ [] := by cases keyword <;> decide
  obtain ⟨x, w, hword⟩ := List.exists_cons_of_ne_nil hne
  have hletter : kindOf x = .identifier := by
    have hx := keyword.isLetter_text x (by rw [hword]; exact List.mem_cons_self)
    simpa [Token.isLetter] using hx
  refine ⟨x, by rw [hword]; rfl, ?_⟩
  unfold Visible
  rw [hletter]
  decide

/-- Nothing is skipped in front of a statement. -/
theorem Content.Writable.visible (h : content.Writable) : ∃ x ∈ content.dump.head?, Visible x := by
  have htarget : ∀ {target : Body}, target.IsHead →
      ∃ x ∈ (target.dump ++ ": ".toList).head?, Visible x := fun h =>
    h.startsLine.visible_append ⟨':', by decide, by decide⟩
  have happend : ∀ {s t : Text}, (∃ x ∈ s.head?, Visible x) → ∃ x ∈ (s ++ t).head?, Visible x :=
    fun ⟨x, hx, hvisible⟩ => ⟨x, List.mem_head?_append_of_mem_head? hx, hvisible⟩
  cases h with
  | @assignment name value op hname hne hvalue =>
    have hfirst := hname.startsLine.visible (mt Body.dump_eq_nil_iff.mp hne)
    exact happend (happend (happend (happend hfirst)))
  | @targeted target name value op hhead hname hne hmark hvalue => exact happend (htarget hhead)
  | @rule target prerequisites recipe hhead hprerequisites hrecipe hlast =>
    exact happend (happend (htarget hhead))
  | @reference r hfits =>
    obtain ⟨u, hu⟩ := Cursor.exists_wrap_eq r.delimiter r.name.dump
    have hdump : (Content.reference r).dump = '$' :: u := hu
    rw [hdump]
    exact ⟨'$', rfl, by decide⟩
  | @alone keyword pos hkeyword =>
    rw [Cursor.dump_alone hkeyword, ← List.append_nil keyword.text]
    exact keyword.visible_append []
  | @directive keyword arguments hkeyword harguments =>
    rw [Cursor.dump_arguments fun h => hkeyword (h ▸ List.mem_cons_self)]
    split
    · rw [← List.append_nil keyword.text]
      exact keyword.visible_append []
    · exact keyword.visible_append _
  | @define pos text hblock =>
    rw [Cursor.dump_define]
    exact Keyword.visible_append .define _

/-- A cursor in front of a character that is not skipped stays where it is. -/
theorem Cursor.skipSpace_of_visible {c : Cursor} (hc : c.rest = lex s) (hplain : IsPlain s)
    (hvisible : ∃ x ∈ s.head?, Visible x) : c.skipSpace = c := by
  obtain ⟨x, hx, hblank, hnewline⟩ := hvisible
  obtain ⟨s, rfl⟩ := List.head?_eq_some_iff.mp hx
  have hspace : ¬ ((kindOf x).isBlank || kindOf x == .newline) = true := by
    rw [hblank]
    simpa using hnewline
  have hskip := @skipWhile_eq _ _ (fun k => k.isBlank || k == .newline) rfl hc hplain
  rw [List.takeWhile_cons, if_neg hspace, List.dropWhile_cons, if_neg hspace, upTo_nil hc] at hskip
  exact hskip

/-! ## The round trip -/

/-- A text that is read with one statement holds this statement and nothing else. -/
theorem Cursor.parse_eq_singleton {source : Text} {content : Content} {span : Span}
    (hskip : (start source).skipSpace = start source) (hne : (start source).rest ≠ [])
    (hrest : (start source).statement.skipSpace.rest = [])
    (hstatements : (start source).statement.statements = [(content, span)])
    (hcomments : (start source).statement.comments = [])
    (hfaults : (start source).statement.faults = []) :
    parse source = ⟨[locate source content span], []⟩ := by
  have hlines : ReadsLines (start source) (start source).statement.skipSpace :=
    .statement (by rwa [hskip]) (by rw [hskip]; exact .done hrest)
  have hread : readText source = (start source).statement.skipSpace :=
    hlines.eq_readAll (Nat.le_refl _)
  have hstatements : (start source).statement.skipSpace.statements = _ := hstatements
  have hcomments : (start source).statement.skipSpace.comments = _ := hcomments
  have hfaults : (start source).statement.skipSpace.faults = _ := hfaults
  unfold parse
  dsimp only
  rw [hread, hstatements, hcomments, hfaults]
  rfl

/-- A text with nothing but one statement. -/
theorem Cursor.ReadsAgain.parse_eq
    (h : ReadsAgain content (start t) (start t).statement) (hskip : (start t).skipSpace = start t)
    (ht : t ≠ []) : (parse t).errors = [] ∧ ∃ s, (parse t).statements = [s] ∧
      s.content.mapPos (fun _ => 0) = content.mapPos (fun _ => 0) := by
  obtain ⟨hrest, hcomments, hfaults, content', span, hstatements, hsame⟩ := h
  rw [parse_eq_singleton hskip (mt Token.lex_eq_nil_iff.mp ht) hrest hstatements hcomments hfaults]
  exact ⟨rfl, _, rfl, hsame⟩

/-- **The makefile text of a statement that can be written** is a makefile with this statement. -/
theorem Content.Writable.parse_eq (h : content.Writable) :
    (parse (content.dump ++ ['\n'])).errors = [] ∧
      ∃ s, (parse (content.dump ++ ['\n'])).statements = [s] ∧
        s.content.mapPos (fun _ => 0) = content.mapPos (fun _ => 0) := by
  have hplain : IsPlain (content.dump ++ ['\n']) :=
    Text.isPlain_append.mpr ⟨h.isPlain_dump, by decide⟩
  obtain ⟨x, hx, hvisible⟩ := h.visible
  have hskip := Cursor.skipSpace_of_visible (c := Cursor.start (content.dump ++ ['\n'])) rfl hplain
    ⟨x, List.mem_head?_append_of_mem_head? hx, hvisible⟩
  exact (h.readsAgain rfl).parse_eq hskip
    (List.append_ne_nil_of_right_ne_nil _ (List.cons_ne_nil _ _))

/-- **A statement that is dumped is read again.** Its text is a makefile without faults and with
this one statement, which is the same but for its positions. -/
theorem parse_dump (t : Text) (hplain : IsPlain t) (herrors : (parse t).errors = []) :
    ∀ s ∈ (parse t).statements, (parse (s.content.dump ++ ['\n'])).errors = [] ∧
      ∃ s', (parse (s.content.dump ++ ['\n'])).statements = [s'] ∧
        s'.content.mapPos (fun _ => 0) = s.content.mapPos (fun _ => 0) :=
  fun _ hs => (writable_of_mem_parse hplain herrors hs).parse_eq

/-- An assignment with a target, between directives, and a rule with a recipe. -/
theorem parse_dump_conditional :
    let t : Text := "ifdef a\nx: y += $(a)\nendif\nb: c\n\td\n".toList
    IsPlain t ∧ (parse t).errors = [] ∧ (parse t).statements.length = 4 ∧
      ∀ s ∈ (parse t).statements, (parse (s.content.dump ++ ['\n'])).errors = [] ∧
        ∃ s', (parse (s.content.dump ++ ['\n'])).statements = [s'] ∧
          s'.content.mapPos (fun _ => 0) = s.content.mapPos (fun _ => 0) := by
  intro t
  have hplain : IsPlain t := by decide
  have herrors : (parse t).errors = [] := by decide
  exact ⟨hplain, herrors, by decide, parse_dump t hplain herrors⟩

end MakeBlueprint.Makefile
