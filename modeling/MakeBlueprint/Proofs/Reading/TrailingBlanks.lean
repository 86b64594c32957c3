import MakeBlueprint.Proofs.Reading.Padded.Statements
import MakeBlueprint.Proofs.Reading.RecipeLines

/-!
# Trailing blanks do not matter

Blanks in front of a line break make no difference to a text that is read without errors, if the
line break is outside of comments, definitions and recipes (`Padding.Outside`), and not where the
reader wants the line to end at once (`Padding.Unbound`).

* `Cursor.ReadsLines.beside`: all statements are read side by side.
* `Padding.parse_padded`: the padded text has no errors either, and the same statements up to their
  positions. `parse_padded_inRule` is a case.
* `Padding.not_parse_padded_behindRule`: an empty line behind a rule is a line of its recipe once
  there is a tab in it.
-/

namespace MakeBlueprint.Makefile

open Cursor

variable {t : Text} {k : Padding t}

/-- **All statements are read side by side.** -/
theorem Cursor.ReadsLines.beside {c c' d : Cursor} (h : ReadsLines c d) (hc : k.Near c c')
    (hstands : StandsIn t c) (hd : k.Clear d) (hlines : ∀ line, AnyLine c line → ¬ k.IsIn line)
    (hlines' : ∀ line, AnyLine c' line → ¬ k.IsInPadded line) :
    ∃ d', ReadsLines c' d' ∧ k.Beside d d' := by
  induction h generalizing c' with
  | done hrest => exact ⟨_, .done (hc.rests.rest_eq_nil_iff.mpr hrest), hc⟩
  | @statement c d hrest hread ih =>
    have hskip : StandsIn t c.skipSpace := hstands.advance _
    have hrest' : c'.skipSpace.rest ≠ [] := mt hc.rests.rest_eq_nil_iff.mp hrest
    have hnewline : c.skipSpace.kindAt 0 ≠ some .newline := by
      intro hkind
      obtain ⟨u, us, hcons, hu⟩ := exists_of_kindAt hkind
      have hhead := List.head?_dropWhile_not (fun u : Token => u.kind.isBlank || u.kind == .newline)
        c.rest
      have hdrop : c.rest.dropWhile (fun u => u.kind.isBlank || u.kind == .newline) = u :: us :=
        (rest_skipWhile _ c).symm.trans hcons
      simp [hdrop, hu] at hhead
    have hbehind := findsAll_statement hskip hrest
    obtain ⟨ss, cs, hfinds, -⟩ := hread.findsAll hbehind.stands
    have hstatement := hc.statement hskip hrest hnewline (hd.of_finds hfinds)
      (fun line hline => hlines line (.here hrest hline))
      (fun line hline => hlines' line (.here hrest' hline))
    obtain ⟨d', hread', hdone⟩ := ih hstatement hbehind.stands hd
      (fun line hline => hlines line (.later hrest hline))
      (fun line hline => hlines' line (.later hrest' hline))
    exact ⟨d', .statement hrest' hread', hdone⟩

namespace Padding

/-- **The line break is outside** of comments, definitions and the lines of recipes. The blanks do
not put it into a line of a recipe either. -/
structure Outside (k : Padding t) : Prop where
  comments : ∀ s ∈ (parse t).statements, s.content.isComment = true → ¬ k.IsIn s.span
  definitions : ∀ s ∈ (parse t).statements, s.content.isDefinition = true → ¬ k.IsIn s.span
  recipes : ∀ line, IsRecipeLine t line → ¬ k.IsIn line
  paddedRecipes : ∀ line, IsRecipeLine k.padded line → ¬ k.IsInPadded line

/-- **The line need not end at once**: neither a reference on a line of its own ends there, nor a
directive in the recipe of a rule that goes on, nor a definition in a recipe, in front of carriage
returns. -/
structure Unbound (k : Padding t) : Prop where
  references : ∀ s ∈ (parse t).statements, s.content.isReference = true → s.span.stop ≠ k.position
  directives : ∀ s ∈ (parse t).statements, s.content.isDirective = true →
    s.span.stop = k.position → (s.content.isBare = true ∨
      ∃ q ∈ (parse t).statements, q.content.isComment = true ∧ q.span.stop = k.position) →
    ∀ r ∈ (parse t).statements, r.content.isRule = true → r.span.start ≤ k.position →
      r.span.stop ≤ k.breakEnd
  definitions : ∀ s ∈ (parse t).statements, s.content.isDefinition = true →
    k.returns ≤ s.span.stop → s.span.stop < k.position →
    ∀ r ∈ (parse t).statements, r.content.isRule = true →
      ¬ (r.span.start ≤ s.span.start ∧ s.span.stop ≤ r.span.stop)

/-- A text without errors makes room for the blanks. -/
theorem clear_readText (herrors : (parse t).errors = []) (hout : k.Outside) (hfree : k.Unbound) :
    k.Clear (readText t) := by
  have hstatement : ∀ s ∈ (readText t).statements, locate t s.1 s.2 ∈ (parse t).statements :=
    fun s hs => List.mem_map_of_mem (mem_interleave.mpr (.inl hs))
  obtain ⟨ss, cs, hfinds, -⟩ := (readsLines_readText t).findsAll (standsIn_start t)
  have hcomments : (readText t).comments = cs := hfinds.comments
  have hcomment : ∀ s ∈ (readText t).comments,
      locate t s.1 s.2 ∈ (parse t).statements ∧ s.1.isComment = true := fun s hs =>
    ⟨List.mem_map_of_mem (mem_interleave.mpr (.inr hs)), hfinds.laid.kinds s (hcomments ▸ hs)⟩
  constructor
  · exact List.map_eq_nil_iff.mp herrors
  · exact fun s hs =>
      ⟨hfree.references _ (hstatement s hs), hout.definitions _ (hstatement s hs)⟩
  · exact fun s hs => hout.comments _ (hcomment s hs).1 (hcomment s hs).2
  · rintro s hs ⟨hdirective, hstop, hbare⟩ r hr
    refine hfree.directives _ (hstatement s hs) hdirective hstop (hbare.imp_right ?_) _
      (hstatement r hr)
    rintro ⟨q, hq, hqstop⟩
    exact ⟨_, (hcomment q hq).1, (hcomment q hq).2, hqstop⟩
  · rintro s hs ⟨hdefinition, hreturns, hstop⟩ r hr
    exact hfree.definitions _ (hstatement s hs) hdefinition hreturns hstop _ (hstatement r hr)

/-- The starts of both texts are side by side. -/
theorem beside_start (k : Padding t) : k.Beside (start t) (start k.padded) where
  rests := .before k.lex_eq k.lex_padded (Nat.zero_add _) rfl k.not_escape
  statements := .nil
  comments := .nil
  faults := rfl

/-- **Trailing blanks do not matter.** A text without errors has none either with blanks in front of
a line break, and it has the same statements up to their positions. -/
theorem parse_padded (k : Padding t) (herrors : (parse t).errors = []) (hout : k.Outside)
    (hfree : k.Unbound) :
    (parse k.padded).errors = [] ∧
    (parse k.padded).statements.map (fun s => s.content.mapPos forget) =
      (parse t).statements.map (fun s => s.content.mapPos forget) := by
  obtain ⟨d', hread, hdone⟩ := (readsLines_readText t).beside k.beside_start.near
    (standsIn_start t) (clear_readText herrors hout hfree) hout.recipes hout.paddedRecipes
  have hpadded : readText k.padded = d' := hread.eq_readAll (Nat.le_refl _)
  have hmatches := forall₂_interleave hdone.statements hdone.comments fun s s' q q' hs hq => by
    rw [hs.start, hq.start, k.place_lt_place]
  constructor
  · have hfaults := hdone.faults
    rw [← hpadded, List.map_eq_nil_iff.mp herrors] at hfaults
    exact List.map_eq_nil_iff.mpr hfaults
  · unfold parse
    rw [hpadded, List.map_map, List.map_map, ← List.forall₂_eq_eq_eq, List.forall₂_map_left_iff,
      List.forall₂_map_right_iff]
    exact (hmatches.imp fun s s' hs => hs.content).flip

/-- Blanks behind the last directive of a recipe. -/
def inRule : Padding "a: $(b)\n\tc\nendif\nX := 1\n" where
  before := Token.lex "a: $(b)\n\tc\nendif"
  newline := ⟨.newline, "\n"⟩
  behind := Token.lex "X := 1\n"
  blanks := [' ', '\t']
  lex_eq := by decide +kernel
  kind_eq := rfl
  not_escape := by decide +kernel
  isBlank := List.forall_mem_cons.mpr ⟨rfl, List.forall_mem_singleton.mpr rfl⟩

theorem parse_padded_inRule :
    (parse "a: $(b)\n\tc\nendif\nX := 1\n").errors = [] ∧ inRule.Outside ∧ inRule.Unbound ∧
    inRule.padded = "a: $(b)\n\tc\nendif \t\nX := 1\n" ∧ (parse inRule.padded).errors = [] ∧
    (parse inRule.padded).statements.map (fun s => s.content.mapPos forget) =
      (parse "a: $(b)\n\tc\nendif\nX := 1\n").statements.map fun s => s.content.mapPos forget := by
  have herrors : (parse "a: $(b)\n\tc\nendif\nX := 1\n").errors = [] := by decide +kernel
  have hout : inRule.Outside := by
    refine ⟨by decide +kernel, by decide +kernel, fun line hline => ?_, fun line hline => ?_⟩
    · exact (by decide +kernel : ∀ line ∈ recipeLines "a: $(b)\n\tc\nendif\nX := 1\n",
        ¬ inRule.IsIn line) line (mem_recipeLines_iff.mpr hline)
    · exact (by decide +kernel : ∀ line ∈ recipeLines inRule.padded, ¬ inRule.IsInPadded line) line
        (mem_recipeLines_iff.mpr hline)
  have hfree : inRule.Unbound := ⟨by decide +kernel, by decide +kernel, by decide +kernel⟩
  exact ⟨herrors, hout, hfree, by decide +kernel, parse_padded inRule herrors hout hfree⟩

/-- A tab and a blank on an empty line behind a rule. -/
def behindRule : Padding "a:\n\nX := 1\n" where
  before := Token.lex "a:\n"
  newline := ⟨.newline, "\n"⟩
  behind := Token.lex "X := 1\n"
  blanks := ['\t', ' ']
  lex_eq := by decide +kernel
  kind_eq := rfl
  not_escape := by decide +kernel
  isBlank := List.forall_mem_cons.mpr ⟨rfl, List.forall_mem_singleton.mpr rfl⟩

/-- **Behind a rule blanks do matter** on an empty line: a tab makes it a line of the recipe. -/
theorem not_parse_padded_behindRule :
    (parse "a:\n\nX := 1\n").errors = [] ∧
    (∀ s ∈ (parse "a:\n\nX := 1\n").statements,
      s.content.isComment = true ∨ s.content.isDefinition = true → ¬ behindRule.IsIn s.span) ∧
    (∀ line, IsRecipeLine "a:\n\nX := 1\n" line → ¬ behindRule.IsIn line) ∧
    (∀ u ∈ behindRule.before.getLast?, u.kind ≠ .dollar) ∧
    behindRule.padded = "a:\n\t \nX := 1\n" ∧
    (parse behindRule.padded).statements.map (fun s => s.content.mapPos forget) ≠
      (parse "a:\n\nX := 1\n").statements.map fun s => s.content.mapPos forget := by
  refine ⟨by decide +kernel, by decide +kernel, fun line hline => ?_, by decide +kernel,
    by decide +kernel, by decide +kernel⟩
  exact (by decide +kernel : ∀ line ∈ recipeLines "a:\n\nX := 1\n", ¬ behindRule.IsIn line) line
    (mem_recipeLines_iff.mpr hline)

end Padding

end MakeBlueprint.Makefile
