import MakeBlueprint.Proofs.Reading.Written.Basic

/-!
# Reading written rules and references

* `readsRecipe_lines`: the lines of a recipe, each with a tab in front.
* `readsAgain_rule`: rules, with what is read of them on their first line.
* `readsAgain_reference`: references that stand alone.
-/

namespace MakeBlueprint.Makefile

open Text (IsPlain)
open Token (lex kindOf)
open Phrase (Body)

namespace Cursor

variable {c : Cursor} {s : Text}

/-! ## Rules -/

theorem ne_newline_of_mem_lex {l : Text} (h : '\n' ∉ l) : ∀ t ∈ lex l, t.kind ≠ .newline := by
  intro t ht hkind
  have hmem : ∀ x ∈ t.text, x ∈ l := by
    intro x hx
    rw [← Token.textOf_lex l]
    exact List.mem_flatMap.mpr ⟨t, ht, hx⟩
  have hformed := Token.formed_of_mem_lex l t ht
  unfold Token.Formed at hformed
  rw [hkind] at hformed
  refine h (hmem _ ?_)
  rcases hformed with htext | htext
  · rw [htext]
    exact List.mem_cons_self
  · rw [htext]
    exact List.mem_cons_of_mem _ List.mem_cons_self

/-- A line of a recipe is read up to its end. -/
theorem recipeLine_eq {l : Text} (hc : c.rest = lex (l ++ '\n' :: s))
    (hplain : IsPlain (l ++ '\n' :: s)) (hl : '\n' ∉ l) :
    c.recipeLine = (l ++ ['\n'], c.upTo (l ++ ['\n']) s) := by
  have hbreak : IsPlain ('\n' :: s) := (Text.isPlain_append.mp hplain).2
  have hlex : lex ('\n' :: s) = ⟨.newline, ['\n']⟩ :: lex s := Token.lex_single hbreak (by decide)
  have hrest : c.rest = lex l ++ lex ('\n' :: s) := by
    rw [hc, Token.lex_append_single hplain (by decide), hlex]
    rfl
  have hline : c.line = lex l := by
    unfold line
    rw [hrest, takeWhile_append_of_head? (by rw [hlex]; rintro t ⟨⟩; rfl)]
    exact List.takeWhile_eq_self_iff.mpr fun t ht => by simpa using ne_newline_of_mem_lex hl t ht
  have hbehind : c.skipLine = c.upTo l ('\n' :: s) := by
    unfold skipLine
    rw [hline, advance_tokens hrest, Token.textOf_lex]
  have hmore : ¬ (c.upTo l ('\n' :: s)).rest.isEmpty = true := by
    have hne : (c.upTo l ('\n' :: s)).rest = _ := hlex
    simp [hne]
  unfold recipeLine
  dsimp only
  rw [hbehind, hline, Token.textOf_lex, if_neg hmore, advance_one_eq rfl hbreak (by decide),
    upTo_upTo]

/-- **The lines of a recipe are read again**, each with a tab in front. -/
theorem readsRecipe_lines {ls : List Text} (hls : ∀ l ∈ ls, '\n' ∉ l)
    (hc : c.rest = lex (ls.flatMap fun l => '\t' :: (l ++ ['\n'])))
    (hplain : IsPlain (ls.flatMap fun l => '\t' :: (l ++ ['\n']))) :
    ReadsRecipe c (ls.flatMap fun l => l ++ ['\n'])
      (c.upTo (ls.flatMap fun l => '\t' :: (l ++ ['\n'])) []) := by
  induction ls generalizing c with
  | nil =>
    have hsame : c.upTo [] [] = c := upTo_nil hc
    have hnil : c.rest = [] := hc
    rw [List.flatMap_nil, List.flatMap_nil, hsame]
    exact .stop (by simp [kindAt, hnil]) (by simp [keyword?, hnil])
  | cons l ls ih =>
    obtain ⟨hl, hls⟩ := List.forall_mem_cons.mp hls
    have htext : ((l :: ls).flatMap fun l => '\t' :: (l ++ ['\n'])) =
        '\t' :: (l ++ '\n' :: ls.flatMap fun l => '\t' :: (l ++ ['\n'])) := by
      simp
    rw [htext] at hc hplain ⊢
    have hplainLine := isPlain_tail hplain
    have htab := kindAt_zero_eq hc hplain
    have hbreaks : c.breaks = 0 := by
      obtain ⟨t, ts, hcons, hk⟩ := exists_of_kindAt htab
      unfold breaks
      rw [hcons, List.takeWhile_cons_of_neg (by rw [hk]; decide)]
      rfl
    have hline : (c.advance (c.breaks + 1)).recipeLine = (l ++ ['\n'],
        c.upTo ('\t' :: (l ++ ['\n'])) (ls.flatMap fun l => '\t' :: (l ++ ['\n']))) := by
      rw [hbreaks, Nat.zero_add, advance_one_eq hc hplain (by decide),
        recipeLine_eq rfl hplainLine hl, upTo_upTo]
      rfl
    have hplainRest := isPlain_tail (Text.isPlain_append.mp hplainLine).2
    have hrest := ih hls (c := c.upTo ('\t' :: (l ++ ['\n'])) _) rfl hplainRest
    have hread : ReadsRecipe c ((c.advance (c.breaks + 1)).recipeLine.1 ++
        ls.flatMap fun l => l ++ ['\n']) _ := .line (hbreaks ▸ htab) (by rw [hline]; exact hrest)
    rw [hline, upTo_upTo] at hread
    have hall : '\t' :: (l ++ ['\n']) ++ (ls.flatMap fun l => '\t' :: (l ++ ['\n'])) =
        '\t' :: (l ++ '\n' :: ls.flatMap fun l => '\t' :: (l ++ ['\n'])) := by
      simp
    rwa [hall] at hread

/-- The recipe that the lines of a recipe make up. -/
theorem recipeText_lines {recipe : Text} (hplain : IsPlain recipe)
    (hlast : recipe.getLast? ≠ some '\n') :
    recipeText [] ((Text.lines recipe).flatMap fun l => l ++ ['\n']) = recipe ∧
      ∀ l ∈ Text.lines recipe, '\n' ∉ l := by
  by_cases hnil : recipe = []
  · subst hnil
    exact ⟨rfl, fun l hl => absurd hl List.not_mem_nil⟩
  · have hreturn : '\r' ∉ recipe := fun hr => (hplain _ hr).2.2 rfl
    obtain ⟨hflat, hmem⟩ := Text.flatMap_lines hreturn hnil hlast
    refine ⟨?_, hmem⟩
    have hhead : recipe.reverse.dropWhile (· == '\n') = recipe.reverse := by
      cases hreverse : recipe.reverse with
      | nil => rfl
      | cons x r =>
        rw [← List.head?_reverse, hreverse] at hlast
        exact List.dropWhile_cons_of_neg (by simpa using hlast)
    unfold recipeText Text.dropEndWhile
    rw [hflat, List.nil_append, List.reverse_append, List.reverse_singleton, List.singleton_append,
      List.dropWhile_cons_of_pos (by decide), hhead, List.reverse_reverse]

theorem flatMap_break (ls : List Text) :
    (ls.flatMap fun l => '\n' :: '\t' :: l) ++ ['\n'] =
      '\n' :: ls.flatMap fun l => '\t' :: (l ++ ['\n']) := by
  induction ls with
  | nil => rfl
  | cons l ls ih =>
    rw [List.flatMap_cons, List.append_assoc, ih, List.flatMap_cons]
    simp

/-- **The recipe of a rule is read again**, whatever its target and its prerequisites are. -/
theorem readsAgain_recipe {target target' prerequisites prerequisites' : Phrase} {recipe : Text}
    (hrecipe : IsPlain recipe) (hlast : recipe.getLast? ≠ some '\n')
    (hc : c.rest = lex ((Text.lines recipe).flatMap fun l => '\t' :: (l ++ ['\n'])))
    (hplain : IsPlain ((Text.lines recipe).flatMap fun l => '\t' :: (l ++ ['\n'])))
    (htarget : target'.mapPos (fun _ => 0) = target.mapPos (fun _ => 0))
    (hprerequisites : prerequisites'.mapPos (fun _ => 0) = prerequisites.mapPos (fun _ => 0)) :
    ReadsAgain (.rule ⟨target, prerequisites, recipe⟩) c
      (c.recipe target' prerequisites' false) := by
  obtain ⟨htext, hbreaks⟩ := recipeText_lines hrecipe hlast
  have hlines := readsRecipe_lines (c := { c with statements := [] }) hbreaks hc hplain
  rw [@ReadsRecipe.recipe_eq c _ target' false prerequisites' _ hlines]
  refine ⟨rfl, rfl, rfl, _, _, rfl, ?_⟩
  simp only [Content.mapPos]
  rw [htarget, hprerequisites]
  exact congrArg (fun r => Content.rule ⟨_, _, r⟩) htext

/-- **A rule is read again.** -/
theorem readsAgain_rule {target prerequisites : Phrase} {recipe : Text}
    (htarget : target.body.IsHead) (hprerequisites : prerequisites.body.IsPieces)
    (hrecipe : IsPlain recipe) (hlast : recipe.getLast? ≠ some '\n')
    (hc : c.rest = lex (Content.dump (.rule ⟨target, prerequisites, recipe⟩) ++ ['\n']))
    (hplain : IsPlain (Content.dump (.rule ⟨target, prerequisites, recipe⟩) ++ ['\n'])) :
    ReadsAgain (.rule ⟨target, prerequisites, recipe⟩) c c.statement := by
  have hdump : Content.dump (.rule ⟨target, prerequisites, recipe⟩) ++ ['\n'] =
      target.body.dump ++ ':' :: ' ' :: (prerequisites.body.dump ++
        '\n' :: (Text.lines recipe).flatMap fun l => '\t' :: (l ++ ['\n'])) := by
    rw [← flatMap_break]
    simp [Content.dump, Rule.dump, Phrase.dump]
  rw [hdump] at hc hplain
  obtain ⟨target', hstatement, hsame⟩ := statement_of_target htarget hc hplain
  have hplainRest := isPlain_tail (Text.isPlain_append.mp hplain).2
  have hplainLines := (Text.isPlain_append.mp (isPlain_tail hplainRest)).2
  have hhead : ∀ x ∈ (prerequisites.body.dump ++
      '\n' :: (Text.lines recipe).flatMap fun l => '\t' :: (l ++ ['\n'])).head?,
      (kindOf x).isBlank = false :=
    forall_mem_head?_append hprerequisites.head (by rintro x ⟨⟩; rfl)
  obtain ⟨body, hread, hsame'⟩ := reads_pieces (c := c.upTo (target.body.dump ++ [':'])
    (' ' :: (prerequisites.body.dump ++
      '\n' :: (Text.lines recipe).flatMap fun l => '\t' :: (l ++ ['\n']))))
    hprerequisites.fits rfl hplainRest hhead (by
      rintro y ⟨⟩
      exact Place.stops_zero (Or.inl rfl))
    (fun _ h => absurd (List.cons.inj h).1 (by decide))
    (fun _ h => absurd (List.cons.inj h).1 (by decide))
  have hrule := @ReadsRule.recipe ⟨c.offset, target'⟩ _ _ _ _ _ hread
    (.newline (kindAt_zero_eq rfl hplainLines))
  rw [advance_one_eq rfl hplainLines (by decide), upTo_upTo, upTo_upTo] at hrule
  rw [hstatement, hrule.eq_rule]
  refine (readsAgain_recipe hrecipe hlast rfl (isPlain_tail hplainLines) ?_ ?_).of_upTo
  · exact trimEnd_of_mapPos_eq hsame htarget.trimEnd _
  · exact trimEnd_of_mapPos_eq hsame' hprerequisites.trimEnd _

/-! ## References -/

theorem exists_wrap_eq (d : Delimiter) (t : Text) : ∃ u, d.wrap t = '$' :: u := by
  cases d <;> exact ⟨_, rfl⟩

/-- **A reference that stands alone is read again.** -/
theorem readsAgain_reference {r : Reference} (hfits : Fits .head 0 (.ofReference r) 0)
    (hc : c.rest = lex (Content.dump (.reference r) ++ ['\n']))
    (hplain : IsPlain (Content.dump (.reference r) ++ ['\n'])) :
    ReadsAgain (.reference r) c c.statement := by
  have hdump : Content.dump (.reference r) = (Body.ofReference r).dump := (List.append_nil _).symm
  rw [hdump] at hc hplain
  have hkeyword : c.keyword? = none := by
    obtain ⟨u, hu⟩ := exists_wrap_eq r.delimiter r.name.body.dump
    rw [Body.ofReference, Body.dump, hu] at hc hplain
    by_contra hsome
    obtain ⟨keyword, hsome⟩ := Option.ne_none_iff_exists'.mp hsome
    obtain ⟨ts, hcons⟩ := exists_of_keyword hsome
    have hkind := kindAt_of_rest hcons
    rw [kindAt_zero_eq hc hplain] at hkind
    cases hkind
  obtain ⟨body, hread, hsame⟩ := reads_of_fits hfits hc hplain (by
    rintro y ⟨⟩
    exact Place.stops_zero (Or.inl rfl))
  obtain ⟨r', hsole, hr'⟩ : ∃ r', Phrase.soleReference? ⟨c.offset, body⟩ = some r' ∧
      r'.mapPos (fun _ => 0) = r.mapPos (fun _ => 0) := by
    have hmap := Phrase.soleReference?_mapPos (fun _ => 0) ⟨c.offset, body⟩
    have hwhole : Phrase.mapPos (fun _ => 0) ⟨c.offset, body⟩ =
        Phrase.mapPos (fun _ => 0) ⟨0, .ofReference r⟩ := congrArg (Phrase.mk 0) hsame
    rw [hwhole, Phrase.soleReference?_mapPos] at hmap
    exact Option.map_eq_some_iff.mp hmap.symm
  have hplainRest := (Text.isPlain_append.mp hplain).2
  have hnewline : (c.upTo (Body.ofReference r).dump ['\n']).kindAt 0 = some .newline :=
    kindAt_zero_eq rfl hplainRest
  have hlone := ReadsStatement.lone hkeyword hread (by
    rw [hnewline]
    rintro kind ⟨⟩
    exact Or.inr rfl)
  rw [hlone.eq_statement, loneLine_eq]
  have hnoted : (c.upTo (Body.ofReference r).dump ['\n']).noted ⟨c.offset, body⟩ =
      (c.upTo (Body.ofReference r).dump ['\n']).record (.reference r') c.offset := by
    unfold noted
    rw [hsole]
  have hend : ((c.upTo (Body.ofReference r).dump ['\n']).record (.reference r') c.offset).kindAt 0 =
      some .newline := hnewline
  rw [hnoted, endLine, hend, if_neg (by decide)]
  exact ⟨rfl, rfl, rfl, _, _, rfl, congrArg Content.reference hr'⟩

end Cursor

end MakeBlueprint.Makefile
