import MakeBlueprint.Proofs.Reading.RecipeParts

/-!
# Where a recipe ends

A recipe ends in front of a line that is neither behind a tab nor empty nor a directive. It also
ends behind a keyword without arguments, when something else than a tab or a line break stands
there, such as a blank or a comment: the lines behind it are no lines of the recipe
(`EndsRecipe.bare`).

* `EndsRecipe`: what ends a recipe. `EndsRecipe.exists_reads`: nothing of it is in the recipe.
* `Cursor.ReadsHeader`: the line of a rule, in front of its recipe.
* `RuleLines`: a rule, as it is written.
* `RuleLines.recipe_extent`: **the recipe of a rule is made of its lines**, and the directives among
  them are statements of their own behind the rule.
-/

namespace MakeBlueprint

open Text (byteSize dropEndWhile)

namespace Text

variable {w : Text}

/-- A text of one line holds no block. -/
theorem linesWithBreaks_line_alone (h : '\n' ∉ w.dropLast) :
    linesWithBreaks w = [] ∨ linesWithBreaks w = [w] := by
  rcases List.eq_nil_or_concat' w with rfl | ⟨v, x, rfl⟩
  · exact .inl rfl
  · rw [List.dropLast_concat] at h
    right
    by_cases hx : x = '\n'
    · subst hx
      exact linesWithBreaks_line h []
    · refine linesWithBreaks_of_not_mem ?_ (by simp)
      simpa using ⟨h, Ne.symm hx⟩

/-- Line breaks at the end do not count, so that lines may be ended or separated by them. -/
theorem dropEndWhile_flatMap (ls : List Text) :
    dropEndWhile (· == '\n') (ls.flatMap fun l => l ++ ['\n']) =
      dropEndWhile (· == '\n') (join ['\n'] ls) := by
  rcases ls with _ | ⟨l, ls⟩
  · rfl
  · have hjoin : ((l :: ls).flatMap fun l => l ++ ['\n']) = join ['\n'] (l :: ls) ++ ['\n'] := by
      induction ls generalizing l with
      | nil => simp [join]
      | cons k ls ih =>
        rw [List.flatMap_cons, ih, join, join, List.intercalate_cons_cons]
        simp
    rw [hjoin]
    unfold dropEndWhile
    rw [List.reverse_append, List.reverse_singleton, List.singleton_append,
      List.dropWhile_cons_of_pos rfl]

end Text

namespace Makefile

open Token (lex textOf EndsLine)

/-- Comments that do not count do not count between statements. -/
theorem filter_interleave {p : Content × Span → Bool} {ss cs : List (Content × Span)}
    (h : ∀ c ∈ cs, p c = false) : (interleave ss cs).filter p = ss.filter p := by
  induction ss generalizing cs with
  | nil => simpa [interleave] using h
  | cons s ss ih =>
    have hbefore : ∀ c ∈ cs.takeWhile fun c => decide (c.2.start < s.2.start), p c = false :=
      fun c hc => h c ((List.takeWhile_sublist _).subset hc)
    have hbehind : ∀ c ∈ cs.dropWhile fun c => decide (c.2.start < s.2.start), p c = false :=
      fun c hc => h c ((List.dropWhile_sublist _).subset hc)
    have hnone : (cs.takeWhile fun c => decide (c.2.start < s.2.start)).filter p = [] :=
      List.filter_eq_nil_iff.mpr fun c hc => by simp [hbefore c hc]
    rw [interleave, List.filter_append, hnone, List.nil_append, List.filter_cons, List.filter_cons,
      ih hbehind]

/-! ## The end of a recipe -/

/-- **What ends a recipe**: text that is neither behind a tab nor an empty line nor a directive, a
keyword without arguments in front of something else than a tab or a line break, and a definition
that is the last line. -/
inductive EndsRecipe (more : Text) : Prop
  | other (hkeyword : (Cursor.start more).keyword? = none)
      (htab : (Cursor.start more).kindAt 0 ≠ some .tab)
      (hbreak : (Cursor.start more).kindAt 0 ≠ some .newline)
  | bare {keyword : Keyword} (hbare : keyword.isBare = true)
      (hkeyword : (Cursor.start more).keyword? = some keyword)
      (htab : (Cursor.start more).kindAt 1 ≠ some .tab)
      (hbreak : (Cursor.start more).kindAt 1 ≠ some .newline)
  | definition (hkeyword : (Cursor.start more).keyword? = some .define)
      (hline : '\n' ∉ more.dropLast)

namespace Cursor

variable {c d : Cursor} {keyword : Keyword} {more : Text}

theorem breaks_eq_zero (h : c.kindAt 0 ≠ some .newline) : c.breaks = 0 := by
  unfold breaks
  cases hrest : c.rest with
  | nil => rfl
  | cons u us =>
    rw [kindAt_of_rest hrest] at h
    rw [List.takeWhile_cons_of_neg (by simpa using h)]
    rfl

theorem skipBreak_of_ne (h : c.kindAt 0 ≠ some .newline) : c.skipBreak = c := if_neg h

/-- What is no word starts no directive. -/
theorem keyword?_eq_none (h : c.kindAt 0 ≠ some .identifier) : c.keyword? = none := by
  unfold keyword?
  split
  · next word us hrest => exact absurd (kindAt_of_rest hrest) h
  · rfl

theorem readsRecipe_stop (htab : c.kindAt 0 ≠ some .tab) (hbreak : c.kindAt 0 ≠ some .newline)
    (hkeyword : c.keyword? = none) : ReadsRecipe c [] c := by
  refine .stop ?_ hkeyword
  rwa [breaks_eq_zero hbreak]

/-- Behind a word there is no other word. -/
theorem kindAt_one_ne_identifier (h : (start more).keyword? = some keyword) :
    (start more).kindAt 1 ≠ some .identifier := by
  obtain ⟨us, hrest⟩ := exists_of_keyword h
  have hchain := Token.isChain_lex more
  have hlex : lex more = _ := hrest
  rw [hlex] at hchain
  unfold kindAt
  rw [hrest]
  cases us with
  | nil => nofun
  | cons u us =>
    have hwords := (List.isChain_cons_cons.mp hchain).1.words
    intro hkind
    exact hwords ⟨rfl, Option.some.inj hkind⟩

/-- A definition on the last line takes all that is left. -/
theorem rest_define (hline : '\n' ∉ (textOf c.rest).dropLast) :
    (c.directive .define).rest = [] := by
  have hsplit := textOf_rest_advance c 1
  have hblanks := textOf_rest_advance (c.advance 1)
    ((c.advance 1).rest.takeWhile fun t => t.kind.isBlank).length
  rw [← hsplit, ← hblanks, ← List.append_assoc] at hline
  have hinside : '\n' ∉ (textOf (c.advance 1).skipBlanks.rest).dropLast := by
    intro hmem
    refine hline ?_
    rw [List.dropLast_append_of_ne_nil]
    · exact List.mem_append_right _ hmem
    · rintro hnil
      rw [skipBlanks, skipWhile, hnil] at hmem
      cases hmem
  have hblock : blockEnd? (textOf (c.advance 1).skipBlanks.rest) = none := by
    unfold blockEnd?
    rcases Text.linesWithBreaks_line_alone hinside with hlines | hlines
    · rw [hlines]
    · rw [hlines]
      rfl
  unfold directive directiveArguments defineArguments
  dsimp only
  rw [hblock]
  exact List.drop_length

end Cursor

namespace EndsRecipe

variable {more : Text}

theorem head (h : EndsRecipe more) : ∀ u ∈ (lex more).head?, u.kind ≠ .newline := by
  intro u hu
  obtain ⟨us, hrest⟩ := List.head?_eq_some_iff.mp hu
  have hkind : (Cursor.start more).kindAt 0 = some u.kind := Cursor.kindAt_of_rest hrest
  have hword : ∀ {keyword}, (Cursor.start more).keyword? = some keyword → u.kind ≠ .newline := by
    intro keyword hkeyword hnewline
    rw [Cursor.kindAt_of_keyword hkeyword, hnewline] at hkind
    cases hkind
  cases h with
  | other hkeyword htab hbreak => exact fun hnewline => hbreak (hnewline ▸ hkind)
  | bare hbare hkeyword => exact hword hkeyword
  | definition hkeyword => exact hword hkeyword

/-- **Nothing that ends a recipe is in the recipe.** -/
theorem exists_reads (h : EndsRecipe more) : ∃ e, Cursor.ReadsRecipe (Cursor.start more) [] e := by
  cases h with
  | other hkeyword htab hbreak => exact ⟨_, Cursor.readsRecipe_stop htab hbreak hkeyword⟩
  | @bare keyword hbare hkeyword htab hbreak =>
    have hnext : ((Cursor.start more).directive keyword).kindAt 0 =
        (Cursor.start more).kindAt 1 := by
      unfold Cursor.directive
      rw [Cursor.directiveArguments_of_isBare hbare]
      exact Cursor.kindAt_advance _ 1 0
    rw [← hnext] at htab hbreak
    have hword := Cursor.kindAt_one_ne_identifier hkeyword
    rw [← hnext] at hword
    refine ⟨(Cursor.start more).directive keyword,
      .directive (Cursor.kindAt_breaks_of_keyword hkeyword) hkeyword ?_⟩
    rw [Cursor.skipBreak_of_ne hbreak]
    exact Cursor.readsRecipe_stop htab hbreak (Cursor.keyword?_eq_none hword)
  | definition hkeyword hline =>
    have hnext : ((Cursor.start more).directive .define).kindAt 0 = none :=
      Cursor.kindAt_eq_none_iff.mpr (Cursor.rest_define (by rwa [Cursor.start, Token.textOf_lex]))
    have hne : ∀ kind, ((Cursor.start more).directive .define).kindAt 0 ≠ some kind :=
      fun kind => by simp [hnext]
    refine ⟨(Cursor.start more).directive .define,
      .directive (Cursor.kindAt_breaks_of_keyword hkeyword) hkeyword ?_⟩
    rw [Cursor.skipBreak_of_ne (hne _)]
    exact Cursor.readsRecipe_stop (hne _) (hne _) (Cursor.keyword?_eq_none (hne _))

/-- A blank behind a keyword without arguments ends the recipe, although the next line is behind a
tab. -/
example : EndsRecipe "else # x\n\techo b\n" :=
  @bare _ .elseBranch rfl (by decide) (by decide) (by decide)

end EndsRecipe

/-! ## The line of a rule -/

namespace Cursor

variable {source : Text} {c d : Cursor} {target prerequisites : Phrase} {more : List Token}
  {size : Nat}

/-- **What reading the line of a rule does**: the target, the colons and the prerequisites are read,
and the recipe begins on the next line. -/
inductive ReadsHeader (c : Cursor) : Phrase → Phrase → Cursor → Prop
  | intro {mid next behind last : Cursor} {head body : Phrase.Body}
      (hkeyword : c.keyword? = none) (hhead : ReadsBody .head 0 c head mid)
      (hcolons : ReadsColons mid next) (hbody : ReadsPrerequisites next.skipBlanks body behind)
      (hopens : OpensRecipe behind false last) :
      ReadsHeader c (Phrase.trimEnd ⟨c.offset, head⟩)
        (Phrase.trimEnd ⟨next.skipBlanks.offset, body⟩) last

/-- A recipe on the lines behind a rule. -/
theorem recipe_of_reads {lines : Text} (h : ReadsRecipe c lines d) (hc : c.statements = []) :
    c.recipe target prerequisites false =
      behindRule [] ⟨target, prerequisites, recipeText [] lines⟩ d := by
  have hnone : { c with statements := [] } = c := by rw [← hc]
  have hread := @ReadsRecipe.recipe_eq c d target false prerequisites lines (hnone.symm ▸ h)
  rw [hread]
  exact congrArg (behindRule · _ d) hc

theorem ReadsColons.finds (h : ReadsColons c d) (hc : StandsIn source c) :
    Finds source c d [] [] := by
  cases h with
  | single => exact finds_advance hc 1
  | double => exact finds_advance hc 2

namespace ReadsHeader

theorem statement_eq (h : ReadsHeader c target prerequisites d) :
    c.statement = d.recipe target prerequisites false := by
  obtain ⟨hkeyword, hhead, hcolons, hbody, hopens⟩ := h
  rw [(ReadsStatement.rule hkeyword hhead hcolons).eq_statement,
    (ReadsRule.recipe hbody hopens).eq_rule]

theorem rest_ne_nil (h : ReadsHeader c target prerequisites d) : c.rest ≠ [] := by
  obtain ⟨hkeyword, hhead, hcolons, hbody, hopens⟩ := h
  intro hnil
  have hlt := hcolons.length_lt
  have hle := hhead.ahead.length
  rw [hnil] at hle
  exact absurd (Nat.lt_of_lt_of_le hlt hle) (Nat.not_lt_zero _)

theorem pos_eq (h : ReadsHeader c target prerequisites d) : target.pos = c.offset := by
  obtain ⟨hkeyword, hhead, hcolons, hbody, hopens⟩ := h
  rfl

/-- The line of a rule finds comments only. -/
theorem finds (h : ReadsHeader c target prerequisites d) (hc : StandsIn source c) :
    ∃ cs, Finds source c d [] cs := by
  obtain ⟨hkeyword, hhead, hcolons, hbody, hopens⟩ := h
  obtain ⟨cs, hcs, -⟩ := hhead.finds hc
  have hnext := hcolons.finds hcs.stands
  obtain ⟨cs', hcs'⟩ := hbody.finds (hnext.stands.advance _)
  obtain ⟨cs'', hcs''⟩ := hopens.finds hcs'.stands
  have hbehind := ((hcs.trans hnext).trans (finds_advance hnext.stands _)).trans hcs'
  exact ⟨_, hbehind.trans hcs''⟩

/-- **The line of a rule in front of its recipe.** -/
theorem followed (h : ReadsHeader c target prerequisites d) (hc : EndsLine c.rest)
    (hd : d.Contained) :
    ReadsHeader (c.followed more size) target prerequisites (d.followed more size) := by
  obtain ⟨hkeyword, hhead, hcolons, hbody, hopens⟩ := h
  have hbehind := hopens.ahead.contained hd
  have hmid := ((hcolons.ahead.trans (ahead_skipWhile _ _)).trans hbody.ahead).contained hbehind
  obtain ⟨hhead', -, hends⟩ := @ReadsBody.followed more size _ _ _ _ _ hhead hc hmid
  obtain ⟨hcolons', hnext⟩ := @ReadsColons.followed more size _ _ hcolons (hends rfl)
  obtain ⟨hskip, hskipped⟩ := @skipBlanks_followed more size _ hnext
  obtain ⟨hbody', hlast⟩ := @ReadsPrerequisites.followed more size _ _ _ hbody hskipped hbehind
  obtain ⟨hopens', -, -⟩ := @OpensRecipe.followed more size _ _ _ hopens hlast hd
  rw [← hskip] at hbody'
  rw [← @offset_followed more size _ hc, ← @offset_followed more size _ hskipped, ← hskip]
  exact .intro ((keyword?_followed hc).trans hkeyword) hhead' hcolons' hbody' hopens'

end ReadsHeader

end Cursor

/-! ## A rule and its recipe -/

namespace RecipePart

theorem GoesOn.byteSize_pos {p : RecipePart} (h : p.GoesOn) : 0 < byteSize p.line :=
  Text.byteSize_pos (mt Token.lex_eq_nil_iff.mpr h.endsLine.ne_nil)

theorem found_start {p : RecipePart} {s : Content × Span} (hs : s ∈ p.found) :
    s.1.isDirective = true ∧ s.2.start = 0 := by
  cases p with
  | tabbed => cases hs
  | directive =>
    rw [List.mem_singleton.mp hs]
    exact ⟨rfl, rfl⟩

/-- The directives of lines start in these lines. -/
theorem start_of_mem_foundFrom {parts : List RecipePart} {n : Nat} {s : Content × Span}
    (hparts : ∀ p ∈ parts, p.GoesOn) (hs : s ∈ foundFrom n parts) :
    s.1.isDirective = true ∧ s.2.start < n + byteSize (parts.flatMap line) := by
  induction parts generalizing n with
  | nil => cases hs
  | cons p parts ih =>
    obtain ⟨hp, hparts⟩ := List.forall_mem_cons.mp hparts
    rw [List.flatMap_cons, Text.byteSize_append, ← Nat.add_assoc]
    rcases List.mem_append.mp hs with hs | hs
    · obtain ⟨⟨content, span⟩, hmem, rfl⟩ := List.mem_map.mp hs
      obtain ⟨hdirective, hstart⟩ := found_start hmem
      refine ⟨?_, ?_⟩
      · cases content <;> first | rfl | cases hdirective
      · have hpos := hp.byteSize_pos
        have hstart : span.start = 0 := hstart
        change n + span.start < _
        omega
    · exact ih hparts hs

end RecipePart

/-- **A rule, as it is written**: its line, the lines of its recipe, and text that does not go on
with the recipe. The line of the rule may have blanks and line breaks in front. -/
structure RuleLines where
  header : Text
  target : Phrase
  prerequisites : Phrase
  parts : List RecipePart
  more : Text
  header_ends : EndsLine (lex header)
  header_reads : ∃ d, Cursor.ReadsHeader (Cursor.start header).skipSpace target prerequisites d ∧
    d.rest = [] ∧ d.faults = []
  goesOn : ∀ p ∈ parts, p.GoesOn
  ends : EndsRecipe more

namespace RuleLines

open RecipePart (line recipe? foundFrom)

variable (r : RuleLines)

/-- The line of the rule and the lines of the recipe. -/
def lines : Text := r.header ++ r.parts.flatMap line

def text : Text := r.lines ++ r.more

/-- **The recipe**: the texts behind tabs with line breaks between them, without the empty lines at
the end. -/
def recipe : Text := dropEndWhile (· == '\n') (Text.join ['\n'] (r.parts.filterMap recipe?))

/-- The directives among the lines of the recipe. -/
def directives : List (Content × Span) := foundFrom (byteSize r.header) r.parts

/-- Behind the line of the rule the recipe is read. -/
theorem exists_header : ∃ cs, ∀ t,
    (Cursor.start (r.header ++ t)).skipSpace.rest ≠ [] ∧
    (Cursor.start (r.header ++ t)).skipSpace.statement =
      ((Cursor.start t).moved (byteSize r.header) [] cs).recipe r.target r.prerequisites false := by
  obtain ⟨d, hreads, hrest, hfaults⟩ := r.header_reads
  have hne := hreads.rest_ne_nil
  obtain ⟨cs, hfinds⟩ := hreads.finds ((Cursor.standsIn_start r.header).advance _)
  have hstatements : d.statements = [] := hfinds.statements
  have hlt := Nat.not_le.mp fun hle => hne (List.drop_eq_nil_iff.mpr hle)
  refine ⟨d.comments, fun t => ?_⟩
  have hfollowed := @Cursor.ReadsHeader.followed _ _ _ _ (lex t) (byteSize t) hreads
    (r.header_ends.drop hlt) (Cursor.contained_of_nil hfaults)
  rw [Cursor.start_append r.header_ends, Cursor.skipSpace_followed hne, hfollowed.statement_eq,
    Cursor.followed_eq_moved hfinds.stands hfinds.ahead.size hrest hfaults, hstatements]
  refine ⟨?_, rfl⟩
  exact List.append_ne_nil_of_left_ne_nil hne _

/-- The target starts on the line of the rule. -/
theorem pos_lt : r.target.pos < byteSize r.header := by
  obtain ⟨d, hreads, -⟩ := r.header_reads
  have hstands : Cursor.StandsIn r.header (Cursor.start r.header).skipSpace :=
    (Cursor.standsIn_start r.header).advance _
  have hpos := hstands.left_pos hreads.rest_ne_nil
  have hsize := hstands.read_add_left.resolve_right hreads.rest_ne_nil
  obtain ⟨kind, hkind⟩ := Cursor.exists_kindAt hreads.rest_ne_nil
  rw [hreads.pos_eq, Cursor.offset_of_kindAt hkind]
  omega

/-- The rule and the directives start on these lines, and they are no comments. -/
theorem inside {stop : Nat} :
    ∀ s ∈ (.rule ⟨r.target, r.prerequisites, r.recipe⟩, ⟨r.target.pos, stop⟩) :: r.directives,
      s.1.isComment = false ∧ s.2.start < byteSize r.lines := by
  rw [lines, Text.byteSize_append]
  refine List.forall_mem_cons.mpr ⟨⟨rfl, Nat.lt_of_lt_of_le r.pos_lt (Nat.le_add_right _ _)⟩, ?_⟩
  rintro ⟨content, span⟩ hs
  obtain ⟨hdirective, hlt⟩ := RecipePart.start_of_mem_foundFrom r.goesOn hs
  refine ⟨?_, hlt⟩
  cases content <;> first | rfl | cases hdirective

/-- **What is read of a rule**: the rule, the directives, and then what comes behind the recipe. -/
theorem exists_readText : ∃ stop cs, ∃ f : Cursor, byteSize r.lines ≤ stop ∧
    readText r.text = f.moved (byteSize r.lines)
      ((.rule ⟨r.target, r.prerequisites, r.recipe⟩, ⟨r.target.pos, stop⟩) :: r.directives) cs := by
  obtain ⟨cs, hheader⟩ := r.exists_header
  obtain ⟨hrest, hstatement⟩ := hheader (r.parts.flatMap line ++ r.more)
  obtain ⟨e, he⟩ := r.ends.exists_reads
  obtain ⟨cs', hparts⟩ :=
    @RecipePart.readsRecipe_parts _ (byteSize r.header) [] cs _ r.goesOn r.ends.head
  have hsize : byteSize r.header + byteSize (r.parts.flatMap line) = byteSize r.lines :=
    (Text.byteSize_append _ _).symm
  have hrecipe := hparts he.moved
  rw [hsize, List.nil_append, List.append_nil] at hrecipe
  have hrule := @Cursor.recipe_of_reads _ _ r.target r.prerequisites _ hrecipe rfl
  have hjoin : Cursor.recipeText [] ((r.parts.filterMap recipe?).flatMap fun l => l ++ ['\n']) =
      r.recipe := Text.dropEndWhile_flatMap _
  rw [hjoin] at hrule
  rw [hrule] at hstatement
  have hbehind : Cursor.behindRule [] ⟨r.target, r.prerequisites, r.recipe⟩
      (e.moved (byteSize r.lines) (foundFrom (byteSize r.header) r.parts) cs') =
      e.moved (byteSize r.lines) ((.rule ⟨r.target, r.prerequisites, r.recipe⟩,
        ⟨r.target.pos, max (byteSize r.lines + e.read) r.target.pos⟩) :: r.directives) cs' := rfl
  have htext : r.text = r.header ++ (r.parts.flatMap line ++ r.more) := List.append_assoc _ _ _
  have hlines := Cursor.ReadsLines.statement hrest (by
    rw [hstatement, hbehind]
    exact (@Cursor.readsLines_readAll e _ (Nat.le_refl _)).moved)
  rw [← htext] at hlines
  exact ⟨_, cs', _, Nat.le_trans (Nat.le_add_right _ _) (Nat.le_max_left _ _),
    hlines.eq_readAll (Nat.le_refl _)⟩

/-- **Where a recipe ends.** The statements that start on the line of a rule and on the lines of its
recipe are the rule and, behind it, the directives; comments do not count. The recipe is made of
these lines, and no error is in them. -/
theorem recipe_extent (r : RuleLines) : ∃ stop, byteSize r.lines ≤ stop ∧
    ((parse r.text).statements.filter fun s =>
        !s.content.isComment && decide (s.span.start < byteSize r.lines)) =
      ((.rule ⟨r.target, r.prerequisites, r.recipe⟩, ⟨r.target.pos, stop⟩) :: r.directives).map
        (fun s => locate r.text s.1 s.2) ∧
    ∀ e ∈ (parse r.text).errors, byteSize r.lines ≤ e.offset := by
  obtain ⟨stop, cs, f, hstop, hread⟩ := r.exists_readText
  refine ⟨stop, hstop, ?_, ?_⟩
  · obtain ⟨ss, comments, hfinds, -⟩ := (Cursor.readsLines_readText r.text).findsAll
      (Cursor.standsIn_start r.text)
    have hcomments : (readText r.text).comments = comments := hfinds.comments
    have hbehind : ∀ s ∈ f.statements.map (movedBy (byteSize r.lines)),
        byteSize r.lines ≤ s.2.start := by
      intro s hs
      obtain ⟨s, -, rfl⟩ := List.mem_map.mp hs
      exact Nat.le_add_right _ _
    unfold parse
    dsimp only
    rw [List.filter_map, filter_interleave, hread]
    · refine congrArg (List.map _) ?_
      refine (List.filter_append _ _).trans ?_
      rw [List.filter_eq_self.mpr, List.filter_eq_nil_iff.mpr, List.append_nil]
      · intro s hs
        simpa [locate] using fun _ => hbehind s hs
      · intro s hs
        simpa [locate] using r.inside s hs
    · intro c hc
      simp [locate, hfinds.laid.kinds c (hcomments ▸ hc)]
  · unfold parse
    rw [hread]
    intro e he
    obtain ⟨fault, hfault, rfl⟩ := List.mem_map.mp he
    obtain ⟨fault, -, rfl⟩ := List.mem_map.mp hfault
    exact Nat.le_add_right _ _

/-- A rule with directives in its recipe, and an assignment behind it. -/
def branched : RuleLines where
  header := "all: x # c\n"
  target := ⟨0, .ofText "all"⟩
  prerequisites := ⟨5, .ofText "x"⟩
  parts := [.tabbed "echo a", .directive .ifDefined " D # d", .tabbed "", .directive .elseBranch "",
    .tabbed "echo b\r", .directive .endIf "\techo c", .tabbed ""]
  more := "A := 1\n"
  header_ends := ⟨⟨.newline, ['\n']⟩, by decide⟩
  header_reads := ⟨_, .intro (by decide) (Cursor.reads_phrase _ _)
    (.single (by decide) (by decide) (by decide))
    (Cursor.readsPrerequisites_prerequisites (Nat.lt_add_one _)) (.comment (by decide)),
    by decide, by decide⟩
  goesOn := by
    simp only [List.forall_mem_cons]
    refine ⟨.tabbed (by decide) (by decide), .directive ⟨by decide, by decide, by decide, by decide,
      by decide⟩, .tabbed (by decide) (by decide), .directive ⟨by decide, by decide, by decide,
      by decide, by decide⟩, .tabbed (by decide) (by decide), .joined (by decide) (by decide)
      (by decide) (by decide), .tabbed (by decide) (by decide), nofun⟩
  ends := .other (by decide) (by decide) (by decide)

theorem recipe_extent_branched :
    branched.recipe = "echo a\n\necho b\necho c" ∧
    branched.directives.map (fun s => s.1.dump) = ["ifdef D", "else", "endif"] ∧
    ∃ stop, byteSize branched.lines ≤ stop ∧
      ((parse branched.text).statements.filter fun s =>
          !s.content.isComment && decide (s.span.start < byteSize branched.lines)) =
        ((.rule ⟨branched.target, branched.prerequisites, branched.recipe⟩,
            ⟨branched.target.pos, stop⟩) :: branched.directives).map
          (fun s => locate branched.text s.1 s.2) ∧
      ∀ e ∈ (parse branched.text).errors, byteSize branched.lines ≤ e.offset :=
  ⟨by decide, by decide, recipe_extent branched⟩

end RuleLines

end Makefile

end MakeBlueprint
