import MakeBlueprint.Proofs.Reading.Grammar

/-!
# Reading lines as a grammar

What a statement may be (`ReadsStatement`), what may stand behind the colon of a target
(`ReadsRule`), and the statements of a text (`ReadsLines`), with a constructor for each form.

* `readsStatement_statement` and `ReadsStatement.eq_statement`, and their like for rules: the
  readers compute these relations.
* `exists_recipe`, `ReadsRecipe.recipe_eq`: a rule is recorded in front of the directives in its
  recipe.
* `readsLines_readText`: a text is read to its end, one statement after the other.
-/

namespace MakeBlueprint.Makefile.Cursor

variable {c d mid next : Cursor} {head body : Phrase.Body} {target : Phrase} {op : AssignOp}
  {keyword : Keyword} {fuel : Nat} {firstLine : Bool}

/-! ## Moving on -/

theorem kindAt_advance (c : Cursor) (n m : Nat) : (c.advance n).kindAt m = c.kindAt (n + m) := by
  unfold kindAt advance
  rw [List.getElem?_drop]

theorem advance_advance (c : Cursor) (n m : Nat) : (c.advance n).advance m = c.advance (n + m) := by
  unfold advance
  simp only [List.drop_drop, mk.injEq, true_and, and_true]
  rw [List.take_add, Token.textOf_append, Text.byteSize_append, Nat.add_assoc]

theorem length_advance (c : Cursor) (n : Nat) :
    (c.advance n).rest.length = c.rest.length - n := List.length_drop

/-! ## Recipes -/

/-- What a recipe finds on the line of its rule. -/
def recipeStart (firstLine : Bool) (c : Cursor) : Text × Cursor :=
  if firstLine then c.recipeLine else ([], c)

/-- The cursor behind a rule: it stands in front of the directives in its recipe. -/
def behindRule (before : List (Content × Span)) (rule : Rule) (c : Cursor) : Cursor :=
  { c with
    statements := before ++ (.rule rule, c.spanFrom rule.target.pos) :: c.statements }

/-- The recipe that the lines of a rule make up. -/
def recipeText (first lines : Text) : Text := Text.dropEndWhile (· == '\n') (first ++ lines)

theorem ReadsRecipe.recipe_eq {prerequisites : Phrase} {lines : Text}
    (h : ReadsRecipe { (recipeStart firstLine c).2 with statements := [] } lines d) :
    c.recipe target prerequisites firstLine =
      behindRule (recipeStart firstLine c).2.statements
        ⟨target, prerequisites, recipeText (recipeStart firstLine c).1 lines⟩ d := by
  have hlines := h.eq_recipeLines (Nat.le_refl _)
  unfold recipe
  rw [← recipeStart]
  dsimp only at hlines ⊢
  rw [hlines]
  simp [behindRule, recipeText, record, spanFrom]

theorem exists_recipe (target prerequisites : Phrase) (firstLine : Bool) (c : Cursor) :
    ∃ lines d, ReadsRecipe { (recipeStart firstLine c).2 with statements := [] } lines d ∧
      c.recipe target prerequisites firstLine =
        behindRule (recipeStart firstLine c).2.statements
          ⟨target, prerequisites, recipeText (recipeStart firstLine c).1 lines⟩ d := by
  have h := readsRecipe_recipeLines
    (Nat.le_refl { (recipeStart firstLine c).2 with statements := [] }.rest.length)
  exact ⟨_, _, h, h.recipe_eq⟩

theorem ahead_recipeStart (firstLine : Bool) (c : Cursor) :
    Ahead c (recipeStart firstLine c).2 := by
  unfold recipeStart
  split
  · exact ahead_recipeLine c
  · exact Ahead.refl c

theorem ahead_recipe (target prerequisites : Phrase) (firstLine : Bool) (c : Cursor) :
    Ahead c (c.recipe target prerequisites firstLine) := by
  obtain ⟨lines, d, hlines, heq⟩ := exists_recipe target prerequisites firstLine c
  have h := hlines.ahead
  have hstart := ahead_recipeStart firstLine c
  rw [heq]
  exact hstart.trans ⟨h.size, h.length, h.read, h.faults⟩

/-! ## Rules -/

/-- **How a recipe begins** behind the prerequisites of a rule: on the same line or not. -/
inductive OpensRecipe (c : Cursor) : Bool → Cursor → Prop
  | semicolon (hnext : c.kindAt 0 = some .semicolon) : OpensRecipe c true (c.advance 1).skipBlanks
  | newline (hnext : c.kindAt 0 = some .newline) : OpensRecipe c false (c.advance 1)
  | comment (hnext : c.kindAt 0 = some .hash) : OpensRecipe c false c.comment
  | nothing (hnext : c.kindAt 0 = none) : OpensRecipe c true c
  | unexpected (kind : Token.Kind) (hnext : c.kindAt 0 = some kind)
      (hkind : kind ∉ [.equals, .colon, .semicolon, .newline, .hash]) :
      OpensRecipe c true (c.reportHere (.unexpectedInRule kind))

theorem OpensRecipe.ahead (h : OpensRecipe c firstLine next) : Ahead c next := by
  cases h with
  | semicolon hnext => exact (ahead_advance _ 1).trans (ahead_skipWhile _ _)
  | newline hnext => exact ahead_advance _ 1
  | comment hnext => exact ahead_comment _
  | nothing hnext => exact Ahead.refl _
  | unexpected kind hnext hkind => exact ahead_reportHere _ _

/-- **What stands behind the colon of a target**: an assignment, or prerequisites and a recipe. -/
inductive ReadsRule (target : Phrase) (c : Cursor) : Cursor → Prop
  | assignment {mid : Cursor} {body : Phrase.Body}
      (hbody : ReadsPrerequisites c.skipBlanks body mid) (hnext : mid.kindAt 0 = some .equals) :
      ReadsRule target c
        (mid.assignment .recursive (some target.trimEnd)
          (Phrase.trimEnd ⟨c.skipBlanks.offset, body⟩))
  | simple {mid : Cursor} {body : Phrase.Body}
      (hbody : ReadsPrerequisites c.skipBlanks body mid) (hnext : mid.kindAt 0 = some .colon) :
      ReadsRule target c
        ((mid.advance 1).assignment .simple (some target.trimEnd)
          (Phrase.trimEnd ⟨c.skipBlanks.offset, body⟩))
  | recipe {mid next : Cursor} {body : Phrase.Body} {firstLine : Bool}
      (hbody : ReadsPrerequisites c.skipBlanks body mid) (hopens : OpensRecipe mid firstLine next) :
      ReadsRule target c
        (next.recipe target.trimEnd (Phrase.trimEnd ⟨c.skipBlanks.offset, body⟩) firstLine)

theorem readsRule_rule (target : Phrase) (c : Cursor) : ReadsRule target c (c.rule target) := by
  obtain ⟨body, mid, hbody⟩ : ∃ body mid, ReadsPrerequisites c.skipBlanks body mid :=
    ⟨_, _, readsPrerequisites_prerequisites (Nat.lt_add_one _)⟩
  unfold rule
  dsimp only
  rw [hbody.eq_prerequisites (Nat.lt_add_one _)]
  dsimp only
  split
  · next hnext => exact .assignment hbody hnext
  · next hnext => exact .simple hbody hnext
  · next hnext => exact .recipe hbody (.semicolon hnext)
  · next hnext => exact .recipe hbody (.newline hnext)
  · next hnext => exact .recipe hbody (.comment hnext)
  · next kind hequals hcolon hsemicolon hnewline hhash hnext =>
    refine .recipe hbody (.unexpected kind hnext ?_)
    rintro hmem
    simp only [List.mem_cons, List.not_mem_nil, or_false] at hmem
    rcases hmem with rfl | rfl | rfl | rfl | rfl
    · exact hequals rfl
    · exact hcolon rfl
    · exact hsemicolon rfl
    · exact hnewline rfl
    · exact hhash rfl
  · next hnext => exact .recipe hbody (.nothing hnext)

theorem ReadsRule.eq_rule (h : ReadsRule target c d) : c.rule target = d := by
  unfold rule
  dsimp only
  cases h with
  | assignment hbody hnext =>
    rw [hbody.eq_prerequisites (Nat.lt_add_one _)]
    simp only [hnext]
  | simple hbody hnext =>
    rw [hbody.eq_prerequisites (Nat.lt_add_one _)]
    simp only [hnext]
  | recipe hbody hopens =>
    rw [hbody.eq_prerequisites (Nat.lt_add_one _)]
    cases hopens with
    | semicolon hnext => simp only [hnext]
    | newline hnext => simp only [hnext]
    | comment hnext => simp only [hnext]
    | nothing hnext => simp only [hnext]
    | unexpected kind hnext hkind =>
      simp only [hnext]
      cases kind <;> simp_all

theorem ahead_rule (target : Phrase) (c : Cursor) : Ahead c (c.rule target) := by
  have hskip : Ahead c c.skipBlanks := ahead_skipWhile _ c
  have h := readsRule_rule target c
  generalize c.rule target = d at h
  cases h with
  | assignment hbody hnext =>
    exact ((hskip.trans hbody.ahead).trans (ahead_advance _ 1)).trans (ahead_assignment _ _ _ _)
  | simple hbody hnext =>
    exact (((hskip.trans hbody.ahead).trans (ahead_advance _ 1)).trans (ahead_advance _ 1)).trans
      (ahead_assignment _ _ _ _)
  | recipe hbody hopens =>
    exact ((hskip.trans hbody.ahead).trans hopens.ahead).trans (ahead_recipe _ _ _ _)

/-! ## Statements -/

/-- **The operator of a plain assignment**; the cursor moves to its last token. -/
inductive ReadsOperator (c : Cursor) : AssignOp → Cursor → Prop
  | recursive (hequals : c.kindAt 0 = some .equals) : ReadsOperator c .recursive c
  | conditional (hquestion : c.kindAt 0 = some .question) (hequals : c.kindAt 1 = some .equals) :
      ReadsOperator c .conditional (c.advance 1)
  | simple (hcolon : c.kindAt 0 = some .colon) (hequals : c.kindAt 1 = some .equals) :
      ReadsOperator c .simple (c.advance 1)
  | double (hcolon : c.kindAt 0 = some .colon) (hcolon' : c.kindAt 1 = some .colon)
      (hequals : c.kindAt 2 = some .equals) : ReadsOperator c .simple (c.advance 2)

/-- **The colons of a rule**; the cursor moves behind them. -/
inductive ReadsColons (c : Cursor) : Cursor → Prop
  | single (hcolon : c.kindAt 0 = some .colon) (hequals : c.kindAt 1 ≠ some .equals)
      (hcolon' : c.kindAt 1 ≠ some .colon) : ReadsColons c (c.advance 1)
  | double (hcolon : c.kindAt 0 = some .colon) (hcolon' : c.kindAt 1 = some .colon)
      (hequals : c.kindAt 2 ≠ some .equals) : ReadsColons c (c.advance 2)

/-- **What a statement may be.** The last two forms are malformed. -/
inductive ReadsStatement (c : Cursor) : Cursor → Prop
  | directive {keyword : Keyword} (hkeyword : c.keyword? = some keyword) :
      ReadsStatement c (c.directive keyword)
  | assignment {mid next : Cursor} {head : Phrase.Body} {op : AssignOp}
      (hkeyword : c.keyword? = none) (hhead : ReadsBody .head 0 c head mid)
      (hop : ReadsOperator mid op next) :
      ReadsStatement c (next.assignment op none ⟨c.offset, head⟩)
  | rule {mid next : Cursor} {head : Phrase.Body} (hkeyword : c.keyword? = none)
      (hhead : ReadsBody .head 0 c head mid) (hcolons : ReadsColons mid next) :
      ReadsStatement c (next.rule ⟨c.offset, head⟩)
  | lone {mid : Cursor} {head : Phrase.Body} (hkeyword : c.keyword? = none)
      (hhead : ReadsBody .head 0 c head mid)
      (hnext : ∀ kind, mid.kindAt 0 = some kind → kind = .hash ∨ kind = .newline) :
      ReadsStatement c (mid.loneLine ⟨c.offset, head⟩)
  | expectedEquals {mid : Cursor} {head : Phrase.Body} (hkeyword : c.keyword? = none)
      (hhead : ReadsBody .head 0 c head mid) (hquestion : mid.kindAt 0 = some .question)
      (hequals : mid.kindAt 1 ≠ some .equals) :
      ReadsStatement c (((mid.advance 1).reportHere .expectedEquals).skipLine.advance 1)
  | unexpected {mid : Cursor} {head : Phrase.Body} {kind : Token.Kind}
      (hkeyword : c.keyword? = none) (hhead : ReadsBody .head 0 c head mid)
      (hnext : mid.kindAt 0 = some kind)
      (hkind : kind ∉ [.question, .colon, .equals, .hash, .newline]) :
      ReadsStatement c ((mid.reportHere (.unexpected kind)).skipLine.advance 1)

theorem readsStatement_statement (c : Cursor) : ReadsStatement c c.statement := by
  obtain ⟨head, mid, hhead⟩ : ∃ head mid, ReadsBody .head 0 c head mid :=
    ⟨_, _, reads_phrase .head c⟩
  unfold statement
  split
  · next keyword hkeyword => exact .directive hkeyword
  · next hkeyword =>
    rw [hhead.phrase_eq]
    dsimp only
    split
    · next hquestion =>
      rw [kindAt_advance]
      split
      · next hequals => exact .assignment hkeyword hhead (.conditional hquestion hequals)
      · next hequals => exact .expectedEquals hkeyword hhead hquestion hequals
    · next hcolon =>
      unfold afterColon
      simp only [kindAt_advance, advance_advance]
      split
      · next hequals => exact .assignment hkeyword hhead (.simple hcolon hequals)
      · next hequals =>
        split
        · next hcolon' =>
          split
          · next hequals' => exact .assignment hkeyword hhead (.double hcolon hcolon' hequals')
          · next hequals' => exact .rule hkeyword hhead (.double hcolon hcolon' hequals')
        · next hcolon' => exact .rule hkeyword hhead (.single hcolon hequals hcolon')
    · next hequals => exact .assignment hkeyword hhead (.recursive hequals)
    · next hnext => exact .lone hkeyword hhead fun kind hk => by simp_all
    · next hnext => exact .lone hkeyword hhead fun kind hk => by simp_all
    · next hnext => exact .lone hkeyword hhead fun kind hk => by simp_all
    · next kind hquestion hcolon hequals hhash hnewline hnext =>
      refine .unexpected hkeyword hhead hnext ?_
      rintro hmem
      simp only [List.mem_cons, List.not_mem_nil, or_false] at hmem
      rcases hmem with rfl | rfl | rfl | rfl | rfl
      · exact hquestion rfl
      · exact hcolon rfl
      · exact hequals rfl
      · exact hhash rfl
      · exact hnewline rfl

theorem ReadsStatement.eq_statement (h : ReadsStatement c d) : c.statement = d := by
  unfold statement
  cases h with
  | directive hkeyword => rw [hkeyword]
  | assignment hkeyword hhead hop =>
    rw [hkeyword]
    dsimp only
    rw [hhead.phrase_eq]
    cases hop with
    | recursive hequals => simp only [hequals]
    | conditional hquestion hequals => simp [hquestion, hequals, kindAt_advance]
    | simple hcolon hequals => simp [hcolon, hequals, kindAt_advance, afterColon]
    | double hcolon hcolon' hequals =>
      simp [hcolon, hcolon', hequals, kindAt_advance, afterColon, advance_advance]
  | rule hkeyword hhead hcolons =>
    rw [hkeyword]
    dsimp only
    rw [hhead.phrase_eq]
    cases hcolons with
    | single hcolon hequals hcolon' =>
      simp [hcolon, hequals, hcolon', kindAt_advance, afterColon]
    | double hcolon hcolon' hequals =>
      simp [hcolon, hcolon', hequals, kindAt_advance, afterColon, advance_advance]
  | @lone mid head hkeyword hhead hnext =>
    rw [hkeyword]
    dsimp only
    rw [hhead.phrase_eq]
    cases hk : mid.kindAt 0 with
    | none => rfl
    | some kind => rcases hnext kind hk with rfl | rfl <;> rfl
  | expectedEquals hkeyword hhead hquestion hequals =>
    rw [hkeyword]
    dsimp only
    rw [hhead.phrase_eq]
    simp [hquestion, hequals, kindAt_advance]
  | @unexpected mid head kind hkeyword hhead hnext hkind =>
    rw [hkeyword]
    dsimp only
    rw [hhead.phrase_eq]
    simp only [hnext]
    cases kind <;> simp_all

theorem ReadsOperator.ahead (h : ReadsOperator c op next) : Ahead c next := by
  cases h with
  | recursive hequals => exact Ahead.refl c
  | conditional hquestion hequals => exact ahead_advance c 1
  | simple hcolon hequals => exact ahead_advance c 1
  | double hcolon hcolon' hequals => exact ahead_advance c 2

/-- The last token of an operator is an equals sign. -/
theorem ReadsOperator.kindAt (h : ReadsOperator c op next) : next.kindAt 0 = some .equals := by
  cases h with
  | recursive hequals => exact hequals
  | conditional hquestion hequals => rw [kindAt_advance, hequals]
  | simple hcolon hequals => rw [kindAt_advance, hequals]
  | double hcolon hcolon' hequals => rw [kindAt_advance, hequals]

theorem ReadsColons.ahead (h : ReadsColons c next) : Ahead c next := by
  cases h with
  | single hcolon hequals hcolon' => exact ahead_advance c 1
  | double hcolon hcolon' hequals => exact ahead_advance c 2

theorem ReadsColons.length_lt (h : ReadsColons c next) : next.rest.length < c.rest.length := by
  cases h with
  | single hcolon hequals hcolon' => exact length_advance_lt hcolon
  | double hcolon hcolon' hequals =>
    exact Nat.lt_of_le_of_lt (length_advance_two c) (length_advance_lt hcolon)

/-- What is found when a line holds one phrase. -/
def noted (phrase : Phrase) (c : Cursor) : Cursor :=
  match phrase.soleReference? with
  | some r => c.record (.reference r) phrase.pos
  | none => if phrase.isEmpty then c else c.report phrase.pos (.strayText phrase.body)

/-- The cursor behind the end of a line. -/
def endLine (c : Cursor) : Cursor := if c.kindAt 0 = some .hash then c.comment else c.advance 1

theorem loneLine_eq (phrase : Phrase) (c : Cursor) :
    c.loneLine phrase = (c.noted phrase).endLine := rfl

theorem ahead_noted (phrase : Phrase) (c : Cursor) : Ahead c (c.noted phrase) := by
  unfold noted
  split
  · exact ahead_record _ _ _
  · split
    · exact Ahead.refl c
    · exact ahead_report _ _ _

theorem ahead_endLine (c : Cursor) : Ahead c c.endLine := by
  unfold endLine
  split
  · exact ahead_comment c
  · exact ahead_advance c 1

theorem ahead_loneLine (phrase : Phrase) (c : Cursor) : Ahead c (c.loneLine phrase) :=
  (ahead_noted phrase c).trans (ahead_endLine _)

theorem length_endLine (c : Cursor) : c.endLine.rest.length ≤ c.rest.length - 1 := by
  rw [← length_advance c 1]
  unfold endLine
  split
  · exact ((ahead_skipLine (c.advance 1)).trans (ahead_advance _ 1)).length
  · exact Nat.le_refl _

theorem ahead_statement (c : Cursor) : Ahead c c.statement := by
  have h := readsStatement_statement c
  generalize c.statement = d at h
  cases h with
  | directive hkeyword => exact (ahead_advance c 1).trans (ahead_directive _ _)
  | assignment hkeyword hhead hop =>
    exact ((hhead.ahead.trans hop.ahead).trans (ahead_advance _ 1)).trans (ahead_assignment _ _ _ _)
  | rule hkeyword hhead hcolons =>
    exact (hhead.ahead.trans hcolons.ahead).trans (ahead_rule _ _)
  | lone hkeyword hhead hnext => exact hhead.ahead.trans (ahead_loneLine _ _)
  | expectedEquals hkeyword hhead hquestion hequals =>
    exact (((hhead.ahead.trans (ahead_advance _ 1)).trans (ahead_reportHere _ _)).trans
      (ahead_skipLine _)).trans (ahead_advance _ 1)
  | unexpected hkeyword hhead hnext hkind =>
    exact ((hhead.ahead.trans (ahead_reportHere _ _)).trans (ahead_skipLine _)).trans
      (ahead_advance _ 1)

/-- **A statement takes a token or more.** -/
theorem length_statement_lt (h : c.rest ≠ []) : c.statement.rest.length < c.rest.length := by
  have hpos : 0 < c.rest.length := List.length_pos_iff.mpr h
  have hstatement := readsStatement_statement c
  generalize c.statement = d at hstatement
  cases hstatement with
  | directive hkeyword => exact length_directive_lt hkeyword
  | assignment hkeyword hhead hop =>
    exact Nat.lt_of_le_of_lt (ahead_assignment _ _ _ _).length
      (Nat.lt_of_lt_of_le (length_advance_lt hop.kindAt) (hhead.ahead.trans hop.ahead).length)
  | rule hkeyword hhead hcolons =>
    exact Nat.lt_of_le_of_lt (ahead_rule _ _).length
      (Nat.lt_of_lt_of_le hcolons.length_lt hhead.ahead.length)
  | @lone mid head hkeyword hhead hnext =>
    have hle := (hhead.ahead.trans (ahead_noted ⟨c.offset, head⟩ mid)).length
    have hlone := length_endLine (mid.noted ⟨c.offset, head⟩)
    rw [loneLine_eq]
    omega
  | expectedEquals hkeyword hhead hquestion hequals =>
    exact Nat.lt_of_le_of_lt
      (((ahead_reportHere _ _).trans (ahead_skipLine _)).trans (ahead_advance _ 1)).length
      (Nat.lt_of_lt_of_le (length_advance_lt hquestion) hhead.ahead.length)
  | @unexpected mid head kind hkeyword hhead hnext hkind =>
    have hle := hhead.ahead.length
    have hreport := (ahead_reportHere mid (.unexpected kind)).length
    have hskip := (ahead_skipLine (mid.reportHere (.unexpected kind))).length
    have hlast := length_advance (mid.reportHere (.unexpected kind)).skipLine 1
    omega

/-! ## Texts -/

/-- **What reading all statements does.** -/
inductive ReadsLines : Cursor → Cursor → Prop
  | done {c : Cursor} (hrest : c.skipSpace.rest = []) : ReadsLines c c.skipSpace
  | statement {c d : Cursor} (hrest : c.skipSpace.rest ≠ [])
      (hlines : ReadsLines c.skipSpace.statement d) : ReadsLines c d

theorem ReadsLines.ahead (h : ReadsLines c d) : Ahead c d := by
  induction h with
  | done hrest => exact ahead_skipWhile _ _
  | statement hrest hlines ih => exact ((ahead_skipWhile _ _).trans (ahead_statement _)).trans ih

theorem skipSpace_of_rest (h : c.rest = []) : c.skipSpace = c := by
  obtain ⟨rest, read, size, statements, comments, faults⟩ := c
  cases h
  rfl

theorem readsLines_readAll (h : c.rest.length ≤ fuel) : ReadsLines c (c.readAll fuel) := by
  induction fuel generalizing c with
  | zero =>
    have hnil : c.rest = [] := List.length_eq_zero_iff.mp (Nat.le_zero.mp h)
    have hskip := skipSpace_of_rest hnil
    have hdone : ReadsLines c c.skipSpace := .done (by rw [hskip, hnil])
    rwa [hskip] at hdone
  | succ fuel ih =>
    rw [readAll]
    split
    · next hrest => exact .done (List.isEmpty_iff.mp hrest)
    · next hrest =>
      have hne : c.skipSpace.rest ≠ [] := fun h => hrest (List.isEmpty_iff.mpr h)
      have hlt := length_statement_lt hne
      have hle : c.skipSpace.rest.length ≤ c.rest.length := (ahead_skipWhile _ c).length
      exact .statement hne (ih (by omega))

theorem ReadsLines.eq_readAll (h : ReadsLines c d) (hfuel : c.rest.length ≤ fuel) :
    c.readAll fuel = d := by
  induction h generalizing fuel with
  | @done c hrest =>
    cases fuel with
    | zero => exact (skipSpace_of_rest (List.length_eq_zero_iff.mp (Nat.le_zero.mp hfuel))).symm
    | succ fuel =>
      rw [readAll]
      exact if_pos (List.isEmpty_iff.mpr hrest)
  | @statement c d hrest hlines ih =>
    have hlt := length_statement_lt hrest
    have hle : c.skipSpace.rest.length ≤ c.rest.length := (ahead_skipWhile _ c).length
    obtain ⟨fuel, rfl⟩ : ∃ k, fuel = k + 1 := ⟨fuel - 1, by omega⟩
    rw [readAll]
    exact (if_neg fun h => hrest (List.isEmpty_iff.mp h)).trans (ih (by omega))

/-- **A text is read to its end**, one statement after the other. -/
theorem readsLines_readText (source : Text) : ReadsLines (start source) (readText source) :=
  readsLines_readAll (Nat.le_refl _)

theorem ReadsLines.rest_eq_nil (h : ReadsLines c d) : d.rest = [] := by
  induction h with
  | done hrest => exact hrest
  | statement hrest hlines ih => exact ih

end MakeBlueprint.Makefile.Cursor
