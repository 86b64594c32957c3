import MakeBlueprint.Proofs.Reading.Abreast.Documents

/-!
# The lines of recipes

`IsRecipeLine` says of a span that it is a line of a recipe. Here the lines are listed, so that it
can be decided.

* `mem_recipeSpans_iff`, `mem_ruleSpans_iff`, `mem_statementSpans_iff`, `mem_allSpans_iff`: the lists
  have the lines that the relations allow, one layer on the other.
* `mem_recipeLines_iff`: all lines of recipes in a text.
-/

namespace MakeBlueprint.Makefile

namespace Cursor

variable {c next : Cursor} {line : Span} {firstLine : Bool} {fuel : Nat}

/-- The lines of a recipe, one behind the other. -/
def recipeSpans : Nat → Cursor → List Span
  | 0, _ => []
  | fuel + 1, c =>
    if c.kindAt c.breaks = some .tab then
      let behind := (c.advance (c.breaks + 1)).recipeLine.2
      ⟨c.read, behind.read⟩ :: recipeSpans fuel behind
    else
      match c.keyword? with
      | some keyword => recipeSpans fuel (c.directive keyword).skipBreak
      | none => []

theorem mem_recipeSpans_iff (hfuel : c.rest.length ≤ fuel) :
    line ∈ c.recipeSpans fuel ↔ RecipeLine c line := by
  induction fuel generalizing c with
  | zero =>
    have hnil : c.rest = [] := List.length_eq_zero_iff.mp (Nat.le_zero.mp hfuel)
    refine ⟨fun h => absurd h List.not_mem_nil, fun h => ?_⟩
    cases h with
    | here htab | behindLine htab => simp [kindAt, hnil] at htab
    | behindDirective htab hkeyword => simp [keyword?, hnil] at hkeyword
  | succ fuel ih =>
    rw [recipeSpans]
    split
    · next htab =>
      have hlt := length_recipeLine_lt htab
      rw [List.mem_cons, ih (by omega)]
      constructor
      · rintro (rfl | hline)
        · exact .here htab
        · exact .behindLine htab hline
      · intro h
        cases h with
        | here => exact .inl rfl
        | behindLine _ hline => exact .inr hline
        | behindDirective hnone => exact absurd htab hnone
    · next htab =>
      split
      · next keyword hkeyword =>
        have hlt := length_skipBreak_lt hkeyword
        rw [ih (by omega)]
        refine ⟨.behindDirective htab hkeyword, fun h => ?_⟩
        cases h with
        | here hsome | behindLine hsome => exact absurd hsome htab
        | behindDirective _ hsame hline =>
          obtain rfl := Option.some.inj (hkeyword.symm.trans hsame)
          exact hline
      · next hkeyword =>
        refine ⟨fun h => absurd h List.not_mem_nil, fun h => ?_⟩
        cases h with
        | here hsome | behindLine hsome => exact absurd hsome htab
        | behindDirective _ hsome => cases hkeyword.symm.trans hsome

/-- How a recipe begins, if no assignment is there. -/
def opening? (c : Cursor) : Option (Bool × Cursor) :=
  match c.kindAt 0 with
  | some .equals | some .colon => none
  | some .semicolon => some (true, (c.advance 1).skipBlanks)
  | some .newline => some (false, c.advance 1)
  | some .hash => some (false, c.comment)
  | some kind => some (true, c.reportHere (.unexpectedInRule kind))
  | none => some (true, c)

theorem opening?_eq_some_iff : c.opening? = some (firstLine, next) ↔ OpensRecipe c firstLine next := by
  unfold opening?
  constructor
  · intro h
    split at h
    · cases h
    · cases h
    · next hnext =>
      cases h
      exact .semicolon hnext
    · next hnext =>
      cases h
      exact .newline hnext
    · next hnext =>
      cases h
      exact .comment hnext
    · next kind hequals hcolon hsemicolon hnewline hhash hnext =>
      cases h
      exact .unexpected kind hnext (by simp_all)
    · next hnext =>
      cases h
      exact .nothing hnext
  · intro h
    cases h with
    | semicolon hnext | newline hnext | comment hnext | nothing hnext => rw [hnext]
    | unexpected kind hnext hkind =>
      rw [hnext]
      cases kind <;> first | rfl | simp at hkind

/-- The lines of the recipe of a rule, from the colon of its target on. -/
def ruleSpans (c : Cursor) : List Span :=
  let mid := (c.skipBlanks.prerequisites (c.skipBlanks.rest.length + 1)).2
  match mid.opening? with
  | none => []
  | some (firstLine, next) =>
    let start := { (recipeStart firstLine next).2 with statements := [] }
    (if firstLine then [⟨mid.read, next.recipeLine.2.read⟩] else []) ++
      start.recipeSpans start.rest.length

theorem mem_ruleSpans_iff : line ∈ c.ruleSpans ↔ RuleLine c line := by
  obtain ⟨body, mid, hbody⟩ : ∃ body mid, ReadsPrerequisites c.skipBlanks body mid :=
    ⟨_, _, readsPrerequisites_prerequisites (Nat.lt_add_one _)⟩
  have hmid : ∀ {body' : Phrase.Body} {mid' : Cursor},
      ReadsPrerequisites c.skipBlanks body' mid' → mid' = mid := fun h =>
    (Prod.mk.inj ((h.eq_prerequisites (Nat.lt_add_one _)).symm.trans
      (hbody.eq_prerequisites (Nat.lt_add_one _)))).2
  unfold ruleSpans
  dsimp only
  rw [hbody.eq_prerequisites (Nat.lt_add_one _)]
  dsimp only
  constructor
  · intro h
    split at h
    · cases h
    · next firstLine next hopen =>
      have hopens := opening?_eq_some_iff.mp hopen
      rcases List.mem_append.mp h with hline | hline
      · split at hline
        · next hfirst =>
          subst hfirst
          obtain rfl := List.mem_singleton.mp hline
          exact .first hbody hopens
        · cases hline
      · exact .later hbody hopens ((mem_recipeSpans_iff (Nat.le_refl _)).mp hline)
  · intro h
    cases h with
    | first hbody' hopens =>
      obtain rfl := hmid hbody'
      rw [opening?_eq_some_iff.mpr hopens]
      exact List.mem_append_left _ (List.mem_singleton_self _)
    | later hbody' hopens hline =>
      obtain rfl := hmid hbody'
      rw [opening?_eq_some_iff.mpr hopens]
      exact List.mem_append_right _ ((mem_recipeSpans_iff (Nat.le_refl _)).mpr hline)

/-- The cursor behind the colons of a rule, if a rule is there. -/
def colons? (c : Cursor) : Option Cursor :=
  if c.kindAt 0 = some .colon then
    if c.kindAt 1 = some .colon then
      if c.kindAt 2 = some .equals then none else some (c.advance 2)
    else if c.kindAt 1 = some .equals then none
    else some (c.advance 1)
  else none

theorem colons?_eq_some_iff : c.colons? = some next ↔ ReadsColons c next := by
  unfold colons?
  constructor
  · intro h
    split at h
    · next hcolon =>
      split at h
      · next hsecond =>
        split at h
        · cases h
        · next hequals =>
          cases h
          exact .double hcolon hsecond hequals
      · next hsecond =>
        split at h
        · cases h
        · next hequals =>
          cases h
          exact .single hcolon hequals hsecond
    · cases h
  · intro h
    cases h with
    | single hcolon hequals hsecond => rw [if_pos hcolon, if_neg hsecond, if_neg hequals]
    | double hcolon hsecond hequals => rw [if_pos hcolon, if_pos hsecond, if_neg hequals]

/-- The lines of the recipe of a rule that starts here. -/
def statementSpans (c : Cursor) : List Span :=
  match c.keyword?, (c.phrase .head).2.colons? with
  | none, some next => next.ruleSpans
  | _, _ => []

theorem mem_statementSpans_iff : line ∈ c.statementSpans ↔ StatementLine c line := by
  unfold statementSpans
  constructor
  · intro h
    split at h
    · next next hkeyword hcolons =>
      exact .intro hkeyword (reads_phrase .head c) (colons?_eq_some_iff.mp hcolons)
        (mem_ruleSpans_iff.mp h)
    · cases h
  · rintro ⟨hkeyword, hhead, hcolons, hline⟩
    rw [hkeyword, hhead.phrase_eq, colons?_eq_some_iff.mpr hcolons]
    exact mem_ruleSpans_iff.mpr hline

/-- The lines of all recipes that are read from a cursor on. -/
def allSpans : Nat → Cursor → List Span
  | 0, _ => []
  | fuel + 1, c =>
    if c.skipSpace.rest.isEmpty then []
    else c.skipSpace.statementSpans ++ allSpans fuel c.skipSpace.statement

theorem mem_allSpans_iff (hfuel : c.rest.length ≤ fuel) :
    line ∈ c.allSpans fuel ↔ AnyLine c line := by
  induction fuel generalizing c with
  | zero =>
    have hnil : c.skipSpace.rest = [] := by
      have hrest : c.rest = [] := List.length_eq_zero_iff.mp (Nat.le_zero.mp hfuel)
      rw [skipSpace_of_rest hrest, hrest]
    refine ⟨fun h => absurd h List.not_mem_nil, fun h => ?_⟩
    cases h with
    | here hrest | later hrest => exact absurd hnil hrest
  | succ fuel ih =>
    rw [allSpans]
    split
    · next hnil =>
      refine ⟨fun h => absurd h List.not_mem_nil, fun h => ?_⟩
      cases h with
      | here hrest | later hrest => exact absurd (List.isEmpty_iff.mp hnil) hrest
    · next hne =>
      have hrest : c.skipSpace.rest ≠ [] := fun hnil => hne (List.isEmpty_iff.mpr hnil)
      have hlt := length_statement_lt hrest
      have hle : c.skipSpace.rest.length ≤ c.rest.length := (ahead_skipWhile _ c).length
      rw [List.mem_append, mem_statementSpans_iff, ih (by omega)]
      constructor
      · rintro (hline | hline)
        · exact .here hrest hline
        · exact .later hrest hline
      · intro h
        cases h with
        | here _ hline => exact .inl hline
        | later _ hline => exact .inr hline

end Cursor

/-- The lines of the recipes of a text. -/
def recipeLines (source : Text) : List Span :=
  (Cursor.start source).allSpans (Cursor.start source).rest.length

/-- **The lines of recipes are listed.** -/
theorem mem_recipeLines_iff {source : Text} {line : Span} :
    line ∈ recipeLines source ↔ IsRecipeLine source line :=
  Cursor.mem_allSpans_iff (Nat.le_refl _)

/-- A rule with recipes behind a semicolon and behind a tab. -/
example : recipeLines "a: b ; c\n\td\nX := 1\n" = [⟨5, 9⟩, ⟨9, 12⟩] := by decide +kernel

end MakeBlueprint.Makefile
