import MakeBlueprint.Proofs.Reading.Lines

/-!
# The loops of the reader

The reader is a few loops inside each other: over the statements of a text, the lines of a recipe,
the phrases of prerequisites, the parts of a phrase, and the tokens up to the end of a line. A
reference inside a phrase starts the loop of phrases again. A loop stands at a cursor before each of
its turns.

* `Turns`, `Leaves`: a turn of a loop leads to the next one, or the loop is left.
* `Enters`: the loops that start inside a turn. `Loop.rank`: which loops stand in which.
* `Comes`: the loops, and the cursors that they stand at, as a text is read.
* `runs_read`: **every loop is left after some turns**, and the reader finds where, with any bound
  of at least the one that it takes.
-/

namespace MakeBlueprint.Makefile

/-- The loops of the reader. -/
inductive Loop where
  /-- The statements of a text. -/
  | lines
  /-- The lines of a recipe, and the directives between them. -/
  | recipe
  /-- Prerequisites, with colons between them. -/
  | prerequisites
  /-- The parts of a phrase, with some brackets open. -/
  | phrase (place : Place) (depth : Nat)
  /-- The lines of a definition block. -/
  | block
  /-- The tokens up to the end of a line: of a comment, of a line of a recipe, and of a malformed
  line. -/
  | line

namespace Loop

/-- A loop stands only in loops of a higher rank, except for a phrase in a phrase. -/
def rank : Loop → Nat
  | .lines => 4
  | .recipe => 3
  | .prerequisites => 2
  | .phrase .. => 1
  | .block | .line => 0

/-- The cursor behind a loop, for a loop that may take so many turns. -/
def read (fuel : Nat) : Loop → Cursor → Cursor
  | .lines, c => c.readAll fuel
  | .recipe, c => (c.recipeLines fuel).2
  | .prerequisites, c => (c.prerequisites fuel).2
  | .phrase place depth, c => (Cursor.readBody fuel place depth c).2
  | .block, c => c.defineArguments.2
  | .line, c => c.skipLine

/-- The number of turns that the reader takes a loop to need at most. -/
def bound : Loop → Cursor → Nat
  | .prerequisites, c => c.rest.length + 1
  | _, c => c.rest.length

end Loop

/-- Whether the arguments of a directive are a phrase. -/
def Keyword.takesPhrase : Keyword → Bool
  | .elseBranch | .endIf | .endDefine | .define => false
  | _ => true

namespace Cursor

/-! ## Turns -/

/-- **A turn of a loop**, from its start to the start of the next one. -/
inductive Turns : Loop → Cursor → Loop → Cursor → Prop
  | statement {c : Cursor} (hrest : c.skipSpace.rest ≠ []) :
      Turns .lines c .lines c.skipSpace.statement
  | recipeLine {c : Cursor} (htab : c.kindAt c.breaks = some .tab) :
      Turns .recipe c .recipe (c.advance (c.breaks + 1)).recipeLine.2
  | recipeDirective {c : Cursor} {keyword : Keyword} (htab : c.kindAt c.breaks ≠ some .tab)
      (hkeyword : c.keyword? = some keyword) :
      Turns .recipe c .recipe (c.directive keyword).skipBreak
  | colon {c mid : Cursor} {body : Phrase.Body} (hbody : ReadsBody .prerequisites 0 c body mid)
      (hcolon : mid.kindAt 0 = some .colon ∧ mid.kindAt 1 ≠ some .equals) :
      Turns .prerequisites c .prerequisites (mid.advance 1)
  | text {place : Place} {depth depth' : Nat} {c : Cursor} {t : Token} {text : Text}
      (hnext : c.rest.head? = some t) (htake : place.Takes depth t text depth') :
      Turns (.phrase place depth) c (.phrase place depth') (c.advance 1)
  | bracketed {place : Place} {depth : Nat} {c atClose : Cursor} {b : Bracket} {name : Phrase.Body}
      (hnext : c.kindAt 0 = some .dollar) (hopen : Bracket.ofOpening? (c.kindAt 1) = some b)
      (hname : ReadsBody (.name b) 0 (c.advance 2) name atClose) :
      Turns (.phrase place depth) c (.phrase place depth) (atClose.closeReference b name)
  | bare {place : Place} {depth : Nat} {c : Cursor} (hnext : c.kindAt 0 = some .dollar)
      (hopen : Bracket.ofOpening? (c.kindAt 1) = none) :
      Turns (.phrase place depth) c (.phrase place depth) ((c.advance 1).bareName c.offset).2.2
  | token {c : Cursor} {kind : Token.Kind} (hnext : c.kindAt 0 = some kind)
      (hkind : kind ≠ .newline) : Turns .line c .line (c.advance 1)

/-- **A loop is left** at a cursor for another one. -/
inductive Leaves : Loop → Cursor → Cursor → Prop
  | lines {c : Cursor} (hrest : c.skipSpace.rest = []) : Leaves .lines c c.skipSpace
  | recipe {c : Cursor} (htab : c.kindAt c.breaks ≠ some .tab) (hkeyword : c.keyword? = none) :
      Leaves .recipe c c
  | prerequisites {c d : Cursor} {body : Phrase.Body} (hbody : ReadsBody .prerequisites 0 c body d)
      (hstop : ¬ (d.kindAt 0 = some .colon ∧ d.kindAt 1 ≠ some .equals)) :
      Leaves .prerequisites c d
  | phrase {place : Place} {depth : Nat} {c : Cursor}
      (hstop : ∀ kind, c.kindAt 0 = some kind → place.Stops depth kind) :
      Leaves (.phrase place depth) c c
  | backslash {place : Place} {depth : Nat} {c : Cursor} (hnext : c.kindAt 0 = some .backslash) :
      Leaves (.phrase place depth) c ((c.reportHere .nothingToEscape).advance 1)
  | comment {place : Place} {depth : Nat} {c : Cursor} (hnext : c.kindAt 0 = some .hash)
      (hends : place.ends .hash = false) : Leaves (.phrase place depth) c c.comment
  | block {c : Cursor} : Leaves .block c c.defineArguments.2
  | line {c : Cursor} (hstop : ∀ kind, c.kindAt 0 = some kind → kind = .newline) : Leaves .line c c

/-- A loop takes some turns and is left. -/
inductive Runs : Loop → Cursor → Cursor → Prop
  | leave {ℓ : Loop} {c d : Cursor} (hleave : Leaves ℓ c d) : Runs ℓ c d
  | turn {ℓ ℓ' : Loop} {c mid d : Cursor} (hturn : Turns ℓ c ℓ' mid) (hrest : Runs ℓ' mid d) :
      Runs ℓ c d

/-! ## Loops inside loops -/

/-- The loops of a directive that starts at a cursor. -/
inductive EntersDirective (c : Cursor) : Loop → Cursor → Prop
  | arguments {keyword : Keyword} (hkeyword : c.keyword? = some keyword)
      (hphrase : keyword.takesPhrase = true) :
      EntersDirective c (.phrase .line 0) (c.advance 1).skipBlanks
  | block (hkeyword : c.keyword? = some .define) : EntersDirective c .block (c.advance 1)

/-- The loops of a rule, behind its colons. -/
inductive EntersRule (c : Cursor) : Loop → Cursor → Prop
  | prerequisites : EntersRule c .prerequisites c.skipBlanks
  | value {mid : Cursor} {body : Phrase.Body} (hbody : ReadsPrerequisites c.skipBlanks body mid)
      (hnext : mid.kindAt 0 = some .equals) : EntersRule c (.phrase .line 0) (mid.advance 1)
  | simpleValue {mid : Cursor} {body : Phrase.Body}
      (hbody : ReadsPrerequisites c.skipBlanks body mid) (hnext : mid.kindAt 0 = some .colon) :
      EntersRule c (.phrase .line 0) (mid.advance 2)
  | comment {mid : Cursor} {body : Phrase.Body} (hbody : ReadsPrerequisites c.skipBlanks body mid)
      (hnext : mid.kindAt 0 = some .hash) : EntersRule c .line (mid.advance 1)
  | firstLine {mid next : Cursor} {body : Phrase.Body}
      (hbody : ReadsPrerequisites c.skipBlanks body mid) (hopens : OpensRecipe mid true next) :
      EntersRule c .line next
  | recipe {mid next : Cursor} {body : Phrase.Body} {firstLine : Bool}
      (hbody : ReadsPrerequisites c.skipBlanks body mid) (hopens : OpensRecipe mid firstLine next) :
      EntersRule c .recipe { (recipeStart firstLine next).2 with statements := [] }

/-- The loops of a statement that starts at a cursor. -/
inductive EntersStatement (c : Cursor) : Loop → Cursor → Prop
  | directive {ℓ : Loop} {d : Cursor} (h : EntersDirective c ℓ d) : EntersStatement c ℓ d
  | head (hkeyword : c.keyword? = none) : EntersStatement c (.phrase .head 0) c
  | value {mid next : Cursor} {head : Phrase.Body} {op : AssignOp} (hkeyword : c.keyword? = none)
      (hhead : ReadsBody .head 0 c head mid) (hop : ReadsOperator mid op next) :
      EntersStatement c (.phrase .line 0) (next.advance 1)
  | rule {mid next : Cursor} {head : Phrase.Body} {ℓ : Loop} {d : Cursor}
      (hkeyword : c.keyword? = none) (hhead : ReadsBody .head 0 c head mid)
      (hcolons : ReadsColons mid next) (h : EntersRule next ℓ d) : EntersStatement c ℓ d
  | comment {mid : Cursor} {head : Phrase.Body} (hkeyword : c.keyword? = none)
      (hhead : ReadsBody .head 0 c head mid)
      (hhash : (mid.noted ⟨c.offset, head⟩).kindAt 0 = some .hash) :
      EntersStatement c .line ((mid.noted ⟨c.offset, head⟩).advance 1)
  | expectedEquals {mid : Cursor} {head : Phrase.Body} (hkeyword : c.keyword? = none)
      (hhead : ReadsBody .head 0 c head mid) (hquestion : mid.kindAt 0 = some .question)
      (hequals : mid.kindAt 1 ≠ some .equals) :
      EntersStatement c .line ((mid.advance 1).reportHere .expectedEquals)
  | unexpected {mid : Cursor} {head : Phrase.Body} {kind : Token.Kind} (hkeyword : c.keyword? = none)
      (hhead : ReadsBody .head 0 c head mid) (hnext : mid.kindAt 0 = some kind)
      (hkind : kind ∉ [.question, .colon, .equals, .hash, .newline]) :
      EntersStatement c .line (mid.reportHere (.unexpected kind))

/-- **The loops that start inside a turn.** -/
inductive Enters : Loop → Cursor → Loop → Cursor → Prop
  | statement {c d : Cursor} {ℓ : Loop} (hrest : c.skipSpace.rest ≠ [])
      (h : EntersStatement c.skipSpace ℓ d) : Enters .lines c ℓ d
  | recipeLine {c : Cursor} (htab : c.kindAt c.breaks = some .tab) :
      Enters .recipe c .line (c.advance (c.breaks + 1))
  | recipeDirective {c d : Cursor} {ℓ : Loop} (htab : c.kindAt c.breaks ≠ some .tab)
      (h : EntersDirective c ℓ d) : Enters .recipe c ℓ d
  | prerequisite {c : Cursor} : Enters .prerequisites c (.phrase .prerequisites 0) c
  | name {place : Place} {depth : Nat} {c : Cursor} {b : Bracket}
      (hnext : c.kindAt 0 = some .dollar) (hopen : Bracket.ofOpening? (c.kindAt 1) = some b) :
      Enters (.phrase place depth) c (.phrase (.name b) 0) (c.advance 2)
  | comment {place : Place} {depth : Nat} {c : Cursor} (hnext : c.kindAt 0 = some .hash)
      (hends : place.ends .hash = false) : Enters (.phrase place depth) c .line (c.advance 1)

/-- **The loops that come up as a text is read**, with the cursors that they stand at. -/
inductive Comes (source : Text) : Loop → Cursor → Prop
  | start : Comes source .lines (start source)
  | turn {ℓ ℓ' : Loop} {c d : Cursor} (h : Comes source ℓ c) (hturn : Turns ℓ c ℓ' d) :
      Comes source ℓ' d
  | enter {ℓ ℓ' : Loop} {c d : Cursor} (h : Comes source ℓ c) (henter : Enters ℓ c ℓ' d) :
      Comes source ℓ' d

/-! ## The reader runs the loops -/

variable {c d : Cursor} {place : Place} {depth : Nat} {body : Phrase.Body}

theorem ReadsBody.runs (h : ReadsBody place depth c body d) : Runs (.phrase place depth) c d := by
  induction h with
  | finish hstop => exact .leave (.phrase hstop)
  | literal hnext htake hrest ih => exact .turn (.text hnext htake) ih
  | backslash hnext => exact .leave (.backslash hnext)
  | comment hnext hends => exact .leave (.comment hnext hends)
  | bracketed hnext hopen hname hrest ihname ih => exact .turn (.bracketed hnext hopen hname) ih
  | bare hnext hopen hrest ih => exact .turn (.bare hnext hopen) ih

theorem ReadsPrerequisites.runs (h : ReadsPrerequisites c body d) : Runs .prerequisites c d := by
  induction h with
  | last hbody hstop => exact .leave (.prerequisites hbody hstop)
  | more hfirst hcolon hrest ih => exact .turn (.colon hfirst hcolon) ih

theorem ReadsRecipe.runs {lines : Text} (h : ReadsRecipe c lines d) : Runs .recipe c d := by
  induction h with
  | line htab hrest ih => exact .turn (.recipeLine htab) ih
  | directive htab hkeyword hrest ih => exact .turn (.recipeDirective htab hkeyword) ih
  | stop htab hkeyword => exact .leave (.recipe htab hkeyword)

theorem ReadsLines.runs (h : ReadsLines c d) : Runs .lines c d := by
  induction h with
  | done hrest => exact .leave (.lines hrest)
  | statement hrest hlines ih => exact .turn (.statement hrest) ih

theorem skipLine_of_newline (h : ∀ kind, c.kindAt 0 = some kind → kind = .newline) :
    c.skipLine = c := by
  have hline : c.line = [] := by
    unfold line
    cases hrest : c.rest with
    | nil => rfl
    | cons t ts => simp [h _ (kindAt_of_rest hrest)]
  unfold skipLine advance
  rw [hline]
  rfl

theorem skipLine_of_kindAt {kind : Token.Kind} (hnext : c.kindAt 0 = some kind)
    (hkind : kind ≠ .newline) : c.skipLine = (c.advance 1).skipLine := by
  obtain ⟨t, ts, hrest, rfl⟩ := exists_of_kindAt hnext
  have hline : c.line = t :: (c.advance 1).line := by
    unfold line advance
    simp [hrest, hkind]
  unfold skipLine
  rw [advance_advance, hline, List.length_cons, Nat.add_comm]

theorem runs_skipLine {n : Nat} (h : c.rest.length ≤ n) : Runs .line c c.skipLine := by
  induction n generalizing c with
  | zero =>
    have hnil := kindAt_eq_none_iff.mpr (List.length_eq_zero_iff.mp (Nat.le_zero.mp h))
    have hstop : ∀ kind, c.kindAt 0 = some kind → kind = .newline := by
      rw [hnil]
      nofun
    rw [skipLine_of_newline hstop]
    exact .leave (.line hstop)
  | succ n ih =>
    by_cases hstop : ∀ kind, c.kindAt 0 = some kind → kind = .newline
    · rw [skipLine_of_newline hstop]
      exact .leave (.line hstop)
    · obtain ⟨kind, hnext, hkind⟩ : ∃ kind, c.kindAt 0 = some kind ∧ kind ≠ .newline := by
        simpa using hstop
      have hlt := length_advance_lt hnext
      rw [skipLine_of_kindAt hnext hkind]
      exact .turn (.token hnext hkind) (ih (by omega))

/-- **Every loop is left after some turns**, and the reader finds where: a bound of more turns than
it takes makes no difference. -/
theorem runs_read (ℓ : Loop) (c : Cursor) :
    ∃ d, Runs ℓ c d ∧ ∀ fuel, ℓ.bound c ≤ fuel → ℓ.read fuel c = d := by
  cases ℓ with
  | lines =>
    have h := readsLines_readAll (Nat.le_refl c.rest.length)
    exact ⟨_, h.runs, fun fuel hfuel => h.eq_readAll hfuel⟩
  | recipe =>
    have h := readsRecipe_recipeLines (Nat.le_refl c.rest.length)
    exact ⟨_, h.runs, fun fuel hfuel => congrArg Prod.snd (h.eq_recipeLines hfuel)⟩
  | prerequisites =>
    have h := readsPrerequisites_prerequisites (Nat.lt_add_one c.rest.length)
    exact ⟨_, h.runs, fun fuel hfuel => congrArg Prod.snd (h.eq_prerequisites hfuel)⟩
  | phrase place depth =>
    have h := @readsBody_readBody place depth _ c (Nat.le_refl c.rest.length)
    exact ⟨_, h.runs, fun fuel hfuel => congrArg Prod.snd (h.eq_readBody hfuel)⟩
  | block => exact ⟨_, .leave .block, fun _ _ => rfl⟩
  | line => exact ⟨_, runs_skipLine (Nat.le_refl _), fun _ _ => rfl⟩

end Cursor

end MakeBlueprint.Makefile
