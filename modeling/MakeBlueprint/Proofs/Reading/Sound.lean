import Mathlib.Data.List.TakeDrop
import MakeBlueprint.Proofs.Reading.Loops
import MakeBlueprint.Proofs.Reading.Spans

/-!
# Sound cursors

What holds of a cursor wherever a loop of the reader stands (`Sound`). Every step keeps it, and so
does every reader.

* `ReadsBody.ends`, `ReadsPrerequisites.ends`: **how phrases end** at the start of a line and behind
  the colon of a rule. Every token that may stand there has a form of a statement or of a rule that
  goes on with it, so that no token is reported as unexpected.
* `ReadsLines.sound`, `Comes.sound`: the cursors at the end of a text, and before every turn of a
  loop.
-/

namespace MakeBlueprint.Makefile

open Text (byteSize)

/-- Whether a cause is a token that no form of a statement or of a rule goes on with. -/
def Cause.isFallback : Cause → Bool
  | .unexpected _ | .unexpectedInRule _ => true
  | _ => false

namespace Cursor

variable {source : Text} {c d mid next : Cursor} {body : Phrase.Body} {place : Place}
  {depth : Nat} {ℓ ℓ' : Loop} {kind : Token.Kind}

/-! ## Steps -/

/-- **What holds of every cursor that a text is read with.** -/
structure Sound (source : Text) (c : Cursor) : Prop where
  stands : StandsIn source c
  size : c.size = byteSize source
  /-- A backslash that escapes nothing is the last token. -/
  backslash : ∀ t ∈ c.rest.dropLast, t.kind ≠ .backslash
  few : c.faults.length ≤ Fault.limit
  capped : Fault.limit ≤ c.faults.length → c.rest = []
  expected : ∀ f ∈ c.faults, f.cause.isFallback = false

theorem sound_start (source : Text) : Sound source (start source) where
  stands := standsIn_start source
  size := rfl
  backslash := Token.ne_backslash_of_mem_dropLast source
  few := Nat.zero_le _
  capped := fun hlimit => absurd hlimit (Nat.not_succ_le_zero _)
  expected := nofun

theorem Sound.congr (h : Sound source c) (hrest : d.rest = c.rest) (hread : d.read = c.read)
    (hsize : d.size = c.size) (hfaults : d.faults = c.faults) : Sound source d where
  stands := h.stands.congr hrest hread hfaults
  size := hsize.trans h.size
  backslash := hrest ▸ h.backslash
  few := hfaults ▸ h.few
  capped := by
    rw [hrest, hfaults]
    exact h.capped
  expected := hfaults ▸ h.expected

theorem Sound.advance (h : Sound source c) (n : Nat) : Sound source (c.advance n) where
  stands := h.stands.advance n
  size := h.size
  backslash := by
    intro t ht
    refine h.backslash t ?_
    have hdrop : (c.advance n).rest.dropLast = c.rest.dropLast.drop n :=
      List.dropLast_drop_eq_drop_dropLast _ n
    exact List.mem_of_mem_drop (hdrop ▸ ht)
  few := h.few
  capped hlimit := by
    unfold Cursor.advance
    rw [h.capped hlimit]
    exact List.drop_nil
  expected := h.expected

/-- A report notes its fault and no other one, unless there are too many already. -/
theorem report_cases (c : Cursor) (offset : Nat) (cause : Cause) :
    c.report offset cause = c ∨
      c.faults.length < Fault.limit ∧
        (c.report offset cause).faults = c.faults ++ [⟨cause, offset⟩] ∧
        (Fault.limit ≤ c.faults.length + 1 → (c.report offset cause).rest = []) := by
  unfold report
  split
  · exact Or.inl rfl
  · next hfew =>
    refine Or.inr ⟨Nat.lt_of_not_le hfew, ?_⟩
    split
    · exact ⟨rfl, fun _ => rfl⟩
    · next hlast => exact ⟨rfl, fun h => absurd h hlast⟩

theorem Sound.report {cause : Cause} (h : Sound source c) (offset : Nat)
    (hcause : cause.isFallback = false) : Sound source (c.report offset cause) := by
  rcases report_cases c offset cause with hsame | ⟨hlt, hfaults, hlast⟩
  · rw [hsame]
    exact h
  · have hlength : (c.report offset cause).faults.length = c.faults.length + 1 := by
      rw [hfaults, List.length_append, List.length_singleton]
    refine
      { stands := h.stands.report offset cause
        size := (ahead_report c offset cause).size.trans h.size
        backslash := ?_
        few := hlength ▸ hlt
        capped := hlength ▸ hlast
        expected := ?_ }
    · rcases rest_report c offset cause with hrest | hrest
      · exact hrest ▸ h.backslash
      · rw [hrest]
        exact nofun
    · rw [hfaults]
      exact List.forall_mem_append.mpr ⟨h.expected, List.forall_mem_singleton.mpr hcause⟩

theorem Sound.bareName (h : Sound source c) (dollar : Nat) :
    Sound source (c.bareName dollar).2.2 := by
  have hstands := h.stands.bareName dollar
  unfold Cursor.bareName at hstands ⊢
  split
  · exact h.report _ rfl
  · next t ts hrest =>
    rw [hrest] at hstands
    dsimp only at hstands
    split
    · exact h.report _ rfl
    · exact h.advance 1
    · next hkind =>
      rw [hkind] at hstands
      dsimp only at hstands
      split
      · next x y w htext =>
        rw [htext] at hstands
        have hcapped := h.capped
        have hlast := h.backslash
        rw [hrest] at hcapped hlast
        refine ⟨hstands, h.size, fun u hu => ?_, h.few, (nomatch hcapped ·),
          h.expected⟩
        cases ts with
        | nil => exact absurd hu List.not_mem_nil
        | cons v vs =>
          rcases List.mem_cons.mp hu with rfl | hu
          · nofun
          · exact hlast u (List.mem_cons_of_mem t hu)
      · exact h.advance 1
    · exact h.advance 1

theorem Sound.closeReference (h : Sound source c) (b : Bracket) (name : Phrase.Body) :
    Sound source (c.closeReference b name) := by
  unfold Cursor.closeReference
  split
  · exact h.advance 1
  · exact h.report _ rfl

theorem Sound.comment (h : Sound source c) : Sound source c.comment :=
  (((h.advance 1).advance _).advance 1).congr rfl rfl rfl rfl

theorem Sound.recipeLine (h : Sound source c) : Sound source c.recipeLine.2 :=
  (h.advance _).advance 1

theorem Sound.record (h : Sound source c) (content : Content) (start : Nat) :
    Sound source (c.record content start) := h.congr rfl rfl rfl rfl

/-! ## Phrases -/

theorem ReadsBody.sound (h : ReadsBody place depth c body d) (hc : Sound source c) :
    Sound source d := by
  induction h with
  | finish hstop => exact hc
  | literal hnext htake hrest ih => exact ih (hc.advance 1)
  | backslash hnext => exact (hc.report _ rfl).advance 1
  | comment hnext hends => exact hc.comment
  | bracketed hnext hopen hname hrest ihname ih =>
    exact ih ((ihname (hc.advance 2)).closeReference _ _)
  | bare hnext hopen hrest ih => exact ih ((hc.advance 1).bareName _)

theorem Sound.phrase (h : Sound source c) (place : Place) : Sound source (c.phrase place).2 :=
  (reads_phrase place c).sound h

theorem ReadsPrerequisites.sound (h : ReadsPrerequisites c body d) (hc : Sound source c) :
    Sound source d := by
  induction h with
  | last hbody hstop => exact hbody.sound hc
  | more hfirst hcolon hrest ih => exact ih ((hfirst.sound hc).advance 1)

/-- Nothing is behind a backslash that escapes nothing. -/
theorem Sound.kindAt_one (h : Sound source c) (hnext : c.kindAt 0 = some .backslash) :
    c.kindAt 1 = none := by
  obtain ⟨t, ts, hrest, ht⟩ := exists_of_kindAt hnext
  cases ts with
  | nil =>
    unfold kindAt
    rw [hrest]
    rfl
  | cons u us => exact absurd ht (h.backslash t (by simp [hrest]))

/-- **A phrase ends at a token that ends it in its place**, at the end of the line, or with the
text. -/
theorem ReadsBody.ends (h : ReadsBody place depth c body d) (hc : Sound source c)
    (hhash : place.ends .hash = true) (hkind : d.kindAt 0 = some kind) :
    place.ends kind = true ∨ kind = .newline := by
  induction h with
  | finish hstop => exact (hstop kind hkind).2
  | literal hnext htake hrest ih => exact ih (hc.advance 1) hhash hkind
  | @backslash place depth c hnext =>
    rw [kindAt_advance] at hkind
    have hone := hc.kindAt_one hnext
    unfold kindAt at hkind hone
    rcases rest_report c c.offset .nothingToEscape with hrest | hrest
    · rw [reportHere, hrest, hone] at hkind
      cases hkind
    · rw [reportHere, hrest] at hkind
      cases hkind
  | comment hnext hends =>
    rw [hhash] at hends
    cases hends
  | bracketed hnext hopen hname hrest ihname ih =>
    exact ih ((hname.sound (hc.advance 2)).closeReference _ _) hhash hkind
  | bare hnext hopen hrest ih => exact ih ((hc.advance 1).bareName _) hhash hkind

theorem ReadsBody.ends_head (h : ReadsBody .head 0 c body d) (hc : Sound source c)
    (hkind : d.kindAt 0 = some kind) : kind ∈ [.question, .colon, .equals, .hash, .newline] := by
  have hends := h.ends hc rfl hkind
  cases kind <;> simp_all [Place.ends]

theorem ReadsPrerequisites.ends (h : ReadsPrerequisites c body d) (hc : Sound source c)
    (hkind : d.kindAt 0 = some kind) : kind ∈ [.equals, .colon, .semicolon, .newline, .hash] := by
  induction h with
  | last hbody hstop =>
    have hends := hbody.ends hc rfl hkind
    cases kind <;> simp_all [Place.ends]
  | more hfirst hcolon hrest ih => exact ih ((hfirst.sound hc).advance 1) hkind

/-! ## Statements -/

theorem Sound.defineArguments (h : Sound source c) : Sound source c.defineArguments.2 := by
  have hskip : Sound source c.skipBlanks := h.advance _
  unfold Cursor.defineArguments
  dsimp only
  split
  · exact hskip.advance _
  · exact (hskip.report _ rfl).advance _

theorem Sound.directive (h : Sound source c) (keyword : Keyword) :
    Sound source (c.directive keyword) := by
  have hone := h.advance 1
  have hphrase : Sound source ((c.advance 1).skipBlanks.phrase .line).2 :=
    Sound.phrase (hone.advance _) .line
  have harguments : Sound source ((c.advance 1).directiveArguments keyword).2 := by
    unfold directiveArguments
    split
    · exact hone
    · exact hone
    · exact hone
    · exact hone.defineArguments
    · exact hphrase
  exact harguments.record _ _

theorem Sound.skipBreak (h : Sound source c) : Sound source c.skipBreak := by
  unfold Cursor.skipBreak
  split
  · exact h.advance 1
  · exact h

theorem Sound.assignment (h : Sound source c) (op : AssignOp) (target : Option Phrase)
    (name : Phrase) : Sound source (c.assignment op target name) := by
  have hvalue := (h.advance 1).phrase .line
  unfold Cursor.assignment
  dsimp only
  split
  · exact hvalue.report _ rfl
  · exact hvalue.record _ _

theorem ReadsRecipe.sound {lines : Text} (h : ReadsRecipe c lines d) (hc : Sound source c) :
    Sound source d := by
  induction h with
  | line htab hrest ih => exact ih (hc.advance _).recipeLine
  | directive htab hkeyword hrest ih => exact ih (hc.directive _).skipBreak
  | stop htab hkeyword => exact hc

theorem Sound.recipeStart (h : Sound source c) (firstLine : Bool) :
    Sound source (recipeStart firstLine c).2 := by
  unfold Cursor.recipeStart
  split
  · exact h.recipeLine
  · exact h

theorem Sound.recipe (h : Sound source c) (target prerequisites : Phrase) (firstLine : Bool) :
    Sound source (c.recipe target prerequisites firstLine) := by
  obtain ⟨lines, d, hlines, heq⟩ := exists_recipe target prerequisites firstLine c
  have hinside := hlines.sound ((h.recipeStart firstLine).congr rfl rfl rfl rfl)
  rw [heq]
  exact hinside.congr rfl rfl rfl rfl

theorem OpensRecipe.sound {firstLine : Bool} (h : OpensRecipe mid firstLine next)
    (hbody : ReadsPrerequisites c body mid) (hc : Sound source c) : Sound source next := by
  have hmid := hbody.sound hc
  cases h with
  | semicolon hnext => exact (hmid.advance 1).advance _
  | newline hnext => exact hmid.advance 1
  | comment hnext => exact hmid.comment
  | nothing hnext => exact hmid
  | unexpected kind hnext hkind => exact absurd (hbody.ends hc hnext) hkind

theorem Sound.rule (h : Sound source c) (target : Phrase) : Sound source (c.rule target) := by
  have hskip : Sound source c.skipBlanks := h.advance _
  have hrule := readsRule_rule target c
  generalize c.rule target = d at hrule
  cases hrule with
  | assignment hbody hnext => exact (hbody.sound hskip).assignment _ _ _
  | simple hbody hnext => exact ((hbody.sound hskip).advance 1).assignment _ _ _
  | recipe hbody hopens => exact (hopens.sound hbody hskip).recipe _ _ _

theorem ReadsOperator.sound {op : AssignOp} (h : ReadsOperator c op next) (hc : Sound source c) :
    Sound source next := by
  cases h with
  | recursive hequals => exact hc
  | conditional hquestion hequals => exact hc.advance 1
  | simple hcolon hequals => exact hc.advance 1
  | double hcolon hcolon' hequals => exact hc.advance 2

theorem ReadsColons.sound (h : ReadsColons c next) (hc : Sound source c) : Sound source next := by
  cases h with
  | single hcolon hequals hcolon' => exact hc.advance 1
  | double hcolon hcolon' hequals => exact hc.advance 2

theorem Sound.noted (h : Sound source c) (phrase : Phrase) : Sound source (c.noted phrase) := by
  unfold Cursor.noted
  split
  · exact h.record _ _
  · split
    · exact h
    · exact h.report _ rfl

theorem Sound.endLine (h : Sound source c) : Sound source c.endLine := by
  unfold Cursor.endLine
  split
  · exact h.comment
  · exact h.advance 1

theorem Sound.statement (h : Sound source c) : Sound source c.statement := by
  have hstatement := readsStatement_statement c
  generalize c.statement = d at hstatement
  cases hstatement with
  | directive hkeyword => exact h.directive _
  | assignment hkeyword hhead hop => exact (hop.sound (hhead.sound h)).assignment _ _ _
  | rule hkeyword hhead hcolons => exact (hcolons.sound (hhead.sound h)).rule _
  | @lone mid head hkeyword hhead hnext =>
    rw [loneLine_eq]
    exact ((hhead.sound h).noted _).endLine
  | expectedEquals hkeyword hhead hquestion hequals =>
    exact ((((hhead.sound h).advance 1).report _ rfl).advance _).advance 1
  | unexpected hkeyword hhead hnext hkind => exact absurd (hhead.ends_head h hnext) hkind

theorem ReadsLines.sound (h : ReadsLines c d) (hc : Sound source c) : Sound source d := by
  induction h with
  | done hrest => exact hc.advance _
  | statement hrest hlines ih => exact ih (Sound.statement (hc.advance _))

/-! ## Loops -/

theorem Turns.sound (h : Turns ℓ c ℓ' d) (hc : Sound source c) : Sound source d := by
  cases h with
  | statement hrest => exact Sound.statement (hc.advance _)
  | recipeLine htab => exact (hc.advance _).recipeLine
  | recipeDirective htab hkeyword => exact (hc.directive _).skipBreak
  | colon hbody hcolon => exact (hbody.sound hc).advance 1
  | text hnext htake => exact hc.advance 1
  | bracketed hnext hopen hname => exact (hname.sound (hc.advance 2)).closeReference _ _
  | bare hnext hopen => exact (hc.advance 1).bareName _
  | token hnext hkind => exact hc.advance 1

theorem EntersDirective.sound (h : EntersDirective c ℓ d) (hc : Sound source c) :
    Sound source d := by
  cases h with
  | arguments hkeyword hphrase => exact (hc.advance 1).advance _
  | block hkeyword => exact hc.advance 1

theorem EntersRule.sound (h : EntersRule c ℓ d) (hc : Sound source c) : Sound source d := by
  have hskip : Sound source c.skipBlanks := hc.advance _
  cases h with
  | prerequisites => exact hskip
  | value hbody hnext => exact (hbody.sound hskip).advance 1
  | simpleValue hbody hnext => exact (hbody.sound hskip).advance 2
  | comment hbody hnext => exact (hbody.sound hskip).advance 1
  | firstLine hbody hopens => exact hopens.sound hbody hskip
  | recipe hbody hopens =>
    exact ((hopens.sound hbody hskip).recipeStart _).congr rfl rfl rfl rfl

theorem EntersStatement.sound (h : EntersStatement c ℓ d) (hc : Sound source c) :
    Sound source d := by
  cases h with
  | directive h => exact h.sound hc
  | head hkeyword => exact hc
  | value hkeyword hhead hop => exact (hop.sound (hhead.sound hc)).advance 1
  | rule hkeyword hhead hcolons h => exact h.sound (hcolons.sound (hhead.sound hc))
  | comment hkeyword hhead hhash => exact ((hhead.sound hc).noted _).advance 1
  | expectedEquals hkeyword hhead hquestion hequals =>
    exact ((hhead.sound hc).advance 1).report _ rfl
  | unexpected hkeyword hhead hnext hkind => exact absurd (hhead.ends_head hc hnext) hkind

theorem Enters.sound (h : Enters ℓ c ℓ' d) (hc : Sound source c) : Sound source d := by
  cases h with
  | statement hrest h => exact h.sound (hc.advance _)
  | recipeLine htab => exact hc.advance _
  | recipeDirective htab h => exact h.sound hc
  | prerequisite => exact hc
  | name hnext hopen => exact hc.advance 2
  | comment hnext hends => exact hc.advance 1

/-- **Loops stand at sound cursors.** -/
theorem Comes.sound (h : Comes source ℓ c) : Sound source c := by
  induction h with
  | start => exact sound_start source
  | turn h hturn ih => exact hturn.sound ih
  | enter h henter ih => exact henter.sound ih

end Cursor

end MakeBlueprint.Makefile
