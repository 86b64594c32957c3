import MakeBlueprint.Proofs.Reading.Coverage
import MakeBlueprint.Proofs.Reading.Sound

/-!
# Loops make progress

The number of tokens is no measure of what is left of a text: a reference without brackets cuts an
identifier, and the rest is still one token. The number of bytes is (`left`).

* `Turns.left_lt`: **a turn takes a byte or more**, or gives up the rest.
* `Enters.descends`: a loop inside a loop has fewer bytes left, or is of a lower rank.
* `weight`: both together. `length_le_of_steps`: there are no more steps than it allows.
-/

namespace MakeBlueprint.Makefile.Cursor

open Text (byteSize)
open Token (textOf)

variable {source : Text} {c d mid : Cursor} {head body : Phrase.Body} {place : Place}
  {depth : Nat} {ℓ ℓ' : Loop} {kind : Token.Kind}

/-! ## What is left -/

/-- The number of bytes that are left. -/
def left (c : Cursor) : Nat := byteSize (textOf c.rest)

theorem left_of_rest (h : c.rest = []) : left c = 0 := by
  unfold left
  rw [h]
  rfl

theorem StandsIn.left_pos (hc : StandsIn source c) (hrest : c.rest ≠ []) : 0 < left c := by
  obtain ⟨t, ts, hcons⟩ := List.exists_cons_of_ne_nil hrest
  have hne := (hc.formed t (hcons ▸ List.mem_cons_self)).text_ne_nil
  refine Text.byteSize_pos ?_
  rw [hcons, textOf, List.flatMap_cons]
  exact List.append_ne_nil_of_left_ne_nil hne _

/-- What was read and what is left are the whole text, unless the rest was given up. -/
theorem StandsIn.read_add_left (hc : StandsIn source c) :
    c.read + left c = byteSize source ∨ c.rest = [] := by
  obtain ⟨before, after, hs, hb, hrest | ⟨hrest, -⟩⟩ := hc.placed
  · left
    rw [Cursor.left, hrest, ← hb, hs, Text.byteSize_append]
  · exact Or.inr hrest

theorem left_le (hc : StandsIn source c) (hd : StandsIn source d) (h : Ahead c d) :
    left d ≤ left c := by
  have hread := h.read
  rcases hd.read_add_left with hleft | hrest
  · rcases hc.read_add_left with hleft' | hrest
    · omega
    · have hlength := h.length
      rw [hrest] at hlength
      rw [left_of_rest (List.length_eq_zero_iff.mp (Nat.le_zero.mp hlength))]
      exact Nat.zero_le _
  · rw [left_of_rest hrest]
    exact Nat.zero_le _

/-! ## Moving on -/

/-- A reader goes on in the text, or gives up the rest. -/
def Moves (c d : Cursor) : Prop := c.read < d.read ∨ d.rest = []

theorem Moves.ahead (h : Moves c mid) (h' : Ahead mid d) : Moves c d := by
  rcases h with hlt | hrest
  · exact Or.inl (Nat.lt_of_lt_of_le hlt h'.read)
  · have hlength := h'.length
    rw [hrest] at hlength
    exact Or.inr (List.length_eq_zero_iff.mp (Nat.le_zero.mp hlength))

theorem Ahead.moves (h : Ahead c mid) (h' : Moves mid d) : Moves c d :=
  h'.imp_left (Nat.lt_of_le_of_lt h.read)

theorem Sound.moves_advance (h : Sound source c) (hkind : c.kindAt 0 = some kind) :
    Moves c (c.advance 1) := Or.inl (h.stands.read_lt_advance hkind)

theorem Sound.left_lt (hc : Sound source c) (hd : Sound source d) (hrest : c.rest ≠ [])
    (hmoves : Moves c d) : left d < left c := by
  have hpos := hc.stands.left_pos hrest
  have hcleft := hc.stands.read_add_left.resolve_right hrest
  rcases hmoves with hlt | hnil
  · rcases hd.stands.read_add_left with hleft | hnil
    · omega
    · rw [left_of_rest hnil]
      exact hpos
  · rw [left_of_rest hnil]
    exact hpos

theorem exists_kindAt (h : c.rest ≠ []) : ∃ kind, c.kindAt 0 = some kind := by
  obtain ⟨t, ts, hcons⟩ := List.exists_cons_of_ne_nil h
  exact ⟨_, kindAt_of_rest hcons⟩

theorem rest_ne_nil_of_kindAt {n : Nat} (h : c.kindAt n = some kind) : c.rest ≠ [] := by
  unfold kindAt at h
  rintro hrest
  rw [hrest] at h
  cases h

/-! ## Statements -/

theorem Sound.moves_comment (h : Sound source c) (hnext : c.kindAt 0 = some .hash) :
    Moves c c.comment :=
  (h.moves_advance hnext).ahead
    ⟨rfl, ((ahead_skipLine _).trans (ahead_advance _ 1)).length,
      ((ahead_skipLine _).trans (ahead_advance _ 1)).read, List.prefix_rfl⟩

/-- A phrase goes on in the text unless there is nothing of it. -/
theorem ReadsBody.moves (h : ReadsBody place depth c body d) (hc : Sound source c) :
    body = .nil ∧ d = c ∨ Moves c d := by
  cases h with
  | finish hstop => exact Or.inl ⟨rfl, rfl⟩
  | literal hnext htake hrest =>
    obtain ⟨ts, hcons⟩ := List.head?_eq_some_iff.mp hnext
    exact Or.inr ((hc.moves_advance (kindAt_of_rest hcons)).ahead hrest.ahead)
  | backslash hnext =>
    refine Or.inr ?_
    rcases rest_report c c.offset .nothingToEscape with hrest | hrest
    · have hreport : (c.reportHere .nothingToEscape).kindAt 0 = some .backslash := by
        unfold kindAt reportHere at *
        rwa [hrest]
      exact (ahead_reportHere _ _).moves ((hc.report _ rfl).moves_advance hreport)
    · refine Or.inr ?_
      unfold reportHere Cursor.advance
      rw [hrest]
      rfl
  | comment hnext hends => exact Or.inr (hc.moves_comment hnext)
  | bracketed hnext hopen hname hrest =>
    have hinside := (hname.ahead.trans (ahead_closeReference _ _ _)).trans hrest.ahead
    rw [← advance_advance c 1 1] at hinside
    exact Or.inr ((hc.moves_advance hnext).ahead ((ahead_advance _ 1).trans hinside))
  | bare hnext hopen hrest =>
    exact Or.inr ((hc.moves_advance hnext).ahead ((ahead_bareName _ _).trans hrest.ahead))

theorem Sound.moves_endLine (h : Sound source c) (hrest : c.rest ≠ []) : Moves c c.endLine := by
  obtain ⟨kind, hkind⟩ := exists_kindAt hrest
  unfold Cursor.endLine
  split
  · next hhash => exact h.moves_comment hhash
  · exact h.moves_advance hkind

/-- **A statement takes a byte or more**, or gives up the rest of the text. -/
theorem Sound.moves_statement (h : Sound source c) (hrest : c.rest ≠ []) : Moves c c.statement := by
  have hstatement := readsStatement_statement c
  generalize c.statement = d at hstatement
  cases hstatement with
  | directive hkeyword =>
    exact (h.moves_advance (kindAt_of_keyword hkeyword)).ahead (ahead_directive _ _)
  | assignment hkeyword hhead hop =>
    have hnext := hop.sound (hhead.sound h)
    refine (hhead.ahead.trans hop.ahead).moves ?_
    exact (hnext.moves_advance hop.kindAt).ahead (ahead_assignment _ _ _ _)
  | @rule mid next head hkeyword hhead hcolons =>
    have hmid := hhead.sound h
    have hnext : Moves mid next := by
      cases hcolons with
      | single hcolon hequals hcolon' => exact hmid.moves_advance hcolon
      | double hcolon hcolon' hequals =>
        rw [← advance_advance mid 1 1]
        exact (hmid.moves_advance hcolon).ahead (ahead_advance _ 1)
    exact hhead.ahead.moves (hnext.ahead (ahead_rule _ _))
  | @lone mid head hkeyword hhead hnext =>
    rw [loneLine_eq]
    have hnoted := ahead_noted ⟨c.offset, head⟩ mid
    rcases hhead.moves h with ⟨rfl, rfl⟩ | hmoves
    · -- The line is empty but for a comment.
      exact h.moves_endLine hrest
    · exact (hmoves.ahead hnoted).ahead (ahead_endLine _)
  | expectedEquals hkeyword hhead hquestion hequals =>
    have hmark := (hhead.sound h).moves_advance hquestion
    refine hhead.ahead.moves (hmark.ahead ?_)
    exact ((ahead_reportHere _ _).trans (ahead_skipLine _)).trans (ahead_advance _ 1)
  | unexpected hkeyword hhead hnext hkind => exact absurd (hhead.ends_head h hnext) hkind

/-! ## Turns -/

theorem Turns.ahead (h : Turns ℓ c ℓ' d) : Ahead c d := by
  cases h with
  | statement hrest => exact (ahead_skipWhile _ c).trans (ahead_statement _)
  | recipeLine htab => exact (ahead_advance c _).trans (ahead_recipeLine _)
  | recipeDirective htab hkeyword =>
    exact ((ahead_advance c 1).trans (ahead_directive _ c)).trans (ahead_skipBreak _)
  | colon hbody hcolon => exact hbody.ahead.trans (ahead_advance _ 1)
  | text hnext htake => exact ahead_advance c 1
  | bracketed hnext hopen hname =>
    exact ((ahead_advance c 2).trans hname.ahead).trans (ahead_closeReference _ _ _)
  | bare hnext hopen => exact (ahead_advance c 1).trans (ahead_bareName _ _)
  | token hnext hkind => exact ahead_advance c 1

theorem Turns.rest_ne_nil (h : Turns ℓ c ℓ' d) : c.rest ≠ [] := by
  cases h with
  | statement hrest =>
    intro hnil
    rw [skipSpace_of_rest hnil] at hrest
    exact hrest hnil
  | recipeLine htab => exact rest_ne_nil_of_kindAt htab
  | recipeDirective htab hkeyword => exact rest_ne_nil_of_kindAt (kindAt_of_keyword hkeyword)
  | colon hbody hcolon =>
    intro hnil
    have hlength := hbody.ahead.length
    rw [hnil] at hlength
    exact rest_ne_nil_of_kindAt hcolon.1 (List.length_eq_zero_iff.mp (Nat.le_zero.mp hlength))
  | text hnext htake =>
    intro hnil
    rw [hnil] at hnext
    cases hnext
  | bracketed hnext hopen hname => exact rest_ne_nil_of_kindAt hnext
  | bare hnext hopen => exact rest_ne_nil_of_kindAt hnext
  | token hnext hkind => exact rest_ne_nil_of_kindAt hnext

theorem Turns.moves (h : Turns ℓ c ℓ' d) (hc : Sound source c) : Moves c d := by
  obtain ⟨kind, hkind⟩ := exists_kindAt h.rest_ne_nil
  have hone := hc.moves_advance hkind
  cases h with
  | statement hrest =>
    exact (ahead_skipWhile _ c).moves (Sound.moves_statement (hc.advance _) hrest)
  | recipeLine htab =>
    rw [Nat.add_comm, ← advance_advance]
    exact hone.ahead ((ahead_advance _ _).trans (ahead_recipeLine _))
  | recipeDirective htab hkeyword =>
    exact hone.ahead ((ahead_directive _ c).trans (ahead_skipBreak _))
  | colon hbody hcolon =>
    exact hbody.ahead.moves ((hbody.sound hc).moves_advance hcolon.1)
  | text hnext htake => exact hone
  | @bracketed place depth _ atClose b name hnext hopen hname =>
    have hinside := hname.ahead.trans (ahead_closeReference b name atClose)
    rw [← advance_advance c 1 1] at hinside
    exact hone.ahead ((ahead_advance _ 1).trans hinside)
  | bare hnext hopen => exact hone.ahead (ahead_bareName _ _)
  | token hnext hkind => exact hone

/-- **A turn takes a byte or more**, or gives up the rest of the text. -/
theorem Turns.left_lt (h : Turns ℓ c ℓ' d) (hc : Sound source c) : left d < left c :=
  hc.left_lt (h.sound hc) h.rest_ne_nil (h.moves hc)

/-! ## Loops inside loops -/

theorem EntersDirective.descends (h : EntersDirective c ℓ d) : ℓ.rank ≤ 1 ∧ Ahead c d := by
  cases h with
  | arguments hkeyword hphrase =>
    exact ⟨Nat.le_refl 1, (ahead_advance c 1).trans (ahead_skipWhile _ _)⟩
  | block hkeyword => exact ⟨Nat.zero_le 1, ahead_advance c 1⟩

theorem EntersRule.descends (h : EntersRule c ℓ d) : ℓ.rank ≤ 3 ∧ Ahead c d := by
  have hskip : Ahead c c.skipBlanks := ahead_skipWhile _ c
  cases h with
  | prerequisites => exact ⟨by decide, hskip⟩
  | value hbody hnext => exact ⟨by decide, (hskip.trans hbody.ahead).trans (ahead_advance _ 1)⟩
  | simpleValue hbody hnext =>
    exact ⟨by decide, (hskip.trans hbody.ahead).trans (ahead_advance _ 2)⟩
  | comment hbody hnext => exact ⟨by decide, (hskip.trans hbody.ahead).trans (ahead_advance _ 1)⟩
  | firstLine hbody hopens => exact ⟨by decide, (hskip.trans hbody.ahead).trans hopens.ahead⟩
  | @recipe mid next body firstLine hbody hopens =>
    have hstart := (hskip.trans hbody.ahead).trans
      (hopens.ahead.trans (ahead_recipeStart firstLine next))
    exact ⟨by decide, ⟨hstart.size, hstart.length, hstart.read, hstart.faults⟩⟩

theorem EntersStatement.descends (h : EntersStatement c ℓ d) : ℓ.rank ≤ 3 ∧ Ahead c d := by
  cases h with
  | directive h => exact ⟨Nat.le_trans h.descends.1 (by decide), h.descends.2⟩
  | head hkeyword => exact ⟨by decide, Ahead.refl c⟩
  | value hkeyword hhead hop =>
    exact ⟨by decide, (hhead.ahead.trans hop.ahead).trans (ahead_advance _ 1)⟩
  | rule hkeyword hhead hcolons h =>
    exact ⟨h.descends.1, (hhead.ahead.trans hcolons.ahead).trans h.descends.2⟩
  | comment hkeyword hhead hhash =>
    exact ⟨by decide, (hhead.ahead.trans (ahead_noted _ _)).trans (ahead_advance _ 1)⟩
  | expectedEquals hkeyword hhead hquestion hequals =>
    exact ⟨by decide, (hhead.ahead.trans (ahead_advance _ 1)).trans (ahead_reportHere _ _)⟩
  | unexpected hkeyword hhead hnext hkind =>
    exact ⟨by decide, hhead.ahead.trans (ahead_reportHere _ _)⟩

/-- **A loop inside a loop** has fewer bytes left, or is of a lower rank with no more of them. -/
theorem Enters.descends (h : Enters ℓ c ℓ' d) (hc : Sound source c) :
    left d < left c ∨ ℓ'.rank < ℓ.rank ∧ left d ≤ left c := by
  have hd := h.sound hc
  have hle : ∀ {c' d' : Cursor}, Sound source c' → Sound source d' → Ahead c' d' →
      left d' ≤ left c' := fun hc' hd' => left_le hc'.stands hd'.stands
  cases h with
  | statement hrest h =>
    exact Or.inr ⟨Nat.lt_succ_of_le h.descends.1,
      hle hc hd ((ahead_skipWhile _ c).trans h.descends.2)⟩
  | recipeLine htab => exact Or.inr ⟨by decide, hle hc hd (ahead_advance c _)⟩
  | recipeDirective htab h =>
    exact Or.inr ⟨Nat.lt_of_le_of_lt h.descends.1 (by decide), hle hc hd h.descends.2⟩
  | prerequisite => exact Or.inr ⟨by decide, Nat.le_refl _⟩
  | name hnext hopen =>
    refine Or.inl (hc.left_lt hd (rest_ne_nil_of_kindAt hnext) ?_)
    rw [← advance_advance c 1 1]
    exact (hc.moves_advance hnext).ahead (ahead_advance _ 1)
  | comment hnext hends => exact Or.inr ⟨Nat.zero_lt_one, hle hc hd (ahead_advance c 1)⟩

/-! ## Steps -/

/-- A step of the reader: a turn of a loop, or the start of a loop inside a turn. -/
def Steps (x y : Loop × Cursor) : Prop :=
  Turns x.1 x.2 y.1 y.2 ∨ Enters x.1 x.2 y.1 y.2

/-- What a loop may still take: there are five ranks. -/
def weight (x : Loop × Cursor) : Nat := 5 * left x.2 + x.1.rank

theorem rank_le (ℓ : Loop) : ℓ.rank ≤ 4 := by
  cases ℓ <;> simp [Loop.rank]

theorem Steps.weight_lt {x y : Loop × Cursor} (h : Steps x y) (hx : Sound source x.2) :
    weight y < weight x := by
  have hrank := rank_le y.1
  unfold weight
  rcases h with hturn | henter
  · have hlt := hturn.left_lt hx
    omega
  · have hdescends := henter.descends hx
    omega

theorem Steps.comes {x y : Loop × Cursor} (h : Steps x y) (hx : Comes source x.1 x.2) :
    Comes source y.1 y.2 :=
  h.elim hx.turn hx.enter

/-- **There is no endless run of steps**: their number is bounded by the size of the text. -/
theorem length_le_of_steps {run : Nat → Loop × Cursor} {n : Nat}
    (hstart : run 0 = (.lines, start source)) (hsteps : ∀ i < n, Steps (run i) (run (i + 1))) :
    n ≤ 5 * byteSize source + 4 := by
  have hweight : ∀ i ≤ n, Comes source (run i).1 (run i).2 ∧
      i + weight (run i) ≤ weight (run 0) := by
    intro i
    induction i with
    | zero =>
      intro _
      rw [hstart]
      exact ⟨.start, Nat.le_of_eq (Nat.zero_add _)⟩
    | succ i ih =>
      intro hi
      obtain ⟨hcomes, hle⟩ := ih (by omega)
      have hstep := hsteps i hi
      have hlt := hstep.weight_lt hcomes.sound
      exact ⟨hstep.comes hcomes, by omega⟩
  have hzero : weight (run 0) = 5 * byteSize source + 4 := by
    rw [hstart]
    exact congrArg (fun t => 5 * byteSize t + 4) (Token.textOf_lex source)
  have hlast := (hweight n (Nat.le_refl n)).2
  omega

end MakeBlueprint.Makefile.Cursor
