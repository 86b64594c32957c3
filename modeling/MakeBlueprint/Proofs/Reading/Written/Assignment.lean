import MakeBlueprint.Proofs.Reading.Spelled
import MakeBlueprint.Proofs.Reading.Written.Basic

/-!
# Reading written assignments

In the text of an assignment stands a blank behind the name, and the operator behind that. The
reader takes a plus or a question mark in front of the equals sign for the end of the name first:
`Splits` says what is read with the name and what ends it.

* `readsAgain_value`, `readsAgain_assignment`: the value, whatever is in front of it.
* `Splits.takeMark_head`, `Splits.takeMark_prerequisites`: the name and the operator.
* `readsAgain_plain`, `readsAgain_targeted`: assignments without and with a target.
-/

namespace MakeBlueprint.Makefile

open Text (IsPlain)
open Token (lex kindOf)
open Phrase (Body)

namespace Cursor

variable {c : Cursor} {name body : Body} {op op' : AssignOp} {mark lead s : Text}

theorem fits_blank (place : Place) : Fits place 0 (.char ' ' .nil) 0 := by
  refine .char (by decide) (.literal ?_ rfl) ?_
  · cases place with
    | name b => cases b <;> rfl
    | head | prerequisites | line => rfl
  · have hopens : place.opens (kindOf ' ') = false := by
      cases place with
      | name b => cases b <;> rfl
      | head | prerequisites | line => rfl
    rw [hopens]
    exact .nil

/-- The value of an assignment is what is read behind its operator, without the white characters at
both ends. -/
theorem readsAgain_value {target target' : Option Phrase} {name name' value : Phrase} {v u : Text}
    (hread : ReadsBody .line 0 (c.advance 1) body (c.upTo v u)) (hend : u = [] ∨ u = ['\n'])
    (hbody : body.trimStart.trimEnd.mapPos (fun _ => 0) = value.body.mapPos (fun _ => 0))
    (hop : (op'.takeMark name').1 = op)
    (hname : (op'.takeMark name').2.trimEnd.mapPos (fun _ => 0) = name.mapPos (fun _ => 0))
    (hne : name.body ≠ .nil)
    (htarget : target'.map (Phrase.mapPos fun _ => 0) = target.map (Phrase.mapPos fun _ => 0)) :
    ReadsAgain (.assignment ⟨name, op, value, target⟩) c (c.assignment op' target' name') := by
  have htrim : (Phrase.trim ⟨(c.advance 1).offset, body⟩).mapPos (fun _ => 0) =
      value.mapPos (fun _ => 0) := congrArg (Phrase.mk 0) hbody
  have hnonempty : ¬ (op'.takeMark name').2.trimEnd.isEmpty = true := by
    rw [← Phrase.isEmpty_mapPos fun _ => 0, hname, Phrase.isEmpty_mapPos]
    simpa [Phrase.isEmpty] using hne
  unfold assignment
  rw [hread.phrase_eq]
  dsimp only
  rw [if_neg hnonempty]
  refine readsAgain_record_end c _ _ hend ?_
  simp only [Content.mapPos]
  rw [hname, hop, htarget, htrim]

/-- **The value of an assignment is read again**, whatever its name is. -/
theorem readsAgain_assignment {target target' : Option Phrase} {name name' value : Phrase}
    (hc : c.rest = lex ('=' :: ' ' :: (value.body.dump ++ ['\n']))) (hvalue : value.body.IsValue)
    (hop : (op'.takeMark name').1 = op)
    (hname : (op'.takeMark name').2.trimEnd.mapPos (fun _ => 0) = name.mapPos (fun _ => 0))
    (hne : name.body ≠ .nil)
    (htarget : target'.map (Phrase.mapPos fun _ => 0) = target.map (Phrase.mapPos fun _ => 0)) :
    ReadsAgain (.assignment ⟨name, op, value, target⟩) c (c.assignment op' target' name') := by
  have hplain : IsPlain ('=' :: ' ' :: (value.body.dump ++ ['\n'])) :=
    Text.isPlain_append.mpr
      ⟨(by decide : IsPlain ['=', ' ']), Text.isPlain_append.mpr ⟨hvalue.fits.plain, by decide⟩⟩
  have hone := advance_one_eq hc hplain (by decide)
  obtain ⟨body, hread, hsame⟩ := reads_of_fits ((fits_blank .line).append hvalue.fits)
    (c := c.advance 1) (u := ['\n']) (congrArg Cursor.rest hone) (isPlain_tail hplain) (by
      rintro y ⟨⟩
      exact Place.stops_zero (Or.inr rfl))
  have hbody : body.trimStart.trimEnd.mapPos (fun _ => 0) = value.body.mapPos (fun _ => 0) := by
    have hblank : (Body.char ' ' .nil ++ value.body).trimStart = value.body.trimStart := rfl
    rw [← Body.trimEnd_mapPos, ← Body.trimStart_mapPos, hsame, Body.trimStart_mapPos,
      Body.trimEnd_mapPos, hblank, Body.trimStart_of_leadingWhite hvalue.leadingWhite,
      hvalue.trimEnd]
  rw [hone, upTo_upTo, ← hone] at hread
  exact readsAgain_value hread (Or.inr rfl) hbody hop hname hne htarget

/-- **How an operator is read** behind a name and a blank: a mark that is read as part of the name,
what ends the name, and the operator that this is taken for. -/
inductive Splits : Place → AssignOp → Text → Text → AssignOp → Prop
  | recursive {place : Place} : Splits place .recursive [] [] .recursive
  | simple {place : Place} : Splits place .simple [] [':'] .simple
  | append {place : Place} : Splits place .append ['+'] [] .recursive
  | conditional : Splits .head .conditional [] ['?'] .conditional
  | marked : Splits .prerequisites .conditional ['?'] [] .recursive

theorem exists_splits_head (op : AssignOp) : ∃ mark lead op', Splits .head op mark lead op' := by
  cases op with
  | recursive => exact ⟨_, _, _, .recursive⟩
  | simple => exact ⟨_, _, _, .simple⟩
  | append => exact ⟨_, _, _, .append⟩
  | conditional => exact ⟨_, _, _, .conditional⟩

theorem exists_splits_prerequisites (op : AssignOp) :
    ∃ mark lead op', Splits .prerequisites op mark lead op' := by
  cases op with
  | recursive => exact ⟨_, _, _, .recursive⟩
  | simple => exact ⟨_, _, _, .simple⟩
  | append => exact ⟨_, _, _, .append⟩
  | conditional => exact ⟨_, _, _, .marked⟩

namespace Splits

variable {place : Place} (h : Splits place op mark lead op')

include h

theorem text_eq : op.text = mark ++ lead ++ ['='] := by
  cases h <;> rfl

/-- No colon of the name stands in front of the operator, and that of the operator stands in front
of its equals sign. -/
theorem colons (t s : Text) :
    (∀ v, lead ++ '=' :: s = ':' :: v → ∃ w, v = '=' :: w) ∧
      (t ++ ' ' :: mark).getLast? ≠ some ':' := by
  cases h <;> simp

theorem denies (s : Text) :
    ∃ x ∈ ((' ' :: (mark ++ (lead ++ '=' :: s))).dropWhile fun x => (kindOf x).isBlank).head?,
      (kindOf x).deniesDirective = true := by
  cases h <;> exact ⟨_, rfl, rfl⟩

/-- The mark is read with the name. -/
theorem fits (hplace : place = .head ∨ place = .prerequisites) :
    Fits place 0 (.ofText (' ' :: mark)) 0 := by
  have hmark : ∀ x : Char, IsPlain [x] → place.ends (kindOf x) = false →
      (kindOf x).isLiteral = true → Fits place 0 (.ofText [' ', x]) 0 := by
    intro x hx hends hliteral
    have hopens : place.opens (kindOf x) = false := by
      rcases hplace with rfl | rfl <;> rfl
    refine (fits_blank place).append (.char hx (.literal hends hliteral) ?_)
    rw [hopens]
    exact .nil
  cases h with
  | recursive | simple | conditional => exact fits_blank _
  | append => exact hmark '+' (by decide) (by rcases hplace with rfl | rfl <;> rfl) rfl
  | marked => exact hmark '?' (by decide) rfl rfl

theorem stops (hplace : place = .head ∨ place = .prerequisites) (s : Text) :
    ∀ y ∈ (lead ++ '=' :: s).head?, place.Stops 0 (kindOf y) := by
  intro y hy
  refine Place.stops_zero (Or.inl ?_)
  rcases hplace with rfl | rfl <;> cases h <;> cases hy <;> rfl

end Splits

theorem lex_equals (s : Text) : lex ('=' :: s) = ⟨.equals, ['=']⟩ :: lex s :=
  Token.lex_append_singles (w := ['=']) (List.forall_mem_singleton.mpr (by decide)) s

/-- What ends the name is a token for each of its characters. -/
theorem Splits.lex_lead {place : Place} (h : Splits place op mark lead op') (s : Text) :
    lex (lead ++ '=' :: s) = lex lead ++ ⟨.equals, ['=']⟩ :: lex s := by
  have hlead : ∀ x ∈ lead, kindOf x ≠ .identifier ∧ x ≠ '\r' := by
    cases h with
    | recursive | append | marked => nofun
    | simple | conditional => exact List.forall_mem_singleton.mpr (by decide)
  rw [Token.lex_append_singles hlead, lex_equals]

theorem past_lead (c : Cursor) (lead s : Text) :
    c.past (lex lead) (⟨.equals, ['=']⟩ :: lex s) = c.upTo lead ('=' :: s) := by
  rw [past, upTo, lex_equals, Token.textOf_lex]

/-- At the start of a line, the operator is read where the name ends. -/
theorem Splits.reads (h : Splits .head op mark lead op') {us : List Token}
    (hc : c.rest = lex lead ++ ⟨.equals, ['=']⟩ :: us) :
    ReadsOperator c op' (c.past (lex lead) (⟨.equals, ['=']⟩ :: us)) := by
  rw [← advance_eq_past _ hc]
  cases h with
  | recursive | append => exact .recursive (kindAt_of_rest hc)
  | simple => exact .simple (kindAt_of_rest hc) (by rw [kindAt, hc]; rfl)
  | conditional => exact .conditional (kindAt_of_rest hc) (by rw [kindAt, hc]; rfl)

theorem Splits.readsOperator (h : Splits .head op mark lead op')
    (hc : c.rest = lex (lead ++ '=' :: s)) :
    ReadsOperator c op' (c.upTo lead ('=' :: s)) := by
  rw [← past_lead]
  exact h.reads (hc.trans (h.lex_lead s))

/-! ### Marks -/

theorem takeMark_plus (pos : Nat) (b : Body) :
    AssignOp.takeMark .recursive ⟨pos, b ++ .char '+' .nil⟩ = (.append, ⟨pos, b⟩) := by
  unfold AssignOp.takeMark
  rw [if_pos ⟨rfl, b.endsWith_append_char '+' '+'⟩]
  exact congrArg (fun b => (AssignOp.append, Phrase.mk pos b)) (b.dropLast_append_char '+')

theorem takeMark_question (pos : Nat) (b : Body) :
    AssignOp.takeMark .recursive ⟨pos, b ++ .char '?' .nil⟩ = (.conditional, ⟨pos, b⟩) := by
  unfold AssignOp.takeMark
  rw [if_neg, if_pos ⟨rfl, b.endsWith_append_char '?' '?'⟩]
  · exact congrArg (fun b => (AssignOp.conditional, Phrase.mk pos b)) (b.dropLast_append_char '?')
  · rintro ⟨-, hplus⟩
    rw [b.endsWith_append_char '+' '?'] at hplus
    cases hplus

theorem takeMark_of_not_endsWith {name : Phrase}
    (h : op = .recursive → name.body.endsWith '+' = false ∧ name.body.endsWith '?' = false) :
    op.takeMark name = (op, name) := by
  unfold AssignOp.takeMark
  rw [if_neg, if_neg]
  · rintro ⟨hop, hquestion⟩
    rw [(h hop).2] at hquestion
    cases hquestion
  · rintro ⟨hop, hplus⟩
    rw [(h hop).1] at hplus
    cases hplus

/-- The name and the operator at the start of a line. -/
theorem Splits.takeMark_head (h : Splits .head op mark lead op') (hname : name.trimEnd = name)
    (pos : Nat) :
    (op'.takeMark ⟨pos, name ++ .ofText (' ' :: mark)⟩).1 = op ∧
      (op'.takeMark ⟨pos, name ++ .ofText (' ' :: mark)⟩).2.trimEnd = ⟨pos, name⟩ := by
  have hblank : (name ++ .char ' ' .nil).trimEnd = name :=
    (Body.trimEnd_append_white (by decide)).trans hname
  have hunmarked : ∀ op : AssignOp, op.takeMark ⟨pos, name ++ .char ' ' .nil⟩ =
      (op, ⟨pos, name ++ .char ' ' .nil⟩) := fun op =>
    takeMark_of_not_endsWith fun _ =>
      ⟨name.endsWith_append_char '+' ' ', name.endsWith_append_char '?' ' '⟩
  cases h with
  | recursive | simple | conditional =>
    rw [Body.ofText, Body.ofText, hunmarked]
    exact ⟨rfl, congrArg (Phrase.mk pos) hblank⟩
  | append =>
    have hmark : name ++ .ofText [' ', '+'] = name ++ .char ' ' .nil ++ .char '+' .nil :=
      (Body.append_assoc name (.char ' ' .nil) (.char '+' .nil)).symm
    rw [hmark, takeMark_plus]
    exact ⟨rfl, congrArg (Phrase.mk pos) hblank⟩

/-- The name and the operator behind a target: here the name is trimmed before its mark is
taken. -/
theorem Splits.takeMark_prerequisites (h : Splits .prerequisites op mark lead op')
    (hname : name.trimEnd = name)
    (hmark : op = .recursive → name.endsWith '+' = false ∧ name.endsWith '?' = false) (pos : Nat) :
    (op'.takeMark (Phrase.trimEnd ⟨pos, name ++ .ofText (' ' :: mark)⟩)).1 = op ∧
      (op'.takeMark (Phrase.trimEnd ⟨pos, name ++ .ofText (' ' :: mark)⟩)).2.trimEnd =
        ⟨pos, name⟩ := by
  have hblank : (name ++ .char ' ' .nil).trimEnd = name :=
    (Body.trimEnd_append_white (by decide)).trans hname
  have hunmarked : Phrase.trimEnd ⟨pos, name ++ .ofText [' ']⟩ = ⟨pos, name⟩ :=
    congrArg (Phrase.mk pos) hblank
  have hmarked : ∀ m : Char, Text.isWhite m = false →
      Phrase.trimEnd ⟨pos, name ++ .ofText [' ', m]⟩ =
        ⟨pos, name ++ .char ' ' .nil ++ .char m .nil⟩ := by
    intro m hm
    have hsplit : name ++ .ofText [' ', m] = name ++ .char ' ' .nil ++ .char m .nil :=
      (Body.append_assoc name (.char ' ' .nil) (.char m .nil)).symm
    rw [hsplit]
    exact congrArg (Phrase.mk pos) (Body.trimEnd_append_char hm)
  cases h with
  | recursive | simple =>
    rw [hunmarked, takeMark_of_not_endsWith hmark]
    exact ⟨rfl, congrArg (Phrase.mk pos) hname⟩
  | append =>
    rw [hmarked '+' (by decide), takeMark_plus]
    exact ⟨rfl, congrArg (Phrase.mk pos) hblank⟩
  | marked =>
    rw [hmarked '?' (by decide), takeMark_question]
    exact ⟨rfl, congrArg (Phrase.mk pos) hblank⟩

/-- Marks do not depend on positions. -/
theorem takeMark_of_mapPos_eq {p q : Phrase} (h : p.mapPos (fun _ => 0) = q.mapPos (fun _ => 0)) :
    (op.takeMark p).1 = (op.takeMark q).1 ∧
      (op.takeMark p).2.trimEnd.mapPos (fun _ => 0) =
        (op.takeMark q).2.trimEnd.mapPos (fun _ => 0) := by
  have hmap := AssignOp.takeMark_mapPos (fun _ => 0) op p
  rw [h, AssignOp.takeMark_mapPos] at hmap
  obtain ⟨hop, hname⟩ := Prod.mk.inj hmap
  refine ⟨hop.symm, ?_⟩
  rw [← Phrase.trimEnd_mapPos, ← Phrase.trimEnd_mapPos, hname]

/-- **A plain assignment is read again.** -/
theorem readsAgain_plain {name value : Phrase} (hname : name.body.IsHead) (hne : name.body ≠ .nil)
    (hvalue : value.body.IsValue)
    (hc : c.rest = lex (Content.dump (.assignment ⟨name, op, value, none⟩) ++ ['\n']))
    (hplain : IsPlain (Content.dump (.assignment ⟨name, op, value, none⟩) ++ ['\n'])) :
    ReadsAgain (.assignment ⟨name, op, value, none⟩) c c.statement := by
  obtain ⟨mark, lead, op', hsplits⟩ := exists_splits_head op
  have hdump : Content.dump (.assignment ⟨name, op, value, none⟩) ++ ['\n'] =
      name.body.dump ++ ' ' :: (mark ++ (lead ++ '=' :: ' ' :: (value.body.dump ++ ['\n']))) := by
    simp [Content.dump, Assignment.dump, Phrase.dump, hsplits.text_eq]
  have hphrase : Content.dump (.assignment ⟨name, op, value, none⟩) ++ ['\n'] =
      (name.body ++ .ofText (' ' :: mark)).dump ++
        (lead ++ '=' :: ' ' :: (value.body.dump ++ ['\n'])) := by
    rw [hdump]
    simp
  have hkeyword : c.keyword? = none := by
    rw [keyword?_eq hc hplain, hdump]
    exact hname.startsLine.append (by rintro x ⟨⟩; rfl) (hsplits.denies _)
  rw [hphrase] at hc hplain
  obtain ⟨head, hread, hsame⟩ := reads_of_fits (hname.fits.append (hsplits.fits (Or.inl rfl)))
    hc hplain (hsplits.stops (Or.inl rfl) _)
  have hoperator := hsplits.readsOperator (c := c.upTo (name.body ++ .ofText (' ' :: mark)).dump
    (lead ++ '=' :: ' ' :: (value.body.dump ++ ['\n']))) rfl
  rw [(ReadsStatement.assignment hkeyword hread hoperator).eq_statement, upTo_upTo]
  obtain ⟨hop, hmarked⟩ := hsplits.takeMark_head hname.trimEnd 0
  obtain ⟨hop', hmarked'⟩ := @takeMark_of_mapPos_eq op' ⟨c.offset, head⟩
    ⟨0, name.body ++ .ofText (' ' :: mark)⟩ (congrArg (Phrase.mk 0) hsame)
  refine (readsAgain_assignment rfl hvalue (hop'.trans hop) ?_ hne rfl).of_upTo
  rw [hmarked', hmarked]
  rfl

/-! ### Targets -/

/-- Behind a target, the operator is what the rule of the target ends with. -/
theorem Splits.lead_eq (h : Splits .prerequisites op mark lead op') :
    (lead = [] ∧ op' = .recursive) ∨ (lead = [':'] ∧ op' = .simple) := by
  cases h with
  | recursive | append | marked => exact Or.inl ⟨rfl, rfl⟩
  | simple => exact Or.inr ⟨rfl, rfl⟩

/-- Behind a target, the operator is read where the pieces of the name end. -/
theorem readsRule_past {target : Phrase} {mid : Cursor} {us : List Token}
    (hlead : (lead = [] ∧ op' = .recursive) ∨ (lead = [':'] ∧ op' = .simple))
    (hread : ReadsPrerequisites c.skipBlanks body mid)
    (hmid : mid.rest = lex lead ++ ⟨.equals, ['=']⟩ :: us) :
    ReadsRule target c ((mid.past (lex lead) (⟨.equals, ['=']⟩ :: us)).assignment op'
      (some target.trimEnd) (Phrase.trimEnd ⟨c.skipBlanks.offset, body⟩)) := by
  rw [← advance_eq_past _ hmid]
  rcases hlead with ⟨rfl, rfl⟩ | ⟨rfl, rfl⟩
  · exact .assignment hread (kindAt_of_rest hmid)
  · exact .simple hread (kindAt_of_rest hmid)

theorem Splits.readsRule (h : Splits .prerequisites op mark lead op') {target : Phrase}
    {mid : Cursor} (hread : ReadsPrerequisites c.skipBlanks body mid)
    (hmid : mid.rest = lex (lead ++ '=' :: s)) :
    ReadsRule target c ((mid.upTo lead ('=' :: s)).assignment op' (some target.trimEnd)
      (Phrase.trimEnd ⟨c.skipBlanks.offset, body⟩)) := by
  rw [← past_lead]
  exact readsRule_past h.lead_eq hread (hmid.trans (h.lex_lead s))

/-- **An assignment with a target is read again.** -/
theorem readsAgain_targeted {target name value : Phrase} (htarget : target.body.IsHead)
    (hname : name.body.IsPieces) (hne : name.body ≠ .nil)
    (hmark : op = .recursive → name.body.endsWith '+' = false ∧ name.body.endsWith '?' = false)
    (hvalue : value.body.IsValue)
    (hc : c.rest = lex (Content.dump (.assignment ⟨name, op, value, some target⟩) ++ ['\n']))
    (hplain : IsPlain (Content.dump (.assignment ⟨name, op, value, some target⟩) ++ ['\n'])) :
    ReadsAgain (.assignment ⟨name, op, value, some target⟩) c c.statement := by
  obtain ⟨mark, lead, op', hsplits⟩ := exists_splits_prerequisites op
  have hdump : Content.dump (.assignment ⟨name, op, value, some target⟩) ++ ['\n'] =
      target.body.dump ++ ':' :: ' ' :: ((name.body ++ .ofText (' ' :: mark)).dump ++
        (lead ++ '=' :: ' ' :: (value.body.dump ++ ['\n']))) := by
    simp [Content.dump, Assignment.dump, Phrase.dump, hsplits.text_eq]
  rw [hdump] at hc hplain
  obtain ⟨target', hstatement, hsame⟩ := statement_of_target htarget hc hplain
  have hplainRest := isPlain_tail (Text.isPlain_append.mp hplain).2
  have hfits := hname.fits.append (hsplits.fits (Or.inr rfl))
  have hhead : ∀ x ∈ ((name.body ++ .ofText (' ' :: mark)).dump ++
      (lead ++ '=' :: ' ' :: (value.body.dump ++ ['\n']))).head?, (kindOf x).isBlank = false := by
    rw [Body.dump_append, List.append_assoc,
      List.head?_append_of_ne_nil _ (mt Body.dump_eq_nil_iff.mp hne)]
    exact hname.head
  have hlast : (name.body ++ .ofText (' ' :: mark)).dump.getLast? ≠ some ':' := by
    rw [Body.dump_append, Body.dump_ofText]
    exact (hsplits.colons name.body.dump []).2
  obtain ⟨name', hread, hsame'⟩ := reads_pieces (c := c.upTo (target.body.dump ++ [':'])
    (' ' :: ((name.body ++ .ofText (' ' :: mark)).dump ++
      (lead ++ '=' :: ' ' :: (value.body.dump ++ ['\n']))))) hfits rfl hplainRest hhead
    (hsplits.stops (Or.inr rfl) _) (hsplits.colons [] _).1 (fun _ _ => hlast)
  rw [hstatement, (hsplits.readsRule hread rfl).eq_rule, upTo_upTo, upTo_upTo]
  obtain ⟨hop, hmarked⟩ := hsplits.takeMark_prerequisites hname.trimEnd hmark 0
  obtain ⟨hop', hmarked'⟩ := @takeMark_of_mapPos_eq op'
    (Phrase.trimEnd ⟨(c.upTo (target.body.dump ++ [':']) _).skipBlanks.offset, name'⟩)
    (Phrase.trimEnd ⟨0, name.body ++ .ofText (' ' :: mark)⟩) (by
      rw [← Phrase.trimEnd_mapPos, ← Phrase.trimEnd_mapPos]
      exact congrArg (fun b => Phrase.trimEnd ⟨0, b⟩) hsame')
  have htrim := trimEnd_of_mapPos_eq hsame htarget.trimEnd c.offset
  refine (readsAgain_assignment rfl hvalue (hop'.trans hop) ?_ hne ?_).of_upTo
  · rw [hmarked', hmarked]
    rfl
  · exact congrArg some htrim

end Cursor

end MakeBlueprint.Makefile
