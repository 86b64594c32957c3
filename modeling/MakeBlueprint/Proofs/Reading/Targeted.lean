import MakeBlueprint.Proofs.Reading.Coverage
import MakeBlueprint.Proofs.Reading.RoundTrip
import MakeBlueprint.Proofs.Reading.Spelled

/-!
# Assignments with a target

An assignment is read like any other when a target and a colon stand in front of it, except where it
is spelled with `::=`: behind a target, the first of the two colons is taken for a colon between
prerequisites, and it stays at the end of the name.

* `AssignmentLine`: the line of an assignment, with and without its target. `lex_plain` and
  `lex_targeted` are its tokens.
* `readsAgain_head`, `readsAgain_behind`: the two readings, for any operator that is read behind the
  name.
* `not_parsesAs_assignment`: a line that begins with a directive is no assignment.
* `parses`: both readings, for all five operators. `underTarget` is a line, and `parses_underTarget`
  its case.
-/

namespace MakeBlueprint.Makefile

open Token (lex kindOf)
open Phrase (Body)

variable {w t u : Text}

/-! ## Lines of assignments -/

/-- **A text that is one phrase**: its references are closed, and there are no marks outside of
them. Neither its first nor its last character is a blank. -/
structure OnePhrase where
  text : Text
  body : Body
  spells : Spells .line 0 (lex text) body
  unmarked : body.separators isMark = 0
  front : ∀ x ∈ text.head?, Visible x
  back : ∀ x ∈ text.getLast?, Visible x

/-- A text in front of an operator is taken for a directive: it is a keyword with more behind it. -/
def StartsDirective (t : Text) : Prop := (Cursor.start (t ++ ['='])).keyword? ≠ none

instance (t : Text) : Decidable (StartsDirective t) := inferInstanceAs (Decidable (_ ≠ _))

/-- **The line of an assignment**, which may have a target in front of it. -/
structure AssignmentLine where
  target : OnePhrase
  name : OnePhrase
  value : OnePhrase
  /-- The blanks behind the colon of the target. -/
  gap : Text
  /-- The blanks in front of the operator. -/
  before : Text
  /-- The blanks behind the operator. -/
  behind : Text
  /-- The end of the line. -/
  ending : Text
  blank : ∀ x ∈ gap ++ before ++ behind, Text.isBlank x = true
  ends : ending = [] ∨ ending = ['\n']
  name_ne : name.body.trimEnd ≠ .nil

namespace AssignmentLine

/-- The line without its target. -/
def plain (l : AssignmentLine) (op : Text) : Text :=
  l.name.text ++ (l.before ++ (op ++ (l.behind ++ (l.value.text ++ l.ending))))

/-- The line with its target. -/
def targeted (l : AssignmentLine) (op : Text) : Text :=
  l.target.text ++ ':' :: (l.gap ++ l.plain op)

end AssignmentLine

/-! ## Its tokens -/

namespace Token

/-- The first token of a text is seen if its first character is. -/
theorem visible_head_lex (h : ∀ x ∈ t.head?, Visible x) :
    ∀ u ∈ (lex t).head?, u.kind.isBlank = false ∧ u.kind ≠ .newline := by
  fun_cases lex t with
  | case1 => simp
  | case2 => exact absurd (h '\r' rfl).1 (by decide)
  | case3 | case4 | case5 => simp [Kind.isBlank]
  | case6 x u hbreak hlast hescape hbackslash kind hkind =>
    have hvisible := h x rfl
    rw [Visible, kindOf, hkind] at hvisible
    rintro v ⟨⟩
    exact hvisible
  | case7 x u hbreak hlast hescape hbackslash hsingle =>
    unfold consIdentifier
    split <;> simp [Kind.isBlank]

end Token

/-- The text of an operator. -/
def IsOperator (op : Text) : Prop := op ≠ [] ∧ op.all (· ∈ [':', '=', '+', '?'])

instance (op : Text) : Decidable (IsOperator op) := inferInstanceAs (Decidable (_ ∧ _))

namespace IsOperator

variable {op : Text} (h : IsOperator op)

include h

theorem mem : ∀ x ∈ op, x ∈ [':', '=', '+', '?'] := fun x hx =>
  of_decide_eq_true (List.all_eq_true.mp h.2 x hx)

theorem single : ∀ x ∈ op, kindOf x ≠ .identifier ∧ x ≠ '\r' := by
  intro x hx
  have hx := h.mem x hx
  simp only [List.mem_cons, List.not_mem_nil, or_false] at hx
  rcases hx with rfl | rfl | rfl | rfl <;> decide

/-- An operator denies that a line is a directive. -/
theorem denies (us : List Token) : ∃ v ∈ (lex op ++ us).head?, v.kind.deniesDirective = true := by
  obtain ⟨x, w, rfl⟩ := List.exists_cons_of_ne_nil h.1
  have hx := h.mem x List.mem_cons_self
  rw [← List.singleton_append,
    Token.lex_append_singles (List.forall_mem_singleton.mpr (h.single x List.mem_cons_self))]
  simp only [List.mem_cons, List.not_mem_nil, or_false] at hx
  rcases hx with rfl | rfl | rfl | rfl <;> exact ⟨_, rfl, rfl⟩

end IsOperator

theorem AssignOp.isOperator_text (op : AssignOp) : IsOperator op.text := by
  refine ⟨?_, ?_⟩ <;> cases op <;> decide

namespace OnePhrase

variable (p : OnePhrase)

theorem formed : ∀ t ∈ lex p.text, t.Formed := Token.formed_of_mem_lex p.text

/-- A phrase ends where something else begins that is a token. -/
theorem lex_append (hu : ∀ x ∈ u.head?, kindOf x ≠ .identifier) :
    lex (p.text ++ u) = lex p.text ++ lex u := by
  refine Token.lex_append_of_head p.spells.ne_backslash hu fun _ hlast => ?_
  exact absurd (p.back '\r' hlast).1 (by decide)

/-- The phrase at the start of a line or behind a target. -/
theorem spells_at {place : Place} (hplace : place = .head ∨ place = .prerequisites) :
    Spells place 0 (lex p.text) p.body := p.spells.elsewhere p.formed p.unmarked hplace

end OnePhrase

namespace AssignmentLine

variable (l : AssignmentLine) {op : Text}

theorem blank_parts : (∀ x ∈ l.gap, Text.isBlank x = true) ∧
    (∀ x ∈ l.before, Text.isBlank x = true) ∧ ∀ x ∈ l.behind, Text.isBlank x = true := by
  obtain ⟨hfront, hbehind⟩ := List.forall_mem_append.mp l.blank
  obtain ⟨hgap, hbefore⟩ := List.forall_mem_append.mp hfront
  exact ⟨hgap, hbefore, hbehind⟩

/-- **The tokens of a line without its target.** -/
theorem lex_plain (hop : IsOperator op) : lex (l.plain op) =
    lex l.name.text ++ (lex l.before ++ (lex op ++
      (lex l.behind ++ (lex l.value.text ++ lex l.ending)))) := by
  obtain ⟨-, hbefore, hbehind⟩ := l.blank_parts
  have hblank : ∀ x, Text.isBlank x = true → kindOf x ≠ .identifier := by
    intro x hx
    rw [Text.isBlank, Bool.or_eq_true, beq_iff_eq, beq_iff_eq] at hx
    rcases hx with rfl | rfl <;> decide
  have hhead : ∀ x ∈ (l.before ++ (op ++ (l.behind ++ (l.value.text ++ l.ending)))).head?,
      kindOf x ≠ .identifier :=
    forall_mem_head?_append (fun x hx => hblank x (hbefore x (List.mem_of_mem_head? hx))) (by
      rw [List.head?_append_of_ne_nil _ hop.1]
      exact fun x hx => (hop.single x (List.mem_of_mem_head? hx)).1)
  have hending : ∀ x ∈ l.ending.head?, kindOf x ≠ .identifier := by
    rcases l.ends with hend | hend <;> rw [hend] <;> rintro x ⟨⟩
    decide
  rw [plain, l.name.lex_append hhead, Token.lex_append_blanks hbefore,
    Token.lex_append_singles hop.single, Token.lex_append_blanks hbehind,
    l.value.lex_append hending]

/-- **The tokens of a line with its target.** -/
theorem lex_targeted (op : Text) : lex (l.targeted op) =
    lex l.target.text ++ ⟨.colon, [':']⟩ :: (lex l.gap ++ lex (l.plain op)) := by
  have hcolon : lex (':' :: (l.gap ++ l.plain op)) = ⟨.colon, [':']⟩ :: lex (l.gap ++ l.plain op) :=
    Token.lex_append_singles (w := [':']) (List.forall_mem_singleton.mpr (by decide)) _
  have hhead : ∀ x ∈ (':' :: (l.gap ++ l.plain op)).head?, kindOf x ≠ .identifier := by
    rintro x ⟨⟩
    decide
  rw [targeted, l.target.lex_append hhead, hcolon, Token.lex_append_blanks l.blank_parts.1]

end AssignmentLine

/-! ## Reading it -/

namespace Cursor

variable {c d : Cursor} {ts us : List Token}

/-- What is a directive in front of one operator is one in front of any other. -/
theorem keyword?_of_denies {p : OnePhrase} (hc : c.rest = lex p.text ++ us)
    (hdenies : ∃ u ∈ (us.dropWhile fun u => u.kind.isBlank).head?,
      u.kind.deniesDirective = true) : c.keyword? = (start (p.text ++ ['='])).keyword? := by
  have hcut : lex (p.text ++ ['=']) = lex p.text ++ [⟨.equals, ['=']⟩] :=
    p.lex_append (by rintro x ⟨⟩; decide)
  obtain ⟨u, hu, hdeny⟩ := hdenies
  unfold keyword?
  rw [start, hcut, hc]
  cases hlex : lex p.text with
  | nil =>
    dsimp only [List.nil_append]
    split
    · next word rest =>
      rw [List.dropWhile_cons_of_neg (by simp [Token.Kind.isBlank])] at hu
      cases hu
      cases hdeny
    · rfl
  | cons t ts =>
    obtain ⟨kind, word⟩ := t
    cases kind with
    | identifier =>
      dsimp only [List.cons_append]
      by_cases hnil : ts.dropWhile (fun u => u.kind.isBlank) = []
      · -- The first word is all there is, so what denies it is behind it.
        rw [List.dropWhile_append, List.dropWhile_append, hnil, List.isEmpty_nil, if_pos rfl,
          if_pos rfl, Option.mem_def.mp hu]
        exact if_pos hdeny
      · obtain ⟨v, vs, hcons⟩ := List.exists_cons_of_ne_nil hnil
        rw [(takeWhile_append_of_dropWhile hnil us).2, (takeWhile_append_of_dropWhile hnil [_]).2,
          hcons]
        rfl
    | _ => rfl

theorem ReadsAgain.of_past {content : Content} (h : ReadsAgain content (c.past ts us) d) :
    ReadsAgain content c d := ⟨h.rest, h.comments, h.faults, h.statement⟩

/-- An operator ends what is in front of it on its line. -/
theorem ReadsOperator.stops {op : AssignOp} (h : ReadsOperator c op d) :
    ∀ u ∈ c.rest.head?, Place.head.Stops 0 u.kind := by
  intro u hu
  obtain ⟨us, hcons⟩ := List.head?_eq_some_iff.mp hu
  have hkind := kindAt_of_rest hcons
  refine Place.stops_zero (Or.inl ?_)
  cases h with
  | recursive hfirst | conditional hfirst | simple hfirst | double hfirst =>
    rw [hkind] at hfirst
    rw [Option.some.inj hfirst]
    rfl

end Cursor

open Cursor (ReadsOperator)

namespace AssignmentLine

variable (l : AssignmentLine) {c mid : Cursor} {op op' : AssignOp} {mark lead : Text}

/-- The value that is assigned. -/
def assigned : Phrase := Phrase.trim ⟨0, l.value.body⟩

/-- The name without white characters at its end. -/
def variableName : Phrase := ⟨0, l.name.body.trimEnd⟩

/-- The target without white characters at its end. -/
def targetName : Phrase := ⟨0, l.target.body.trimEnd⟩

/-- What is behind the equals sign. -/
def valueTokens : List Token := lex l.behind ++ (lex l.value.text ++ lex l.ending)

/-- **The value is read** behind the equals sign, whatever is in front of it. -/
theorem readsAgain_value {target target' : Option Phrase} {name name' : Phrase}
    (hc : c.rest = ⟨.equals, ['=']⟩ :: l.valueTokens) (hop : (op'.takeMark name').1 = op)
    (hname : (op'.takeMark name').2.trimEnd.mapPos (fun _ => 0) = name.mapPos (fun _ => 0))
    (hne : name.body ≠ .nil)
    (htarget : target'.map (Phrase.mapPos fun _ => 0) = target.map (Phrase.mapPos fun _ => 0)) :
    c.ReadsAgain (.assignment ⟨name, op, l.assigned, target⟩) (c.assignment op' target' name') := by
  have hone : c.advance 1 = c.past [⟨.equals, ['=']⟩] l.valueTokens :=
    Cursor.advance_eq_past [⟨.equals, ['=']⟩] hc
  have hspells := (Spells.blanks .line l.blank_parts.2.2).append l.value.spells
  have hrest : (c.advance 1).rest = lex l.behind ++ lex l.value.text ++ lex l.ending := by
    rw [hone, List.append_assoc]
    rfl
  obtain ⟨body, hread, hsame⟩ := Cursor.reads_of_spells hspells hrest (by
    rcases l.ends with hend | hend
    · rw [hend]
      rintro u ⟨⟩
    · rw [hend]
      rintro u ⟨⟩
      exact Place.stops_zero (Or.inr rfl))
  rw [hone, Cursor.past_past, ← hone] at hread
  refine Cursor.readsAgain_value hread l.ends ?_ hop hname hne htarget
  rw [← Body.trimEnd_mapPos, ← Body.trimStart_mapPos, hsame, Body.trimStart_mapPos,
    Body.trimEnd_mapPos, Body.trimStart_ofText_append fun x hx =>
      Text.isWhite_of_isBlank (l.blank_parts.2.2 x hx)]
  rfl

/-- The name and the blanks behind it hold no marks. -/
theorem separators_before : (l.name.body ++ .ofText l.before).separators isMark = 0 := by
  have hmark : ∀ x ∈ l.before, ¬ isMark x = true := by
    intro x hx
    have hblank := l.blank_parts.2.1 x hx
    rw [Text.isBlank, Bool.or_eq_true, beq_iff_eq, beq_iff_eq] at hblank
    rcases hblank with rfl | rfl <;> decide
  rw [Body.separators_append, Body.separators_ofText, l.name.unmarked, Nat.zero_add,
    List.countP_eq_zero]
  exact hmark

/-- The blanks behind the name are trimmed. -/
theorem trimEnd_before : (l.name.body ++ .ofText l.before).trimEnd = l.name.body.trimEnd :=
  Body.trimEnd_append_of_nil (Body.trimEnd_ofText_white fun x hx =>
    Text.isWhite_of_isBlank (l.blank_parts.2.1 x hx))

/-- The tokens of a line whose operator begins with a mark. -/
theorem rest_eq (htext : IsOperator (mark ++ lead ++ ['=']))
    (hc : c.rest = lex (l.plain (mark ++ lead ++ ['=']))) :
    c.rest = lex l.name.text ++ lex l.before ++ lex mark ++
      (lex lead ++ ⟨.equals, ['=']⟩ :: l.valueTokens) := by
  obtain ⟨hfront, -⟩ := List.forall_mem_append.mp htext.single
  obtain ⟨hmark, hlead⟩ := List.forall_mem_append.mp hfront
  have hsplit : lex (mark ++ lead ++ ['=']) = lex mark ++ (lex lead ++ [⟨.equals, ['=']⟩]) := by
    rw [List.append_assoc, Token.lex_append_singles hmark, Token.lex_append_singles hlead]
    rfl
  rw [hc, l.lex_plain htext, hsplit]
  simp [valueTokens]

/-- A line without its target is a directive if its name starts one. -/
theorem keyword?_plain {op : Text} (hop : IsOperator op) (hc : c.rest = lex (l.plain op)) :
    c.keyword? = (Cursor.start (l.name.text ++ ['='])).keyword? := by
  have hblank := Token.isBlank_of_mem_lex l.blank_parts.2.1
  rw [l.lex_plain hop] at hc
  refine Cursor.keyword?_of_denies hc ?_
  obtain ⟨v, hv, hdenies⟩ := hop.denies (lex l.behind ++ (lex l.value.text ++ lex l.ending))
  refine ⟨v, ?_, hdenies⟩
  obtain ⟨vs, hcons⟩ := List.head?_eq_some_iff.mp hv
  rw [List.dropWhile_append_of_pos hblank, hcons, List.dropWhile_cons_of_neg]
  · rfl
  · revert hdenies
    cases v.kind <;> decide

/-- A line with its target is a directive if the target starts one. -/
theorem keyword?_targeted {op : Text} (hc : c.rest = lex (l.targeted op)) :
    c.keyword? = (Cursor.start (l.target.text ++ ['='])).keyword? := by
  rw [l.lex_targeted] at hc
  exact Cursor.keyword?_of_denies hc ⟨⟨.colon, [':']⟩, rfl, rfl⟩

/-- **A line without a target is read**, if its operator is read behind its name. A mark is read as
part of the name. -/
theorem readsAgain_head (htext : IsOperator (mark ++ lead ++ ['=']))
    (hmark : Spells .head 0 (lex mark) (.ofText mark))
    (hoperator : ∀ {mid : Cursor} {us : List Token},
      mid.rest = lex lead ++ ⟨.equals, ['=']⟩ :: us →
        ReadsOperator mid op' (mid.past (lex lead) (⟨.equals, ['=']⟩ :: us)))
    (htake : ∀ b : Body, b.separators isMark = 0 →
      op'.takeMark ⟨0, b ++ .ofText mark⟩ = (op, ⟨0, b⟩))
    (hname : ¬ StartsDirective l.name.text)
    (hc : c.rest = lex (l.plain (mark ++ lead ++ ['=']))) :
    c.ReadsAgain (.assignment ⟨l.variableName, op, l.assigned, none⟩) c.statement := by
  have hrest := l.rest_eq htext hc
  have hspells := ((l.name.spells_at (Or.inl rfl)).append (.blanks .head l.blank_parts.2.1)).append
    hmark
  have hop := fun ts => @hoperator (c.past ts (lex lead ++ ⟨.equals, ['=']⟩ :: l.valueTokens)) _ rfl
  obtain ⟨head, hread, hsame⟩ := Cursor.reads_of_spells hspells hrest (hop []).stops
  have hkeyword := (l.keyword?_plain htext hc).trans (not_not.mp hname)
  rw [(Cursor.ReadsStatement.assignment hkeyword hread (hop _)).eq_statement]
  obtain ⟨htaken, htrim⟩ := @Cursor.takeMark_of_mapPos_eq op' ⟨c.offset, head⟩
    ⟨0, l.name.body ++ .ofText l.before ++ .ofText mark⟩ (congrArg (Phrase.mk 0) hsame)
  rw [htake _ l.separators_before] at htaken htrim
  refine Cursor.ReadsAgain.of_past (Cursor.ReadsAgain.of_past
    (l.readsAgain_value rfl htaken (htrim.trans ?_) l.name_ne rfl))
  rw [Phrase.trimEnd, l.trimEnd_before]
  rfl

/-! ## Behind a target -/

theorem name_text_ne : l.name.text ≠ [] := by
  intro hnil
  have hspells := l.name.spells
  rw [hnil, lex] at hspells
  have hbody : l.name.body = .nil := by
    generalize l.name.body = body at hspells
    cases hspells
    rfl
  exact l.name_ne (by rw [hbody]; rfl)

theorem visible_plain (op : Text) : ∀ x ∈ (l.plain op).head?, Visible x := by
  rw [plain, List.head?_append_of_ne_nil _ l.name_text_ne]
  exact l.name.front

/-- The first token behind the colon of the target begins no operator. -/
theorem head_behind {op : Text} (hop : IsOperator op) :
    ∀ u ∈ (lex l.gap ++ lex (l.plain op)).head?, u.kind ≠ .equals ∧ u.kind ≠ .colon := by
  intro u hu
  cases hgap : lex l.gap with
  | cons t ts =>
    have hblank : t.kind.isBlank = true :=
      Token.isBlank_of_mem_lex l.blank_parts.1 t (by rw [hgap]; exact List.mem_cons_self)
    rw [hgap] at hu
    cases hu
    constructor <;> intro hkind <;> rw [hkind] at hblank <;> cases hblank
  | nil =>
    have hspells := l.name.spells_at (Or.inr rfl)
    rw [hgap, List.nil_append, l.lex_plain hop,
      List.head?_append_of_ne_nil _ (mt Token.lex_eq_nil_iff.mp l.name_text_ne)] at hu
    obtain ⟨us, hcons⟩ := List.head?_eq_some_iff.mp hu
    rw [hcons] at hspells
    exact hspells.head_ne

/-- The target is read up to its colon, and the blanks behind it are skipped. -/
theorem exists_rule {op : Text} (hop : IsOperator op) (htarget : ¬ StartsDirective l.target.text)
    (hc : c.rest = lex (l.targeted op)) : ∃ (target : Body) (mid : Cursor),
      c.statement = mid.rule ⟨c.offset, target⟩ ∧
        target.mapPos (fun _ => 0) = l.target.body.mapPos (fun _ => 0) ∧
          ∃ ts, mid.skipBlanks = c.past ts (lex (l.plain op)) := by
  have hkeyword := (l.keyword?_targeted hc).trans (not_not.mp htarget)
  rw [l.lex_targeted] at hc
  obtain ⟨target, hread, hsame⟩ := Cursor.reads_of_spells (l.target.spells_at (Or.inl rfl)) hc (by
    rintro u ⟨⟩
    exact Place.stops_zero (Or.inl rfl))
  generalize hmid : c.past (lex l.target.text)
    (⟨.colon, [':']⟩ :: (lex l.gap ++ lex (l.plain op))) = mid at hread
  have hrest : mid.rest = [⟨.colon, [':']⟩] ++ (lex l.gap ++ lex (l.plain op)) := by
    rw [← hmid]
    rfl
  have hone : mid.advance 1 = mid.past [⟨.colon, [':']⟩] (lex l.gap ++ lex (l.plain op)) :=
    Cursor.advance_eq_past _ hrest
  have hnext : ∀ kind, mid.kindAt 1 = some kind → kind ≠ .equals ∧ kind ≠ .colon := by
    intro kind hkind
    have hkind : (mid.advance 1).kindAt 0 = some kind :=
      (Cursor.kindAt_advance mid 1 0).trans hkind
    obtain ⟨u, us, hcons, rfl⟩ := Cursor.exists_of_kindAt hkind
    rw [hone] at hcons
    exact l.head_behind hop u (List.head?_eq_some_iff.mpr ⟨us, hcons⟩)
  have hcolons := Cursor.ReadsColons.single (Cursor.kindAt_of_rest hrest)
    (fun h => (hnext _ h).1 rfl) (fun h => (hnext _ h).2 rfl)
  have hskip : (mid.advance 1).skipBlanks =
      c.past (lex l.target.text ++ ([⟨.colon, [':']⟩] ++ lex l.gap)) (lex (l.plain op)) := by
    refine (Cursor.skipWhile_past _ (congrArg Cursor.rest hone)
      (Token.isBlank_of_mem_lex l.blank_parts.1)
      fun u hu => (Token.visible_head_lex (l.visible_plain op) u hu).1).trans ?_
    rw [hone, ← hmid, Cursor.past_past, Cursor.past_past]
  exact ⟨target, mid.advance 1,
    (Cursor.ReadsStatement.rule hkeyword hread hcolons).eq_statement, hsame, _, hskip⟩

/-- **A line with a target is read**, if its name is read with what is taken for a part of it. -/
theorem readsAgain_behind {name : Phrase} {whole : Body}
    (htext : IsOperator (mark ++ lead ++ ['=']))
    (hlead : (lead = [] ∧ op' = .recursive) ∨ (lead = [':'] ∧ op' = .simple))
    (hpieces : ∀ {d : Cursor}, d.rest = lex (l.plain (mark ++ lead ++ ['='])) → ∃ body ts,
      d.ReadsPrerequisites body (d.past ts (lex lead ++ ⟨.equals, ['=']⟩ :: l.valueTokens)) ∧
        body.mapPos (fun _ => 0) = whole.mapPos (fun _ => 0))
    (htake : op'.takeMark (Phrase.trimEnd ⟨0, whole⟩) = (op, name))
    (hname : name.trimEnd.body ≠ .nil)
    (htarget : ¬ StartsDirective l.target.text)
    (hc : c.rest = lex (l.targeted (mark ++ lead ++ ['=']))) :
    c.ReadsAgain (.assignment ⟨name.trimEnd, op, l.assigned, some l.targetName⟩) c.statement := by
  obtain ⟨target, mid, hstatement, hsame, ts, hskip⟩ := l.exists_rule htext htarget hc
  obtain ⟨body, vs, hread, hbody⟩ := hpieces (congrArg Cursor.rest hskip)
  have hrule : mid.ReadsRule ⟨c.offset, target⟩ _ := Cursor.readsRule_past hlead hread rfl
  obtain ⟨htaken, hname'⟩ := @Cursor.takeMark_of_mapPos_eq op'
    (Phrase.trimEnd ⟨mid.skipBlanks.offset, body⟩) (Phrase.trimEnd ⟨0, whole⟩) (by
      rw [← Phrase.trimEnd_mapPos, ← Phrase.trimEnd_mapPos]
      exact congrArg (fun b => Phrase.trimEnd ⟨0, b⟩) hbody)
  rw [htake] at htaken hname'
  have htrim : target.trimEnd.mapPos (fun _ => 0) =
      l.target.body.trimEnd.mapPos (fun _ => 0) := by
    rw [← Body.trimEnd_mapPos, hsame, Body.trimEnd_mapPos]
  rw [hskip] at hrule htaken hname'
  rw [hstatement, hrule.eq_rule]
  exact Cursor.ReadsAgain.of_past (Cursor.ReadsAgain.of_past (Cursor.ReadsAgain.of_past
    (l.readsAgain_value rfl htaken hname' hname
      (congrArg (fun b => some (Phrase.mk 0 b)) htrim))))

end AssignmentLine

/-! ## The operators -/

namespace Cursor.Splits

variable {place : Place} {op op' : AssignOp} {mark lead : Text} {b : Body}

/-- The mark is part of the name. -/
theorem spells (h : Splits place op mark lead op')
    (hplace : place = .head ∨ place = .prerequisites) :
    Spells place 0 (lex mark) (.ofText mark) := by
  cases h with
  | recursive | simple | conditional => exact .nil
  | append => rcases hplace with rfl | rfl <;> exact .token (.literal rfl rfl) .nil
  | marked => exact .token (.literal rfl rfl) .nil

/-- The mark is taken for a part of the operator. -/
theorem takeMark_append (h : Splits place op mark lead op') (hb : b.separators isMark = 0)
    (pos : Nat) : op'.takeMark ⟨pos, b ++ .ofText mark⟩ = (op, ⟨pos, b⟩) := by
  have hunmarked : ∀ op : AssignOp, op.takeMark ⟨pos, b ++ .nil⟩ = (op, ⟨pos, b⟩) := by
    intro op
    rw [Body.append_nil]
    exact takeMark_of_not_endsWith fun _ =>
      ⟨Body.endsWith_of_separators hb rfl, Body.endsWith_of_separators hb rfl⟩
  cases h with
  | recursive | simple | conditional => exact hunmarked _
  | append => exact takeMark_plus pos b
  | marked => exact takeMark_question pos b

/-- A mark is no white character: what is trimmed is trimmed in front of it. -/
theorem exists_trimEnd (h : Splits place op mark lead op') (hb : b.separators isMark = 0) :
    ∃ b', (b ++ .ofText mark).trimEnd = b' ++ .ofText mark ∧ b'.trimEnd = b.trimEnd ∧
      b'.separators isMark = 0 := by
  have hunmarked : ∃ b', (b ++ .nil).trimEnd = b' ++ .nil ∧ b'.trimEnd = b.trimEnd ∧
      b'.separators isMark = 0 :=
    ⟨b.trimEnd, by simp, b.trimEnd_trimEnd, Body.separators_trimEnd hb⟩
  cases h with
  | recursive | simple | conditional => exact hunmarked
  | append => exact ⟨b, Body.trimEnd_append_char (by decide), rfl, hb⟩
  | marked => exact ⟨b, Body.trimEnd_append_char (by decide), rfl, hb⟩

end Cursor.Splits

/-! ## The two readings -/

/-- **A text is read as one statement**, up to positions, and without faults. -/
def ParsesAs (t : Text) (content : Content) : Prop :=
  (parse t).errors = [] ∧ ∃ s, (parse t).statements = [s] ∧
    s.content.mapPos (fun _ => 0) = content.mapPos (fun _ => 0)

theorem ParsesAs.unique {a b : Content} (ha : ParsesAs t a) (hb : ParsesAs t b) :
    a.mapPos (fun _ => 0) = b.mapPos (fun _ => 0) := by
  obtain ⟨-, s, hs, hsame⟩ := ha
  obtain ⟨-, s', hs', hsame'⟩ := hb
  obtain rfl := List.singleton_inj.mp (hs.symm.trans hs')
  exact hsame.symm.trans hsame'

namespace Cursor

/-- Nothing is skipped in front of a character that is seen. -/
theorem skipSpace_start (hvisible : ∀ x ∈ t.head?, Visible x) :
    (start t).skipSpace = start t := by
  have hhead := Token.visible_head_lex hvisible
  have hskip : (start t).skipSpace = (start t).past [] (lex t) :=
    skipWhile_past [] rfl (by simp) fun u hu => by
      rw [(hhead u hu).1]
      simpa using (hhead u hu).2
  exact hskip.trans (past_nil rfl)

/-- A text that begins with a directive has a statement for it. -/
theorem not_parsesAs_assignment {a : Assignment} (hvisible : ∀ x ∈ t.head?, Visible x)
    (hkeyword : (start t).keyword? ≠ none) : ¬ ParsesAs t (.assignment a) := by
  obtain ⟨keyword, hkeyword⟩ := Option.ne_none_iff_exists'.mp hkeyword
  obtain ⟨d, span, hmem⟩ : ∃ d span, (.directive d, span) ∈ (readText t).statements := by
    have hlines := readsLines_readText t
    generalize readText t = d at hlines
    cases hlines with
    | done hrest =>
      rw [skipSpace_start hvisible] at hrest
      rw [keyword?, hrest] at hkeyword
      cases hkeyword
    | statement hrest hlines =>
      have hstands := (findsAll_statement ((standsIn_start t).advance _) hrest).stands
      obtain ⟨ss, cs, hfinds, -⟩ := hlines.findsAll hstands
      rw [hfinds.statements, skipSpace_start hvisible, statement, hkeyword]
      exact ⟨_, _, List.mem_append_left _ (List.mem_append_right _ List.mem_cons_self)⟩
  rintro ⟨-, s, hs, hsame⟩
  have hlocated : locate t (.directive d) span ∈ (parse t).statements :=
    List.mem_map_of_mem (mem_interleave.mpr (.inl hmem))
  rw [hs, List.mem_singleton] at hlocated
  rw [← hlocated] at hsame
  cases hsame

end Cursor

namespace AssignmentLine

variable (l : AssignmentLine)

theorem visible_targeted (op : Text) : ∀ x ∈ (l.targeted op).head?, Visible x := by
  have hcolon : ∀ x ∈ (':' :: (l.gap ++ l.plain op)).head?, Visible x := by
    rintro x ⟨⟩
    decide
  exact forall_mem_head?_append l.target.front hcolon

/-- A line without its target is read as it should be, unless it is a directive. -/
theorem parses_plain_iff {op : Text} {a : Assignment} (hop : IsOperator op)
    (h : ¬ StartsDirective l.name.text → (Cursor.start (l.plain op)).ReadsAgain (.assignment a)
      (Cursor.start (l.plain op)).statement) :
    ParsesAs (l.plain op) (.assignment a) ↔ ¬ StartsDirective l.name.text := by
  have hne : l.plain op ≠ [] := List.append_ne_nil_of_left_ne_nil l.name_text_ne _
  refine ⟨fun hparses hname => ?_, fun hname => ?_⟩
  · refine Cursor.not_parsesAs_assignment (l.visible_plain op) ?_ hparses
    rwa [l.keyword?_plain hop rfl]
  · exact (h hname).parse_eq (Cursor.skipSpace_start (l.visible_plain op)) hne

/-- A line with its target is read as it should be, unless it is a directive. -/
theorem parses_targeted_iff {op : Text} {a : Assignment}
    (h : ¬ StartsDirective l.target.text → (Cursor.start (l.targeted op)).ReadsAgain (.assignment a)
      (Cursor.start (l.targeted op)).statement) :
    ParsesAs (l.targeted op) (.assignment a) ↔ ¬ StartsDirective l.target.text := by
  have hne : l.targeted op ≠ [] := List.append_ne_nil_of_right_ne_nil _ (List.cons_ne_nil _ _)
  refine ⟨fun hparses htarget => ?_, fun htarget => ?_⟩
  · refine Cursor.not_parsesAs_assignment (l.visible_targeted op) ?_ hparses
    rwa [l.keyword?_targeted rfl]
  · exact (h htarget).parse_eq (Cursor.skipSpace_start (l.visible_targeted op)) hne

/-- Without a target, all operators are read alike. -/
theorem parses_plain (op : AssignOp) :
    ParsesAs (l.plain op.text) (.assignment ⟨l.variableName, op, l.assigned, none⟩) ↔
      ¬ StartsDirective l.name.text := by
  obtain ⟨mark, lead, op', hsplits⟩ := Cursor.exists_splits_head op
  have htext := op.isOperator_text
  rw [hsplits.text_eq] at htext ⊢
  exact l.parses_plain_iff htext fun hname =>
    l.readsAgain_head htext (hsplits.spells (Or.inl rfl)) hsplits.reads
      (fun b hb => hsplits.takeMark_append hb 0) hname rfl

/-- An assignment with two colons is one with a single colon. -/
theorem parses_plain_double : ParsesAs (l.plain [':', ':', '='])
    (.assignment ⟨l.variableName, .simple, l.assigned, none⟩) ↔
      ¬ StartsDirective l.name.text := by
  have htext : IsOperator ([] ++ [':', ':'] ++ ['=']) := by decide
  have hoperator : ∀ {mid : Cursor} {us : List Token},
      mid.rest = lex [':', ':'] ++ ⟨.equals, ['=']⟩ :: us →
        mid.ReadsOperator .simple (mid.past (lex [':', ':']) (⟨.equals, ['=']⟩ :: us)) := by
    intro mid us hmid
    rw [← Cursor.advance_eq_past _ hmid]
    exact .double (Cursor.kindAt_of_rest hmid) (by rw [Cursor.kindAt, hmid]; rfl)
      (by rw [Cursor.kindAt, hmid]; rfl)
  have htake : ∀ b : Body, b.separators isMark = 0 →
      AssignOp.simple.takeMark ⟨0, b ++ .ofText []⟩ = (.simple, ⟨0, b⟩) := by
    intro b hb
    rw [Body.ofText, Body.append_nil]
    exact Cursor.takeMark_of_not_endsWith fun h => absurd h (by decide)
  exact l.parses_plain_iff htext fun hname =>
    l.readsAgain_head htext .nil hoperator htake hname rfl

/-- The name is read behind the target, up to the operator. -/
theorem reads_name {mark lead : Text} {op' : AssignOp} {d : Cursor}
    (htext : IsOperator (mark ++ lead ++ ['=']))
    (hmark : Spells .prerequisites 0 (lex mark) (.ofText mark))
    (hlead : (lead = [] ∧ op' = .recursive) ∨ (lead = [':'] ∧ op' = .simple))
    (hd : d.rest = lex (l.plain (mark ++ lead ++ ['=']))) : ∃ body ts,
      d.ReadsPrerequisites body (d.past ts (lex lead ++ ⟨.equals, ['=']⟩ :: l.valueTokens)) ∧
        body.mapPos (fun _ => 0) =
          (l.name.body ++ .ofText l.before ++ .ofText mark).mapPos (fun _ => 0) := by
  have hspells := ((l.name.spells_at (Or.inr rfl)).append
    (.blanks .prerequisites l.blank_parts.2.1)).append hmark
  obtain ⟨body, hread, hsame⟩ := Cursor.reads_of_spells hspells (l.rest_eq htext hd) (by
    rcases hlead with ⟨rfl, -⟩ | ⟨rfl, -⟩ <;> rintro u ⟨⟩ <;> exact Place.stops_zero (Or.inl rfl))
  refine ⟨body, _, .last hread ?_, hsame⟩
  rintro ⟨hcolon, hequals⟩
  rcases hlead with ⟨rfl, -⟩ | ⟨rfl, -⟩
  · cases hcolon
  · exact hequals rfl

/-- **Behind a target, the four operators are read alike.** -/
theorem parses_targeted (op : AssignOp) : ParsesAs (l.targeted op.text)
    (.assignment ⟨l.variableName, op, l.assigned, some l.targetName⟩) ↔
      ¬ StartsDirective l.target.text := by
  obtain ⟨mark, lead, op', hsplits⟩ := Cursor.exists_splits_prerequisites op
  have htext := op.isOperator_text
  rw [hsplits.text_eq] at htext ⊢
  obtain ⟨b, htrim, hname, hfree⟩ := hsplits.exists_trimEnd l.separators_before
  rw [l.trimEnd_before] at hname
  have htake : op'.takeMark (Phrase.trimEnd
      ⟨0, l.name.body ++ .ofText l.before ++ .ofText mark⟩) = (op, ⟨0, b⟩) := by
    rw [Phrase.trimEnd, htrim]
    exact hsplits.takeMark_append hfree 0
  refine l.parses_targeted_iff fun htarget => ?_
  have hread := l.readsAgain_behind (c := Cursor.start _) htext hsplits.lead_eq
    (fun hd => l.reads_name htext (hsplits.spells (Or.inr rfl)) hsplits.lead_eq hd) htake
    (by rw [Phrase.trimEnd, hname]; exact l.name_ne) htarget rfl
  rwa [Phrase.trimEnd, hname] at hread

/-- What is read as the name of an assignment with two colons. -/
def nameWithColon : Body := l.name.body ++ .ofText l.before ++ .char ':' .nil

/-- The first of two colons is taken for one between prerequisites. -/
theorem reads_nameWithColon {d : Cursor} (hd : d.rest = lex (l.plain [':', ':', '='])) :
    ∃ body ts, d.ReadsPrerequisites body
      (d.past ts (lex [':'] ++ ⟨.equals, ['=']⟩ :: l.valueTokens)) ∧
        body.mapPos (fun _ => 0) = l.nameWithColon.mapPos (fun _ => 0) := by
  have hspells := (l.name.spells_at (Or.inr rfl)).append (.blanks .prerequisites l.blank_parts.2.1)
  have htext : IsOperator ([] ++ [':', ':'] ++ ['=']) := by decide
  have hrest := l.rest_eq htext hd
  rw [lex, List.append_nil] at hrest
  obtain ⟨body, hread, hsame⟩ := Cursor.reads_of_spells hspells hrest (by
    rintro u ⟨⟩
    exact Place.stops_zero (Or.inl rfl))
  generalize hmid : d.past _ (lex [':', ':'] ++ _) = mid at hread
  have hrest' : mid.rest = [⟨.colon, [':']⟩] ++
      (lex [':'] ++ ⟨.equals, ['=']⟩ :: l.valueTokens) := by
    rw [← hmid]
    rfl
  have hone : mid.advance 1 = d.past (lex l.name.text ++ lex l.before ++ [⟨.colon, [':']⟩])
      (lex [':'] ++ ⟨.equals, ['=']⟩ :: l.valueTokens) := by
    rw [← Cursor.past_past, hmid]
    exact Cursor.advance_eq_past _ hrest'
  have hlast : (mid.advance 1).ReadsPrerequisites .nil (mid.advance 1) := by
    rw [hone]
    refine .last (.finish ?_) fun h => h.2 rfl
    rintro kind ⟨⟩
    exact Place.stops_zero (Or.inl rfl)
  have hcolon : mid.kindAt 0 = some .colon ∧ mid.kindAt 1 ≠ some .equals := by
    rw [← hmid]
    refine ⟨rfl, fun h => ?_⟩
    cases h
  have hwhole := Cursor.ReadsPrerequisites.more hread hcolon hlast
  rw [hone] at hwhole
  exact ⟨_, _, hwhole, by
    rw [nameWithColon, Body.mapPos_append, hsame, ← Body.mapPos_append]⟩

/-- **Behind a target, the first of two colons is read as part of the name.** -/
theorem parses_targeted_double : ParsesAs (l.targeted [':', ':', '='])
    (.assignment ⟨⟨0, l.nameWithColon⟩, .simple, l.assigned, some l.targetName⟩) ↔
      ¬ StartsDirective l.target.text := by
  have htrim : (Phrase.trimEnd ⟨0, l.nameWithColon⟩) = ⟨0, l.nameWithColon⟩ :=
    congrArg (Phrase.mk 0) (Body.trimEnd_append_char (by decide))
  have hne : l.nameWithColon ≠ .nil := fun h => by
    cases (Body.append_eq_nil_iff.mp h).2
  have htake : AssignOp.simple.takeMark (Phrase.trimEnd ⟨0, l.nameWithColon⟩) =
      (.simple, ⟨0, l.nameWithColon⟩) := by
    rw [htrim]
    exact Cursor.takeMark_of_not_endsWith fun h => absurd h (by decide)
  refine l.parses_targeted_iff fun htarget => ?_
  have htext : IsOperator ([':'] ++ [':'] ++ ['=']) := by decide
  have hread := l.readsAgain_behind (c := Cursor.start _) htext (Or.inr ⟨rfl, rfl⟩)
    (fun hd => l.reads_nameWithColon hd) htake (by rwa [htrim]) htarget rfl
  rwa [htrim] at hread

/-- The name holds no colon, so it is not the name with a colon. -/
theorem trimEnd_ne_nameWithColon : l.name.body.trimEnd.mapPos (fun _ => 0) ≠
    l.nameWithColon.mapPos (fun _ => 0) := by
  intro hname
  have hcolon : l.name.body.trimEnd.endsWith ':' = true := by
    rw [← Body.endsWith_mapPos (fun _ => 0), hname, Body.endsWith_mapPos]
    exact Body.endsWith_append_char _ ':' ':'
  rw [Body.endsWith_of_separators (Body.separators_trimEnd l.name.unmarked) rfl] at hcolon
  cases hcolon

/-- **An assignment is read with a target as it is read without one**, for each of the four
operators that are written: with the same name, operator and value, if only the line is no
directive. With two colons it is a simple assignment in both forms, but with a target the first of
the colons is read as part of its name. -/
theorem parses (l : AssignmentLine) :
    (∀ op : AssignOp,
      (ParsesAs (l.plain op.text) (.assignment ⟨l.variableName, op, l.assigned, none⟩) ↔
        ¬ StartsDirective l.name.text) ∧
      (ParsesAs (l.targeted op.text)
        (.assignment ⟨l.variableName, op, l.assigned, some l.targetName⟩) ↔
          ¬ StartsDirective l.target.text)) ∧
    (ParsesAs (l.plain "::=") (.assignment ⟨l.variableName, .simple, l.assigned, none⟩) ↔
      ¬ StartsDirective l.name.text) ∧
    (ParsesAs (l.targeted "::=")
      (.assignment ⟨⟨0, l.nameWithColon⟩, .simple, l.assigned, some l.targetName⟩) ↔
        ¬ StartsDirective l.target.text) ∧
    ¬ ParsesAs (l.targeted "::=")
      (.assignment ⟨l.variableName, .simple, l.assigned, some l.targetName⟩) := by
  refine ⟨fun op => ⟨l.parses_plain op, l.parses_targeted op⟩, l.parses_plain_double,
    l.parses_targeted_double, fun h => ?_⟩
  have htarget : ¬ StartsDirective l.target.text := fun hstarts =>
    Cursor.not_parsesAs_assignment (l.visible_targeted _)
      (by rwa [l.keyword?_targeted rfl]) h
  have hsame := h.unique (l.parses_targeted_double.mpr htarget)
  exact l.trimEnd_ne_nameWithColon
    (congrArg (Phrase.body ∘ Assignment.name) (Content.assignment.inj hsame))

/-- The line `a: X ::= $(b)`. -/
def underTarget : AssignmentLine where
  target := ⟨['a'], .ofText ['a'], .token (.literal rfl rfl) .nil, rfl,
    by rintro x ⟨⟩; decide, by rintro x ⟨⟩; decide⟩
  name := ⟨['X'], .ofText ['X'], .token (.literal rfl rfl) .nil, rfl,
    by rintro x ⟨⟩; decide, by rintro x ⟨⟩; decide⟩
  value :=
    { text := ['$', '(', 'b', ')']
      body := .ref (.ofText ['b']) 0 0 .paren .nil
      spells := @Spells.bracketed .line 0 0 0 .paren [⟨.identifier, ['b']⟩] [] (.ofText ['b']) .nil
        (.token (.literal rfl rfl) .nil) .nil
      unmarked := rfl
      front := by rintro x ⟨⟩; decide
      back := by rintro x ⟨⟩; decide }
  gap := [' ']
  before := [' ']
  behind := [' ']
  ending := ['\n']
  blank := List.all_eq_true.mp rfl
  ends := Or.inr rfl
  name_ne := by decide

theorem parses_underTarget :
    underTarget.targeted "::=" = "a: X ::= $(b)\n".toList ∧
      ParsesAs "X += $(b)\n" (.assignment ⟨.ofText 0 "X", .append, underTarget.assigned, none⟩) ∧
      ParsesAs "a: X += $(b)\n"
        (.assignment ⟨.ofText 0 "X", .append, underTarget.assigned, some (.ofText 0 "a")⟩) ∧
      ParsesAs "a: X ::= $(b)\n"
        (.assignment ⟨.ofText 0 "X :", .simple, underTarget.assigned, some (.ofText 0 "a")⟩) :=
  ⟨rfl, ((parses underTarget).1 .append).1.mpr (by decide),
    ((parses underTarget).1 .append).2.mpr (by decide),
    (parses underTarget).2.2.1.mpr (by decide)⟩

end AssignmentLine

end MakeBlueprint.Makefile
