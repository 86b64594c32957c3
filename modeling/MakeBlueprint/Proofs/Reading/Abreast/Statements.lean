import MakeBlueprint.Proofs.Reading.Abreast.Blocks
import MakeBlueprint.Proofs.Reading.Coverage
import MakeBlueprint.Proofs.Reading.Trimming

/-!
# Statements abreast

Statements are read abreast as long as the readers skip the same tokens in both texts. An escaped
line break is not skipped where a blank is, so a blank that stands for one must not be where blanks
are skipped: behind the word of a directive or the colon of a target, and in a definition
(`Alignment.Spares`).

* `Abreast.directive`, `Abreast.assignment`, `Abreast.rule`: one kind of statement in both texts.
* `Cursor.ReadsRecipe.abreast`: the lines of a recipe, with the directives between them.
* `Abreast.statement`: any statement in both texts.
-/

namespace MakeBlueprint.Makefile

open Text (byteSize)
open Token (textOf)

namespace Alignment

/-- **A statement of the second text spares the blanks** that are escaped line breaks there: it does
not skip blanks up to one, and takes none for a line of a definition. -/
def Spares (A : Alignment) (s : Content × Span) : Prop :=
  match s.1 with
  | .directive d => ¬ A.bound (s.2.start + byteSize d.keyword.text) ∧
      (d.keyword = .define → ∀ n, A.joins n → s.2.start ≤ n →
        s.2.stop ≤ n ∧ d.arguments.pos + byteSize d.arguments.dump + 2 ≤ n)
  | .rule r => ¬ A.joins r.prerequisites.pos
  | .assignment a => a.target.isSome = true → ¬ A.joins a.name.pos
  | _ => True

end Alignment

namespace Cursor

/-- **A line of a recipe**, when the lines of the recipe are read from a cursor on. -/
inductive RecipeLine : Cursor → Span → Prop
  | here {c : Cursor} (htab : c.kindAt c.breaks = some .tab) :
      RecipeLine c ⟨c.read, (c.advance (c.breaks + 1)).recipeLine.2.read⟩
  | behindLine {c : Cursor} {line : Span} (htab : c.kindAt c.breaks = some .tab)
      (hline : RecipeLine (c.advance (c.breaks + 1)).recipeLine.2 line) : RecipeLine c line
  | behindDirective {c : Cursor} {keyword : Keyword} {line : Span}
      (htab : c.kindAt c.breaks ≠ some .tab) (hkeyword : c.keyword? = some keyword)
      (hline : RecipeLine (c.directive keyword).skipBreak line) : RecipeLine c line

/-- A line of the recipe of a rule, from the colon of its target on. The line of the rule itself may
have one behind the prerequisites. -/
inductive RuleLine (c : Cursor) : Span → Prop
  | first {mid next : Cursor} {body : Phrase.Body}
      (hbody : ReadsPrerequisites c.skipBlanks body mid)
      (hopens : OpensRecipe mid true next) : RuleLine c ⟨mid.read, next.recipeLine.2.read⟩
  | later {mid next : Cursor} {body : Phrase.Body} {firstLine : Bool} {line : Span}
      (hbody : ReadsPrerequisites c.skipBlanks body mid) (hopens : OpensRecipe mid firstLine next)
      (hline : RecipeLine { (recipeStart firstLine next).2 with statements := [] } line) :
      RuleLine c line

/-- A line of the recipe of a rule that starts here. -/
inductive StatementLine (c : Cursor) : Span → Prop
  | intro {mid next : Cursor} {head : Phrase.Body} {line : Span} (hkeyword : c.keyword? = none)
      (hhead : ReadsBody .head 0 c head mid) (hcolons : ReadsColons mid next)
      (hline : RuleLine next line) : StatementLine c line

end Cursor

variable {A : Alignment} {source : Text} {c c' : Cursor}

/-! ## Names -/

namespace Phrase

theorem mapPos_forget_iff {p p' : Phrase} :
    p'.mapPos forget = p.mapPos forget ↔ p'.body.mapPos forget = p.body.mapPos forget := by
  simp [mapPos, forget]

theorem trimEnd_forget {p p' : Phrase} (h : p'.mapPos forget = p.mapPos forget) :
    p'.trimEnd.mapPos forget = p.trimEnd.mapPos forget := by
  rw [← trimEnd_mapPos, ← trimEnd_mapPos, h]

theorem trim_forget {p p' : Phrase} (h : p'.body.mapPos forget = p.body.mapPos forget) :
    p'.trim.mapPos forget = p.trim.mapPos forget := by
  rw [mapPos_forget_iff]
  simp only [trim, trimStart, trimEnd, ← Body.trimEnd_mapPos, ← Body.trimStart_mapPos, h]

namespace Body

variable {a b : Body}

theorem endsWith_append {x : Char} (hb : b ≠ .nil) : (a ++ b).endsWith x = b.endsWith x := by
  induction a with
  | nil => rfl
  | char y r ih =>
    have hne : r ++ b ≠ .nil := fun h => hb (append_eq_nil_iff.mp h).2
    rw [char_append, ← ih]
    cases hr : r ++ b with
    | nil => exact absurd hr hne
    | char | ref => rfl
  | ref name m n d r _ ih => exact ih

theorem dropLast_append (hb : b ≠ .nil) : (a ++ b).dropLast = a ++ b.dropLast := by
  induction a with
  | nil => rfl
  | char y r ih =>
    have hne : r ++ b ≠ .nil := fun h => hb (append_eq_nil_iff.mp h).2
    rw [char_append, char_append, ← ih]
    cases hr : r ++ b with
    | nil => exact absurd hr hne
    | char | ref => rfl
  | ref name m n d r _ ih => exact congrArg (Body.ref name m n d) ih

end Body

end Phrase

/-- The mark at the end of a name does not depend on positions. -/
theorem AssignOp.takeMark_forget (op : AssignOp) {name name' : Phrase}
    (h : name'.mapPos forget = name.mapPos forget) :
    (op.takeMark name').1 = (op.takeMark name).1 ∧
      (op.takeMark name').2.trimEnd.mapPos forget = (op.takeMark name).2.trimEnd.mapPos forget ∧
      (op.takeMark name').2.trimEnd.isEmpty = (op.takeMark name).2.trimEnd.isEmpty := by
  have hmark := AssignOp.takeMark_mapPos forget op name
  rw [← h, AssignOp.takeMark_mapPos, Prod.mk.injEq] at hmark
  have hmarked := Phrase.trimEnd_forget hmark.2
  refine ⟨hmark.1, hmarked, ?_⟩
  rw [← Phrase.isEmpty_mapPos forget, hmarked, Phrase.isEmpty_mapPos]

/-- A name without anything but white characters in front of another name is no name. -/
theorem isEmpty_of_takeMark_append {op : AssignOp} {a b : Phrase.Body} {pos pos' : Nat}
    (h : (op.takeMark ⟨pos, (a ++ b).trimEnd⟩).2.trimEnd.isEmpty = true) :
    (op.takeMark ⟨pos', b.trimEnd⟩).2.trimEnd.isEmpty = true := by
  -- If the second part is not empty, its last element is the last of all.
  by_cases hb : b.trimEnd = .nil
  · rw [hb]
    cases op <;> rfl
  · rw [Phrase.Body.trimEnd_append hb] at h
    have hrest : ∀ x : Phrase.Body, (a ++ x).trimEnd = .nil → x.trimEnd = .nil := by
      intro x hx
      by_contra hne
      rw [Phrase.Body.trimEnd_append hne] at hx
      exact hne (Phrase.Body.append_eq_nil_iff.mp hx).2
    simp only [AssignOp.takeMark, Phrase.Body.endsWith_append hb, Phrase.dropLast,
      Phrase.Body.dropLast_append hb, Phrase.isEmpty, Phrase.trimEnd, beq_iff_eq] at h ⊢
    split at h
    · next hplus =>
      rw [if_pos hplus]
      exact hrest _ h
    · next hplus =>
      rw [if_neg hplus]
      split at h
      · next hquestion =>
        rw [if_pos hquestion]
        exact hrest _ h
      · next hquestion =>
        rw [if_neg hquestion]
        exact hrest _ h

open Cursor

theorem Cursor.ReadsColons.stands {d : Cursor} (h : ReadsColons c d) (hc : StandsIn source c) :
    StandsIn source d := by
  cases h with
  | single => exact hc.advance 1
  | double => exact hc.advance 2

namespace Abreast

/-! ## Directives -/

theorem keyword?_cons {c : Cursor} {word : Text} {ts : List Token}
    (h : c.rest = ⟨.identifier, word⟩ :: ts) :
    c.keyword? = if (ts.dropWhile fun t => t.kind.isBlank).head?.any (·.kind.deniesDirective) then
      none else Keyword.ofText? word := by
  unfold Cursor.keyword?
  rw [h]
  dsimp only
  cases (ts.dropWhile fun t => t.kind.isBlank).head? with
  | none => rfl
  | some t => rfl

/-- What stands behind a word denies a directive in both texts or in none. -/
theorem any_denies {n n' : Nat} {ts ts' : List Token} (h : Paired A n n' ts ts')
    (hawaits : ¬ A.Awaits Token.Kind.isBlank n' ts') :
    (ts.dropWhile fun t => t.kind.isBlank).head?.any (·.kind.deniesDirective) =
      (ts'.dropWhile fun t => t.kind.isBlank).head?.any (·.kind.deniesDirective) := by
  have hlength := @Paired.length_takeWhile A n n' ts ts' Token.Kind.isBlank h (.inr ⟨rfl, hawaits⟩)
  have hdrop : ∀ us : List Token, us.drop (us.takeWhile fun t => t.kind.isBlank).length =
      us.dropWhile fun t => t.kind.isBlank := fun us =>
    (congrArg (List.drop _) List.takeWhile_append_dropWhile).symm.trans List.drop_left
  have hkind := (h.drop (ts.takeWhile fun t => t.kind.isBlank).length).kindAt 0
  rw [hdrop, hlength, hdrop] at hkind
  rw [← List.head?_eq_getElem?, ← List.head?_eq_getElem?] at hkind
  generalize (ts.dropWhile fun t => t.kind.isBlank).head? = t at hkind
  generalize (ts'.dropWhile fun t => t.kind.isBlank).head? = t' at hkind
  have hany : ∀ u : Option Token, u.any (·.kind.deniesDirective) =
      (u.map Token.kind).any Token.Kind.deniesDirective := fun u => by cases u <;> rfl
  rw [hany, hany]
  rcases hkind with heq | ⟨hwhite, hescape⟩
  · rw [heq]
  · rw [hwhite, hescape]
    rfl

/-- What is no directive in the second text is none in the first. -/
theorem keyword?_of_none (h : Abreast A c c') (hkeyword : c'.keyword? = none) :
    c.keyword? = none := by
  rw [Option.eq_none_iff_forall_ne_some]
  intro keyword hsome
  obtain ⟨us, hrest⟩ := exists_of_keyword hsome
  have htokens := h.tokens
  rw [hrest] at htokens
  generalize hrest' : c'.rest = us' at htokens
  cases htokens with
  | @same _ _ _ ts ts' _ _ _ _ _ hpaired =>
    rw [keyword?_cons hrest] at hsome
    rw [keyword?_cons hrest'] at hkeyword
    by_cases hawaits : A.Awaits Token.Kind.isBlank (c'.read + byteSize keyword.text) ts'
    · -- An escaped line break does not deny a directive.
      obtain ⟨t, ht, hkind⟩ := hpaired.kindAt_of_awaits rfl hawaits
      rw [Option.mem_def.mp ht, Option.any_some, hkind, if_neg (by decide),
        Keyword.ofText?_text] at hkeyword
      cases hkeyword
    · rw [any_denies hpaired hawaits, hkeyword] at hsome
      cases hsome

/-- **A directive in the second text is one in the first**, and what is behind its word does not
await an escaped line break. -/
theorem keyword?_of_some (h : Abreast A c c') {keyword : Keyword}
    (hkeyword : c'.keyword? = some keyword)
    (hbound : ¬ A.bound (c'.read + byteSize keyword.text)) :
    c.keyword? = some keyword ∧
      ¬ A.Awaits Token.Kind.isBlank (c'.advance 1).read (c'.advance 1).rest := by
  obtain ⟨us', hrest'⟩ := exists_of_keyword hkeyword
  have htokens := h.tokens
  rw [hrest'] at htokens
  generalize hrest : c.rest = us at htokens
  cases htokens with
  | join hkind => cases hkind
  | @same _ _ _ ts ts' _ _ _ _ hword hpaired =>
    have hawaits := mt (hword rfl) hbound
    rw [keyword?_cons hrest'] at hkeyword
    rw [keyword?_cons hrest, any_denies hpaired hawaits]
    refine ⟨hkeyword, ?_⟩
    unfold Cursor.advance
    rw [hrest']
    simpa [textOf] using hawaits

/-- **A directive in both texts.** -/
theorem directive (h : Abreast A c c') {keyword : Keyword} (hkeyword : c'.keyword? = some keyword)
    (hspares : ∀ s ∈ (c'.directive keyword).statements, A.Spares s) :
    c.keyword? = some keyword ∧ Abreast A (c.directive keyword) (c'.directive keyword) := by
  have hoffset : c'.offset = c'.read := offset_of_kindAt (kindAt_of_keyword hkeyword)
  obtain ⟨arguments, behind, harguments⟩ : ∃ arguments behind,
      (c'.advance 1).directiveArguments keyword = (arguments, behind) := ⟨_, _, rfl⟩
  have hdirective : c'.directive keyword =
      behind.record (.directive ⟨keyword, arguments⟩) c'.read := by
    rw [← hoffset, Cursor.directive, harguments]
  have hrecorded := hspares (.directive ⟨keyword, arguments⟩, behind.spanFrom c'.read)
    (hdirective ▸ List.mem_append_right _ (List.mem_singleton.mpr rfl))
  obtain ⟨hbound, hblock⟩ : ¬ A.bound (c'.read + byteSize keyword.text) ∧
      (keyword = .define → ∀ n, A.joins n → c'.read ≤ n → max behind.read c'.read ≤ n ∧
        arguments.pos + byteSize arguments.dump + 2 ≤ n) := hrecorded
  obtain ⟨hkeyword₁, hawaits⟩ := h.keyword?_of_some hkeyword hbound
  refine ⟨hkeyword₁, ?_⟩
  have hword := h.advance 1
  -- The arguments are the same, but for the lines of a definition.
  suffices hsame : Abreast A ((c.advance 1).directiveArguments keyword).2 behind ∧
      (keyword = .define ∧ A.returns ∨ arguments.body.mapPos forget =
        ((c.advance 1).directiveArguments keyword).1.body.mapPos forget) by
    rw [hdirective]
    refine hsame.1.record (hoffset ▸ h.offset) ?_
    rcases hsame.2 with ⟨rfl, hreturns⟩ | hbody
    · exact .define hreturns
    · exact .bare (congrArg (fun a => Content.directive ⟨keyword, a⟩)
        (Phrase.mapPos_forget_iff.mpr hbody))
  cases keyword with
  | define =>
    obtain ⟨hbehind, hbody⟩ := hword.defineArguments hawaits fun m hm hle => by
      have hstop : c'.read ≤ (c'.advance 1).read := Nat.le_add_right _ _
      obtain ⟨hspan, hlines⟩ := hblock rfl m hm (Nat.le_trans hstop hle)
      rw [show (c'.advance 1).defineArguments = (arguments, behind) from harguments]
      exact ⟨Nat.le_trans (Nat.le_max_left _ _) hspan, hlines⟩
    rw [show (c'.advance 1).defineArguments = (arguments, behind) from harguments] at hbehind hbody
    exact ⟨hbehind, hbody.imp (⟨rfl, ·⟩) (congrArg _)⟩
  | elseBranch | endIf | endDefine =>
    cases harguments
    exact ⟨hword, .inr rfl⟩
  | includeFile | includeOptional | includeSilent | ifEq | ifNotEq | ifDefined | ifNotDefined =>
    cases harguments
    obtain ⟨hbody, hbehind, -⟩ := (hword.skipWhile (.inr ⟨rfl, hawaits⟩)).phrase .line
    refine ⟨hbehind, .inr ?_⟩
    exact Phrase.mapPos_forget_iff.mp (Phrase.trimEnd_forget (Phrase.mapPos_forget_iff.mpr hbody))

/-! ## Assignments -/

/-- Where an assignment starts. -/
def startOf (target : Option Phrase) (name : Phrase) : Nat := (target.map Phrase.pos).getD name.pos

theorem assignment_eq (op : AssignOp) (target : Option Phrase) (name : Phrase) (c : Cursor) :
    c.assignment op target name =
      if (op.takeMark name).2.trimEnd.isEmpty then
        ((c.advance 1).phrase .line).2.report (startOf target name) .emptyName
      else ((c.advance 1).phrase .line).2.record (.assignment ⟨(op.takeMark name).2.trimEnd,
        (op.takeMark name).1, ((c.advance 1).phrase .line).1.trim, target⟩)
        (startOf target name) := by
  cases target <;> rfl

/-- **An assignment in both texts.** -/
theorem assignment (h : Abreast A c c') (op : AssignOp) {target target' : Option Phrase}
    {name name' : Phrase}
    (htarget : target'.map (Phrase.mapPos forget) = target.map (Phrase.mapPos forget))
    (hname : name'.mapPos forget = name.mapPos forget)
    (hstart : A.place (startOf target name) = startOf target' name') :
    Abreast A (c.assignment op target name) (c'.assignment op target' name') := by
  obtain ⟨hvalue, hbehind, -⟩ := (h.advance 1).phrase .line
  obtain ⟨hmark, hmarked, hempty⟩ := op.takeMark_forget hname
  rw [assignment_eq, assignment_eq, hempty]
  split
  · exact hbehind.report rfl hstart
  · refine hbehind.record hstart (.bare ?_)
    rw [Content.mapPos, Content.mapPos, hmarked, hmark, Phrase.trim_forget hvalue, htarget]

/-- Without a name, both texts have the same fault. -/
theorem assignment_of_isEmpty (h : Abreast A c c') (op : AssignOp)
    {target target' name name' : Phrase}
    (hname : (op.takeMark name).2.trimEnd.isEmpty = true)
    (hname' : (op.takeMark name').2.trimEnd.isEmpty = true)
    (hstart : A.place target.pos = target'.pos) :
    Abreast A (c.assignment op (some target) name) (c'.assignment op (some target') name') := by
  obtain ⟨-, hbehind, -⟩ := (h.advance 1).phrase .line
  rw [assignment_eq, assignment_eq, if_pos hname, if_pos hname']
  exact hbehind.report rfl hstart

/-! ## Recipes -/

theorem breaks (h : Abreast A c c') : c.breaks = c'.breaks :=
  @Paired.length_takeWhile A _ _ _ _ (fun k => k == .newline) h.tokens (.inl rfl)

theorem kindAt_breaks (h : Abreast A c c') :
    c.kindAt c.breaks = some .tab ↔ c'.kindAt c'.breaks = some .tab := by
  rw [h.breaks]
  exact h.kindAt_iff _ nofun nofun

/-- **A line of a recipe in both texts.** -/
theorem recipeLine (h : Abreast A c c') :
    Abreast A c.recipeLine.2 c'.recipeLine.2 ∧
      (A.returns ∨ c'.recipeLine.1 = c.recipeLine.1 ∨ A.JoinsIn c'.read c'.recipeLine.2.read) := by
  have hskip := h.skipLine
  refine ⟨hskip.advance 1, ?_⟩
  have htake : ∀ d : Cursor, d.line = d.rest.take d.line.length := fun d =>
    List.prefix_iff_eq_take.mp (List.takeWhile_prefix _)
  have hlength : c.line.length = c'.line.length :=
    @Paired.length_takeWhile A _ _ _ _ (fun k => k != .newline) h.tokens (.inl rfl)
  have hline : ∀ t ∈ c.line, t.kind ≠ .newline := fun t ht => by
    simpa using List.mem_takeWhile_imp ht
  by_cases hreturns : A.returns
  · exact .inl hreturns
  have htext := h.tokens.flatMap_take Token.text c.line.length (by rwa [← htake])
    (fun hr => absurd hr hreturns)
  rw [← htake, hlength, ← htake] at htext
  refine .inr (htext.imp (fun htext => ?_) fun hjoins => ?_)
  · have hnil := hskip.tokens.nil_iff
    unfold Cursor.recipeLine textOf
    simp only [List.isEmpty_iff, hnil, htext]
  · refine hjoins.mono (Nat.le_refl _) ?_
    rw [htake]
    exact Nat.le_add_right _ _

end Abreast

/-- **Recipes are read abreast**, unless a blank in a line of the first one is an escaped line break
in the second. -/
theorem Cursor.ReadsRecipe.abreast {d' : Cursor} {lines' : Text} (h : ReadsRecipe c' lines' d')
    (hc : Abreast A c c') (hc' : StandsIn source c') (hspares : ∀ s ∈ d'.statements, A.Spares s)
    (hlines : ∀ line, RecipeLine c' line → ¬ A.JoinsIn line.start line.stop) :
    ∃ lines d, ReadsRecipe c lines d ∧ Abreast A d d' ∧ (A.returns ∨ lines' = lines) := by
  induction h generalizing c with
  | @line c' d' lines' htab hrest ih =>
    obtain ⟨hline, htext⟩ := (hc.advance (c'.breaks + 1)).recipeLine
    obtain ⟨lines, d, hlines₁, hd, hsame⟩ := ih hline (finds_recipeLine (hc'.advance _)).stands
      hspares fun line hline => hlines line (.behindLine htab hline)
    have hread : c'.read ≤ (c'.advance (c'.breaks + 1)).read := Nat.le_add_right _ _
    rw [← hc.breaks] at hlines₁
    refine ⟨_, d, .line (hc.kindAt_breaks.mpr htab) hlines₁, hd, ?_⟩
    rcases htext with hreturns | htext | hjoins
    · exact .inl hreturns
    · exact hsame.imp_right fun hsame => by rw [htext, hsame, hc.breaks]
    · exact absurd (hjoins.mono hread (Nat.le_refl _)) (hlines _ (.here htab))
  | @directive c' d' lines' keyword htab hkeyword hrest ih =>
    obtain ⟨arguments, cs, hdirective⟩ := finds_directive hc' hkeyword
    have hstands := (finds_skipBreak hdirective.stands).stands
    obtain ⟨ss, cs', hfinds, -⟩ := hrest.finds hstands
    have hspares₁ : ∀ s ∈ (c'.directive keyword).statements, A.Spares s := fun s hs => by
      refine hspares s ?_
      rw [hfinds.statements, (finds_skipBreak hdirective.stands).statements]
      simp [hs]
    obtain ⟨hkeyword₁, hd⟩ := hc.directive hkeyword hspares₁
    obtain ⟨lines, d, hlines₁, hd, hsame⟩ := ih hd.skipBreak hstands hspares
      fun line hline => hlines line (.behindDirective htab hkeyword hline)
    exact ⟨lines, d, .directive (mt hc.kindAt_breaks.mp htab) hkeyword₁ hlines₁, hd, hsame⟩
  | @stop c' htab hkeyword =>
    exact ⟨[], c, .stop (mt hc.kindAt_breaks.mp htab) (hc.keyword?_of_none hkeyword), hc, .inr rfl⟩

namespace Abreast

/-- **A rule with its recipe in both texts.** -/
theorem recipe {target target' prerequisites prerequisites' : Phrase} {firstLine : Bool}
    (hstart : Abreast A (recipeStart firstLine c).2 (recipeStart firstLine c').2)
    (htext : A.returns ∨ (recipeStart firstLine c').1 = (recipeStart firstLine c).1)
    (hc' : StandsIn source c') (htarget : target'.mapPos forget = target.mapPos forget)
    (hprerequisites : prerequisites'.mapPos forget = prerequisites.mapPos forget)
    (hpos : A.place target.pos = target'.pos)
    (hspares : ∀ s ∈ (c'.recipe target' prerequisites' firstLine).statements, A.Spares s)
    (hlines : ∀ line, RecipeLine { (recipeStart firstLine c').2 with statements := [] } line →
      ¬ A.JoinsIn line.start line.stop) :
    Abreast A (c.recipe target prerequisites firstLine)
      (c'.recipe target' prerequisites' firstLine) := by
  obtain ⟨lines', d', hlines', heq'⟩ := exists_recipe target' prerequisites' firstLine c'
  rw [heq'] at hspares ⊢
  have hstands := (finds_recipeStart firstLine hc').stands
  have hempty : Abreast A { (recipeStart firstLine c).2 with statements := [] }
      { (recipeStart firstLine c').2 with statements := [] } :=
    ⟨hstart.tokens, hstart.size, .nil, hstart.comments, hstart.faults⟩
  obtain ⟨lines, d, hlines₁, hd, hsame⟩ := hlines'.abreast hempty (hstands.congr rfl rfl rfl)
    (fun s hs => hspares s (List.mem_append_right _ (List.mem_cons_of_mem _ hs))) hlines
  rw [hlines₁.recipe_eq]
  have hrule : A.Matches
      (.rule ⟨target, prerequisites, recipeText (recipeStart firstLine c).1 lines⟩,
        d.spanFrom target.pos)
      (.rule ⟨target', prerequisites', recipeText (recipeStart firstLine c').1 lines'⟩,
        d'.spanFrom target'.pos) := by
    refine ⟨hd.spanFrom hpos, ?_⟩
    rcases htext with hreturns | htext
    · exact .rule hreturns htarget hprerequisites
    · rcases hsame with hreturns | hsame
      · exact .rule hreturns htarget hprerequisites
      · refine .bare ?_
        rw [Content.mapPos, Content.mapPos, htarget, hprerequisites, htext, hsame]
  exact ⟨hd.tokens, hd.size, List.rel_append hstart.statements (.cons hrule hd.statements),
    hd.comments, hd.faults⟩

/-! ## Rules -/

/-- **A recipe opens in both texts alike.** -/
theorem opensRecipe {mid mid' next' : Cursor} {firstLine : Bool} (h : Abreast A mid mid')
    (hkind : mid.kindAt 0 = mid'.kindAt 0) (hmid' : StandsIn source mid')
    (hopens : OpensRecipe mid' firstLine next')
    (hfirst : firstLine = true → ¬ A.JoinsIn mid'.read next'.recipeLine.2.read) :
    ∃ next, OpensRecipe mid firstLine next ∧
      Abreast A (recipeStart firstLine next).2 (recipeStart firstLine next').2 ∧
      (A.returns ∨ (recipeStart firstLine next').1 = (recipeStart firstLine next).1) := by
  -- A line of a recipe that starts behind the prerequisites.
  have hline : ∀ {e e' : Cursor}, Abreast A e e' → mid'.read ≤ e'.read →
      ¬ A.JoinsIn mid'.read e'.recipeLine.2.read →
      A.returns ∨ e'.recipeLine.1 = e.recipeLine.1 := fun he hread hclear =>
    he.recipeLine.2.imp_right (Or.resolve_right · fun hjoins =>
      hclear (hjoins.mono hread (Nat.le_refl _)))
  cases hopens with
  | semicolon hnext =>
    have hbehind := h.advance 1
    have hread : mid'.read ≤ (mid'.advance 1).skipBlanks.read :=
      Nat.le_trans (Nat.le_add_right _ _) (Nat.le_add_right _ _)
    have hskip : Abreast A (mid.advance 1).skipBlanks (mid'.advance 1).skipBlanks := by
      refine hbehind.skipWhile (.inr ⟨rfl, fun hawaits => ?_⟩)
      -- The line has the escaped line break in it.
      obtain ⟨hrest, hjoin⟩ := awaits_iff.mp hawaits
      obtain ⟨t, ts, hcons⟩ := List.exists_cons_of_ne_nil hrest
      have hlt := ((hmid'.advance 1).advance _).read_lt_advance (kindAt_of_rest hcons)
      refine hfirst rfl ⟨_, hjoin, hread, Nat.lt_of_lt_of_le hlt ?_⟩
      have hline : (mid'.advance 1).skipBlanks.recipeLine.2 = (mid'.advance 1).skipBlanks.advance
          (1 + (mid'.advance 1).skipBlanks.line.length) := by
        rw [Nat.add_comm, ← advance_advance]
        rfl
      rw [hline, ← advance_advance]
      exact Nat.le_add_right _ _
    exact ⟨_, .semicolon (hkind.trans hnext), hskip.recipeLine.1, hline hskip hread (hfirst rfl)⟩
  | newline hnext =>
    exact ⟨_, .newline (hkind.trans hnext), h.advance 1, .inr rfl⟩
  | comment hnext =>
    exact ⟨_, .comment (hkind.trans hnext), h.comment hnext, .inr rfl⟩
  | nothing hnext =>
    exact ⟨_, .nothing (hkind.trans hnext), h.recipeLine.1, hline h (Nat.le_refl _) (hfirst rfl)⟩
  | unexpected kind hnext hnot =>
    have hreport : Abreast A (mid.reportHere (.unexpectedInRule kind))
        (mid'.reportHere (.unexpectedInRule kind)) := h.reportHere rfl
    exact ⟨_, .unexpected kind (hkind.trans hnext) hnot, hreport.recipeLine.1,
      hline hreport (ahead_reportHere mid' (.unexpectedInRule kind)).read (hfirst rfl)⟩

/-- A name behind a colon and an escaped line break is no name: with one, the assignment would skip
blanks up to the line break. Without one, both texts have the same fault. -/
theorem assignment_behind_join {mid mid' : Cursor} (h : Abreast A mid mid') (op : AssignOp)
    {target target' : Phrase} {pos pos' : Nat} {body body' blanks : Phrase.Body}
    (hstart : A.place target.pos = target'.pos) (hjoin : A.joins pos')
    (hbody : body'.mapPos forget = body.mapPos forget)
    (hspares : ∀ s ∈ (mid'.assignment op (some target')
      (Phrase.trimEnd ⟨pos', blanks ++ body'⟩)).statements, A.Spares s) :
    Abreast A (mid.assignment op (some target) (Phrase.trimEnd ⟨pos, body⟩))
      (mid'.assignment op (some target') (Phrase.trimEnd ⟨pos', blanks ++ body'⟩)) := by
  have hpos : ∀ name : Phrase, (op.takeMark name).2.trimEnd.pos = name.pos := by
    intro name
    unfold AssignOp.takeMark
    split
    · rfl
    · split <;> rfl
  by_cases hempty : (op.takeMark (Phrase.trimEnd ⟨pos', blanks ++ body'⟩)).2.trimEnd.isEmpty = true
  · have hbehind : (op.takeMark ⟨pos, body'.trimEnd⟩).2.trimEnd.isEmpty = true :=
      isEmpty_of_takeMark_append hempty
    have hname : (Phrase.mk pos body').trimEnd.mapPos forget =
        (Phrase.mk pos body).trimEnd.mapPos forget :=
      Phrase.trimEnd_forget (Phrase.mapPos_forget_iff.mpr hbody)
    obtain ⟨-, -, hsame⟩ := op.takeMark_forget hname
    exact h.assignment_of_isEmpty op (hsame.symm.trans hbehind) hempty hstart
  · rw [assignment_eq, if_neg hempty] at hspares
    have hrecorded := hspares _ (List.mem_append_right _ (List.mem_singleton.mpr rfl))
    refine absurd ?_ (hrecorded rfl)
    dsimp only
    rw [hpos]
    exact hjoin

/-- Prerequisites that start with what only one of the readers skips. -/
theorem exists_prerequisites {d mid : Cursor} {w : Text} {body : Phrase.Body}
    (hover : ∀ body e, ReadsBody .prerequisites 0 d body e →
      ReadsBody .prerequisites 0 c (.ofText w ++ body) e)
    (hbody : ReadsPrerequisites c body mid) :
    ∃ body₁, body = .ofText w ++ body₁ ∧ ReadsPrerequisites d body₁ mid := by
  obtain ⟨body₁, mid₁, hbehind⟩ : ∃ body₁ mid₁, ReadsPrerequisites d body₁ mid₁ :=
    ⟨_, _, readsPrerequisites_prerequisites (Nat.lt_add_one _)⟩
  have hwhole : ReadsPrerequisites c (.ofText w ++ body₁) mid₁ := by
    cases hbehind with
    | last hbody hstop => exact .last (hover _ _ hbody) hstop
    | more hfirst hmore hrest =>
      rw [← Phrase.Body.append_assoc]
      exact .more (hover _ _ hfirst) hmore hrest
  have heq := hbody.eq_prerequisites (Nat.lt_add_one _)
  rw [hwhole.eq_prerequisites (Nat.lt_add_one _), Prod.mk.injEq] at heq
  exact ⟨body₁, heq.1.symm, heq.2 ▸ hbehind⟩

/-- The prerequisites of a rule do not start where an escaped line break is a blank in the first
text. -/
theorem not_joins_prerequisites {target prerequisites : Phrase} {firstLine : Bool}
    (hspares : ∀ s ∈ (c.recipe target prerequisites firstLine).statements, A.Spares s) :
    ¬ A.joins prerequisites.pos := by
  obtain ⟨lines, d, -, heq⟩ := exists_recipe target prerequisites firstLine c
  rw [heq] at hspares
  exact hspares (.rule _, _) (List.mem_append_right _ List.mem_cons_self)

/-- **A rule, or an assignment to a target, in both texts.** -/
theorem rule (h : Abreast A c c') {target target' : Phrase}
    (htarget : target'.mapPos forget = target.mapPos forget)
    (hpos : A.place target.pos = target'.pos) (hc' : StandsIn source c')
    (hspares : ∀ s ∈ (c'.rule target').statements, A.Spares s)
    (hlines : ∀ line, RuleLine c' line → ¬ A.JoinsIn line.start line.stop) :
    Abreast A (c.rule target) (c'.rule target') := by
  have htrimmed := Phrase.trimEnd_forget htarget
  have hsome : (some target'.trimEnd).map (Phrase.mapPos forget) =
      (some target.trimEnd).map (Phrase.mapPos forget) := congrArg some htrimmed
  have hstands := hc'.advance (c'.rest.takeWhile fun t => t.kind.isBlank).length
  have hrule := readsRule_rule target' c'
  generalize c'.rule target' = d' at hrule hspares
  by_cases hawaits : A.Awaits Token.Kind.isBlank c'.read c'.rest
  · obtain ⟨hrest, hjoin⟩ := awaits_iff.mp hawaits
    obtain ⟨t, ts, hcons⟩ := List.exists_cons_of_ne_nil hrest
    have hjoin : A.joins c'.skipBlanks.offset :=
      (offset_of_kindAt (kindAt_of_rest hcons)).symm ▸ hjoin
    obtain ⟨w, d, hd, hover⟩ := h.overSkipped
    cases hrule with
    | assignment hbody hnext =>
      obtain ⟨body₁, rfl, hbody₁⟩ := exists_prerequisites hover hbody
      obtain ⟨body, mid, hbody, hbare, hmid, hkind⟩ := hbody₁.abreast hd
      rw [(ReadsRule.assignment hbody (hkind.trans hnext)).eq_rule]
      exact hmid.assignment_behind_join .recursive hpos hjoin hbare hspares
    | simple hbody hnext =>
      obtain ⟨body₁, rfl, hbody₁⟩ := exists_prerequisites hover hbody
      obtain ⟨body, mid, hbody, hbare, hmid, hkind⟩ := hbody₁.abreast hd
      rw [(ReadsRule.simple hbody (hkind.trans hnext)).eq_rule]
      exact (hmid.advance 1).assignment_behind_join .simple hpos hjoin hbare hspares
    | recipe hbody hopens => exact absurd hjoin (not_joins_prerequisites hspares)
  · have hskip : Abreast A c.skipBlanks c'.skipBlanks := h.skipWhile (.inr ⟨rfl, hawaits⟩)
    have hname : ∀ {body body' : Phrase.Body}, body'.mapPos forget = body.mapPos forget →
        (Phrase.mk c'.skipBlanks.offset body').trimEnd.mapPos forget =
          (Phrase.mk c.skipBlanks.offset body).trimEnd.mapPos forget :=
      fun hbody => Phrase.trimEnd_forget (Phrase.mapPos_forget_iff.mpr hbody)
    cases hrule with
    | assignment hbody hnext =>
      obtain ⟨body, mid, hbody₁, hbare, hmid, hkind⟩ := hbody.abreast hskip
      rw [(ReadsRule.assignment hbody₁ (hkind.trans hnext)).eq_rule]
      exact hmid.assignment .recursive hsome (hname hbare) hpos
    | simple hbody hnext =>
      obtain ⟨body, mid, hbody₁, hbare, hmid, hkind⟩ := hbody.abreast hskip
      rw [(ReadsRule.simple hbody₁ (hkind.trans hnext)).eq_rule]
      exact (hmid.advance 1).assignment .simple hsome (hname hbare) hpos
    | recipe hbody hopens =>
      obtain ⟨body, mid, hbody₁, hbare, hmid, hkind⟩ := hbody.abreast hskip
      obtain ⟨cs, hfinds⟩ := hbody.finds hstands
      obtain ⟨next, hopens₁, hstart, htext⟩ := hmid.opensRecipe hkind hfinds.stands hopens
        fun hfirst => by
          subst hfirst
          exact hlines _ (.first hbody hopens)
      obtain ⟨cs', hfinds'⟩ := hopens.finds hfinds.stands
      rw [(ReadsRule.recipe hbody₁ hopens₁).eq_rule]
      exact recipe hstart htext hfinds'.stands htrimmed (hname hbare) hpos hspares
        fun line hline => hlines line (.later hbody hopens hline)

/-! ## Lines -/

theorem operator (h : Abreast A c c') {op : AssignOp} {d' : Cursor}
    (hop : ReadsOperator c' op d') : ∃ d, ReadsOperator c op d ∧ Abreast A d d' := by
  cases hop with
  | recursive hequals => exact ⟨c, .recursive (h.kindAt_of_ne hequals nofun), h⟩
  | conditional hquestion hequals =>
    exact ⟨_, .conditional (h.kindAt_of_ne hquestion nofun) (h.kindAt_of_ne hequals nofun),
      h.advance 1⟩
  | simple hcolon hequals =>
    exact ⟨_, .simple (h.kindAt_of_ne hcolon nofun) (h.kindAt_of_ne hequals nofun), h.advance 1⟩
  | double hcolon hcolon' hequals =>
    exact ⟨_, .double (h.kindAt_of_ne hcolon nofun) (h.kindAt_of_ne hcolon' nofun)
      (h.kindAt_of_ne hequals nofun), h.advance 2⟩

theorem colons (h : Abreast A c c') {d' : Cursor} (hcolons : ReadsColons c' d') :
    ∃ d, ReadsColons c d ∧ Abreast A d d' := by
  have hequals : ∀ k, c.kindAt k = some .equals ↔ c'.kindAt k = some .equals :=
    fun k => h.kindAt_iff k nofun nofun
  have hcolon : ∀ k, c.kindAt k = some .colon ↔ c'.kindAt k = some .colon :=
    fun k => h.kindAt_iff k nofun nofun
  cases hcolons with
  | single hfirst hnext hnext' =>
    exact ⟨_, .single ((hcolon 0).mpr hfirst) (mt (hequals 1).mp hnext) (mt (hcolon 1).mp hnext'),
      h.advance 1⟩
  | double hfirst hsecond hnext =>
    exact ⟨_, .double ((hcolon 0).mpr hfirst) ((hcolon 1).mpr hsecond) (mt (hequals 2).mp hnext),
      h.advance 2⟩

theorem noted (h : Abreast A c c') {phrase phrase' : Phrase}
    (hbody : phrase'.mapPos forget = phrase.mapPos forget)
    (hpos : A.place phrase.pos = phrase'.pos) :
    Abreast A (c.noted phrase) (c'.noted phrase') := by
  have hsole : phrase'.soleReference?.map (Reference.mapPos forget) =
      phrase.soleReference?.map (Reference.mapPos forget) := by
    rw [← Phrase.soleReference?_mapPos, hbody, Phrase.soleReference?_mapPos]
  have hempty : phrase'.isEmpty = phrase.isEmpty := by
    rw [← Phrase.isEmpty_mapPos forget, hbody, Phrase.isEmpty_mapPos]
  unfold Cursor.noted
  cases hr : phrase.soleReference? with
  | some r =>
    rw [hr, Option.map_some] at hsole
    obtain ⟨r', hr', hbare⟩ := Option.map_eq_some_iff.mp hsole
    rw [hr']
    exact h.record hpos (.bare (congrArg Content.reference hbare))
  | none =>
    rw [hr, Option.map_none] at hsole
    rw [Option.map_eq_none_iff.mp hsole]
    dsimp only
    rw [hempty]
    split
    · exact h
    · exact h.report (congrArg Cause.strayText (Phrase.mapPos_forget_iff.mp hbody)) hpos

theorem endLine (h : Abreast A c c') : Abreast A c.endLine c'.endLine := by
  have hhash : c.kindAt 0 = some .hash ↔ c'.kindAt 0 = some .hash := h.kindAt_iff 0 nofun nofun
  unfold Cursor.endLine
  simp only [hhash]
  split
  · next hnext => exact h.comment hnext
  · exact h.advance 1

/-- **A statement in both texts.** -/
theorem statement (h : Abreast A c c') (hc' : StandsIn source c')
    (hspares : ∀ s ∈ c'.statement.statements, A.Spares s)
    (hlines : ∀ line, StatementLine c' line → ¬ A.JoinsIn line.start line.stop) :
    Abreast A c.statement c'.statement := by
  have hname : ∀ {head head' : Phrase.Body}, head'.mapPos forget = head.mapPos forget →
      (Phrase.mk c'.offset head').mapPos forget = (Phrase.mk c.offset head).mapPos forget :=
    fun hbare => Phrase.mapPos_forget_iff.mpr hbare
  have hstatement := readsStatement_statement c'
  generalize c'.statement = d' at hstatement hspares
  cases hstatement with
  | directive hkeyword =>
    obtain ⟨hkeyword₁, hd⟩ := h.directive hkeyword hspares
    rw [(ReadsStatement.directive hkeyword₁).eq_statement]
    exact hd
  | @assignment mid' next' head' op hkeyword hhead hop =>
    obtain ⟨head, mid, hhead₁, hbare, hmid, -⟩ := hhead.abreast h
    obtain ⟨next, hop₁, hnext⟩ := hmid.operator hop
    rw [(ReadsStatement.assignment (h.keyword?_of_none hkeyword) hhead₁ hop₁).eq_statement]
    exact hnext.assignment op rfl (hname hbare) h.offset
  | rule hkeyword hhead hcolons =>
    obtain ⟨head, mid, hhead₁, hbare, hmid, -⟩ := hhead.abreast h
    obtain ⟨next, hcolons₁, hnext⟩ := hmid.colons hcolons
    obtain ⟨cs, hfinds, -⟩ := hhead.finds hc'
    have hstands := hcolons.stands hfinds.stands
    rw [(ReadsStatement.rule (h.keyword?_of_none hkeyword) hhead₁ hcolons₁).eq_statement]
    exact hnext.rule (hname hbare) h.offset hstands hspares
      fun line hline => hlines line (.intro hkeyword hhead hcolons hline)
  | lone hkeyword hhead hnext =>
    obtain ⟨head, mid, hhead₁, hbare, hmid, hkind⟩ := hhead.abreast h
    rw [(ReadsStatement.lone (h.keyword?_of_none hkeyword) hhead₁ (hkind rfl ▸ hnext)).eq_statement,
      loneLine_eq, loneLine_eq]
    exact (hmid.noted (hname hbare) h.offset).endLine
  | expectedEquals hkeyword hhead hquestion hequals =>
    obtain ⟨head, mid, hhead₁, hbare, hmid, -⟩ := hhead.abreast h
    have hiff : mid.kindAt 1 = some .equals ↔ _ := hmid.kindAt_iff 1 nofun nofun
    rw [(ReadsStatement.expectedEquals (h.keyword?_of_none hkeyword) hhead₁
      (hmid.kindAt_of_ne hquestion nofun) (mt hiff.mp hequals)).eq_statement]
    exact (((hmid.advance 1).reportHere rfl).skipLine).advance 1
  | unexpected hkeyword hhead hnext hnot =>
    obtain ⟨head, mid, hhead₁, hbare, hmid, hkind⟩ := hhead.abreast h
    rw [(ReadsStatement.unexpected (h.keyword?_of_none hkeyword) hhead₁
      ((hkind rfl).trans hnext) hnot).eq_statement]
    exact ((hmid.reportHere rfl).skipLine).advance 1

end Abreast

end MakeBlueprint.Makefile
