import MakeBlueprint.Proofs.Reading.Padded.Blocks

/-!
# Statements at the end of a padded line

Statements are read side by side in a text and in the padded text, if they make room for the blanks
(`Padding.Clear`) and no line of a recipe is around the line break in either text.

* `Padding.Beside.directive`, `Padding.Beside.assignment`, `Padding.Beside.rule`: one kind of
  statement in both texts.
* `Cursor.ReadsRecipe.beside`: the lines of a recipe, with the directives between them.
* `Padding.Beside.statement`, `Cursor.ReadsLines.beside`: any statement, and all of them.
-/

namespace MakeBlueprint.Makefile

open Text (byteSize)
open Token (textOf)
open Cursor

/-- A recipe that does not go on stops. -/
theorem Cursor.ReadsRecipe.stops {source : Text} {c d : Cursor} {lines : Text}
    (h : ReadsRecipe c lines d) (hc : StandsIn source c) (hread : d.read ≤ c.read) :
    lines = [] ∧ d = c ∧ c.kindAt c.breaks ≠ some .tab := by
  cases h with
  | line htab hrest =>
    have htab' : (c.advance c.breaks).kindAt 0 = some .tab := (kindAt_advance c _ 0).trans htab
    have hlt := (hc.advance c.breaks).read_lt_advance htab'
    have hbefore := (ahead_advance c c.breaks).read
    have hbehind := ((ahead_recipeLine (c.advance (c.breaks + 1))).trans hrest.ahead).read
    rw [advance_advance] at hlt
    omega
  | directive htab hkeyword hrest =>
    have hlt := hc.read_lt_advance (kindAt_of_keyword hkeyword)
    have hbehind := (((ahead_directive _ c).trans (ahead_skipBreak _)).trans hrest.ahead).read
    omega
  | stop htab hkeyword => exact ⟨rfl, rfl, htab⟩

namespace Padding

variable {t : Text} {k : Padding t} {c c' d : Cursor}

/-- The line break of the padded text is inside a span. -/
def IsInPadded (k : Padding t) (s : Span) : Prop :=
  s.start ≤ k.position + k.size ∧ k.position + k.size < s.stop

instance (k : Padding t) (s : Span) : Decidable (k.IsInPadded s) :=
  inferInstanceAs (Decidable (_ ∧ _))

/-! ## Directives -/

theorem Rests.keyword? (h : k.Rests c c') : c'.keyword? = c.keyword? := by
  have hnone : ∀ {e : Cursor} {kind : Token.Kind}, e.kindAt 0 = some kind →
      kind ≠ .identifier → e.keyword? = none := by
    intro e kind hkind hne
    by_contra hsome
    obtain ⟨keyword, hkeyword⟩ := Option.ne_none_iff_exists'.mp hsome
    rw [kindAt_of_keyword hkeyword] at hkind
    exact hne (Option.some.inj hkind).symm
  -- What is behind the word is told by the next token behind blanks.
  have hword : ∀ {e : Cursor} {word : Text} {us : List Token}, e.rest = ⟨.identifier, word⟩ :: us →
      e.keyword? = if ((e.advance 1).skipBlanks.kindAt 0).any Token.Kind.deniesDirective then none
        else Keyword.ofText? word := by
    intro e word us hrest
    have hbehind : (e.advance 1).skipBlanks.rest = us.dropWhile fun u => u.kind.isBlank := by
      rw [Cursor.skipBlanks, rest_skipWhile]
      exact congrArg (fun l => (List.drop 1 l).dropWhile _) hrest
    rw [Abreast.keyword?_cons hrest, Cursor.kindAt, hbehind, ← List.head?_eq_getElem?, Option.any_map]
  cases hrest : c.rest with
  | nil =>
    unfold Cursor.keyword?
    rw [hrest, h.rest_eq_nil_iff.mpr hrest]
  | cons u us =>
    have hkind := kindAt_of_rest hrest
    by_cases hidentifier : u.kind = .identifier
    · have hne : c.kindAt 0 ≠ some .newline := by
        rw [hkind, hidentifier]
        decide
      have hhead := h.head?_eq hne
      rw [hrest, List.head?_cons] at hhead
      obtain ⟨us', hrest'⟩ := List.head?_eq_some_iff.mp hhead
      obtain ⟨kind, word⟩ := u
      cases hidentifier
      rw [hword hrest, hword hrest', (h.advance_of_ne hne).skipBlanks.2]
    · rw [hnone hkind hidentifier]
      rcases h.kindAt_or with heq | hfaces
      · exact hnone (heq.trans hkind) hidentifier
      · obtain ⟨kind, hkind', hblank | ⟨hspaced, -⟩⟩ := hfaces.kindAt_spaced
        · refine hnone hkind' ?_
          rintro rfl
          cases hblank
        · have hnewline : c'.kindAt 0 = some .newline := by
            rw [kindAt_of_rest (hfaces.rest'.trans hspaced), k.kind_eq]
          exact hnone hnewline (by decide)

/-- **What a directive comes to in both texts.** The same token is next, unless it leaves the line
break or frays. -/
inductive DirectiveEnds (k : Padding t) (d d' : Cursor) : Prop
  | beside (hbeside : k.Beside d d') (hnext : d'.kindAt 0 = d.kindAt 0)
  | leaves (hbeside : k.Beside d d') (hfaces : k.Faces d d')
      (hleaves : ∃ s ∈ d.statements, k.Leaves d.comments s)
  | frays (hnear : k.Near d d') (hfrays : ∃ s ∈ d.statements, k.Frays s)

theorem DirectiveEnds.near {d' : Cursor} (h : k.DirectiveEnds d d') : k.Near d d' := by
  cases h with
  | beside hbeside | leaves hbeside => exact hbeside.near
  | frays hnear => exact hnear

/-- The arguments of a directive are the same. -/
theorem Beside.directiveArguments (h : k.Beside c c') (hc : StandsIn t c) (keyword : Keyword)
    (hd : k.Clear (c.directiveArguments keyword).2)
    (hspares : keyword = .define → c.read ≤ k.position →
      (c.directiveArguments keyword).2.read ≤ k.position) :
    (c'.directiveArguments keyword).1.mapPos forget =
      (c.directiveArguments keyword).1.mapPos forget ∧
    (k.Beside (c.directiveArguments keyword).2 (c'.directiveArguments keyword).2 ∧
      ((c'.directiveArguments keyword).2.kindAt 0 = (c.directiveArguments keyword).2.kindAt 0 ∨
        keyword.isBare = true ∨
        ∃ q ∈ (c.directiveArguments keyword).2.comments,
          q.2.stop = (c.directiveArguments keyword).2.read) ∨
    keyword = .define ∧ k.Near (c.directiveArguments keyword).2 (c'.directiveArguments keyword).2 ∧
      k.returns ≤ (c.directiveArguments keyword).2.read ∧
      (c.directiveArguments keyword).2.read < k.position) := by
  cases keyword with
  | define =>
    obtain ⟨hforget, hends⟩ := h.defineArguments hc hd.faults (hspares rfl)
    exact ⟨hforget, hends.imp (And.imp_right .inl) fun hnear => ⟨rfl, hnear⟩⟩
  | elseBranch | endIf | endDefine =>
    exact ⟨Phrase.mapPos_forget_iff.mpr rfl, .inl ⟨h, .inr (.inl rfl)⟩⟩
  | includeFile | includeOptional | includeSilent | ifEq | ifNotEq | ifDefined | ifNotDefined =>
    obtain ⟨body', behind', hread, hreach⟩ :=
      (reads_phrase .line c.skipBlanks).beside h.skipBlanks.1 (hc.advance _) hd
    unfold Cursor.directiveArguments
    dsimp only
    rw [hread.phrase_eq]
    exact ⟨hreach.body.trimEnd _ _,
      .inl ⟨hreach.beside, hreach.next.imp_right fun hcomment => .inr hcomment.2⟩⟩

/-- **A directive in both texts.** -/
theorem Beside.directive (h : k.Beside c c') (hc : StandsIn t c) {keyword : Keyword}
    (hkeyword : c.keyword? = some keyword) (hd : k.Clear (c.directive keyword)) :
    k.DirectiveEnds (c.directive keyword) (c'.directive keyword) := by
  have hkind := kindAt_of_keyword hkeyword
  have hne : c.kindAt 0 ≠ some .newline := by
    rw [hkind]
    nofun
  have hkind' := (h.rests.kindAt_eq hne).trans hkind
  obtain ⟨arguments, behind, harguments⟩ : ∃ arguments behind,
      (c.advance 1).directiveArguments keyword = (arguments, behind) := ⟨_, _, rfl⟩
  have hdirective : c.directive keyword = behind.record (.directive ⟨keyword, arguments⟩) c.read := by
    rw [← offset_of_kindAt hkind, Cursor.directive, harguments]
  have hahead : Ahead (c.advance 1) behind := by
    have hbehind := ahead_directiveArguments keyword (c.advance 1)
    rwa [harguments] at hbehind
  have hread : c.read ≤ (c.advance 1).read := Nat.le_add_right _ _
  have hspan : behind.spanFrom c.read = ⟨c.read, behind.read⟩ := by
    rw [Cursor.spanFrom, Nat.max_eq_left (Nat.le_trans hread hahead.read)]
  have hmem : (Content.directive ⟨keyword, arguments⟩, (⟨c.read, behind.read⟩ : Span)) ∈
      (c.directive keyword).statements := by
    rw [hdirective, ← hspan]
    exact List.mem_append_right _ (List.mem_singleton_self _)
  obtain ⟨hforget, hends⟩ := (h.advance_of_ne hne).directiveArguments (hc.advance 1) keyword
    (by
      rw [harguments]
      rw [hdirective] at hd
      exact hd.mono hd.faults (List.subset_append_left _ _) (List.Subset.refl _))
    fun hdefine hle => by
      have hspares := (hd.statements _ hmem).definition (by rw [hdefine]; rfl)
      rw [harguments]
      exact Nat.not_lt.mp fun hlt => hspares ⟨Nat.le_trans hread hle, hlt⟩
  rw [harguments] at hforget hends
  obtain ⟨arguments', behind', harguments'⟩ : ∃ arguments' behind',
      (c'.advance 1).directiveArguments keyword = (arguments', behind') := ⟨_, _, rfl⟩
  rw [harguments'] at hforget hends
  have hdirective' : c'.directive keyword =
      behind'.record (.directive ⟨keyword, arguments'⟩) c'.read := by
    rw [← offset_of_kindAt hkind', Cursor.directive, harguments']
  have hcontent : (Content.directive ⟨keyword, arguments'⟩).mapPos forget =
      (Content.directive ⟨keyword, arguments⟩).mapPos forget :=
    congrArg (fun a => Content.directive ⟨keyword, a⟩) hforget
  have hstart : c'.read = k.place c.read := h.rests.read_eq hc.formed hne
  rw [hdirective] at hmem
  rw [hdirective, hdirective']
  rcases hends with ⟨hbeside, hnext⟩ | ⟨rfl, hnear, hreturns, hlt⟩
  · have hrecord := hbeside.record hcontent hstart
    rcases hbeside.rests.kindAt_or with heq | hfaces
    · exact .beside hrecord heq
    · rcases hnext with heq | hleaves
      · exact .beside hrecord heq
      · exact .leaves hrecord ⟨hfaces.rest, hfaces.rest', hfaces.read, hfaces.read'⟩
          ⟨_, hmem, rfl, hfaces.read, hfaces.read ▸ hleaves⟩
  · exact .frays (hnear.record hcontent hstart) ⟨_, hmem, rfl, hreturns, hlt⟩

/-! ## Assignments -/

/-- In front of an assignment, and behind its value, there was room for blanks as well. -/
theorem Clear.of_assignment {op : AssignOp} {target : Option Phrase} {name : Phrase}
    (h : k.Clear (c.assignment op target name)) (hc : StandsIn t c) :
    k.Clear ((c.advance 1).phrase .line).2 ∧ k.Clear c := by
  have hvalue : k.Clear ((c.advance 1).phrase .line).2 := by
    rw [Abreast.assignment_eq] at h
    split at h
    · exact absurd h.faults (faults_report_ne_nil _ _ _)
    · exact h.mono h.faults (List.subset_append_left _ _) (List.Subset.refl _)
  obtain ⟨cs, hfinds⟩ := finds_phrase .line (hc.advance 1)
  exact ⟨hvalue, (hvalue.of_finds hfinds).of_finds (finds_advance hc 1)⟩

/-- **An assignment in both texts.** -/
theorem Beside.assignment (h : k.Beside c c') (hc : StandsIn t c)
    (hequals : c.kindAt 0 = some .equals) (op : AssignOp) {target target' : Option Phrase}
    {name name' : Phrase}
    (htarget : target'.map (Phrase.mapPos forget) = target.map (Phrase.mapPos forget))
    (hname : name'.mapPos forget = name.mapPos forget)
    (hstart : Abreast.startOf target' name' = k.place (Abreast.startOf target name))
    (hd : k.Clear (c.assignment op target name)) :
    k.Beside (c.assignment op target name) (c'.assignment op target' name') := by
  obtain ⟨body', behind', hread, hreach⟩ := (reads_phrase .line (c.advance 1)).beside
    (h.advance_of_ne (by rw [hequals]; nofun)) (hc.advance 1) (hd.of_assignment hc).1
  obtain ⟨hmark, hmarked, hempty⟩ := op.takeMark_forget hname
  rw [Abreast.assignment_eq] at hd
  rw [Abreast.assignment_eq, Abreast.assignment_eq, hread.phrase_eq, hempty]
  split at hd
  · exact absurd hd.faults (faults_report_ne_nil _ _ _)
  · next hne =>
    rw [if_neg hne, if_neg hne]
    refine hreach.beside.record ?_ hstart
    have hvalue := hreach.body.trim (c.advance 1).offset (c'.advance 1).offset
    rw [Content.mapPos, Content.mapPos, hmarked, hmark, hvalue, htarget]
    rfl

/-! ## Recipes -/

/-- **A line of a recipe in both texts**, behind line breaks and a tab in front of it. -/
theorem Beside.recipeLine (h : k.Beside c c') {j : Nat}
    (hline : ¬ k.IsIn ⟨c.read, (c.advance j).recipeLine.2.read⟩) :
    k.Beside (c.advance j).recipeLine.2 (c'.advance j).recipeLine.2 ∧
      (c'.advance j).recipeLine.1 = (c.advance j).recipeLine.1 ∧
      c'.rest.take j = c.rest.take j := by
  obtain ⟨hrests, htake, hsame, hnil⟩ := h.rests.skipLine hline
  refine ⟨h.congr hrests ⟨rfl, rfl⟩ ⟨rfl, rfl⟩ ⟨rfl, rfl⟩, ?_, htake⟩
  unfold Cursor.recipeLine
  simp only [List.isEmpty_iff, hnil, hsame]

theorem breaks_of_take (htake : c'.rest.take (c.breaks + 1) = c.rest.take (c.breaks + 1)) :
    c'.breaks = c.breaks ∧ c'.kindAt c'.breaks = c.kindAt c.breaks := by
  have hbreaks : c'.breaks = c.breaks :=
    congrArg List.length (takeWhile_eq_of_take htake (Nat.lt_add_one _))
  refine ⟨hbreaks, ?_⟩
  unfold Cursor.kindAt
  rw [hbreaks, ← List.getElem?_take_of_lt (Nat.lt_add_one _), htake,
    List.getElem?_take_of_lt (Nat.lt_add_one _)]

/-- Blanks behind nothing but line breaks are a line of a recipe if a tab is in front of them, and
the line break of the padded text ends that line. -/
theorem isInPadded_of_breaks {us vs : List Token} {v : Token}
    (hall : ∀ u ∈ us, (u.kind == .newline) = true) (hrest' : c'.rest = us ++ k.spaced)
    (hread : c'.read + byteSize (textOf us) = k.position) (hblanks : Token.lex k.blanks = v :: vs) :
    k.IsInPadded ⟨c'.read, (c'.advance (c'.breaks + 1)).recipeLine.2.read⟩ := by
  have hnewline : ∀ u ∈ v :: vs, (u.kind != .newline) = true := fun u hu => by
    have hblank := Token.isBlank_of_mem_lex k.isBlank u (hblanks ▸ hu)
    cases hk : u.kind <;> rw [hk] at hblank <;> first | rfl | cases hblank
  have hbreaks : c'.breaks = us.length := by
    have hv := hnewline v List.mem_cons_self
    unfold Cursor.breaks
    rw [hrest', spaced, hblanks, List.takeWhile_append_of_pos hall, List.cons_append,
      List.takeWhile_cons_of_neg (by simpa using hv), List.append_nil]
  have hbehind : (c'.advance (c'.breaks + 1)).rest = vs ++ k.rest := by
    unfold Cursor.advance
    dsimp only
    rw [hrest', spaced, hblanks, hbreaks, List.drop_append]
    simp
  have hline : (c'.advance (c'.breaks + 1)).line = vs := by
    unfold Cursor.line
    rw [hbehind, List.takeWhile_append_of_pos fun u hu => hnewline u (List.mem_cons_of_mem _ hu),
      Padding.rest, List.takeWhile_cons_of_neg (by simp [k.kind_eq]), List.append_nil]
  have hwhole : (c'.advance (c'.breaks + 1)).recipeLine.2 =
      (c'.advance (c'.breaks + 1)).advance (vs.length + 1) := by
    rw [← advance_advance (c'.advance (c'.breaks + 1)), ← hline]
    rfl
  -- What is left behind the line tells how much was read.
  have hlast : ((c'.advance (c'.breaks + 1)).advance (vs.length + 1)).rest = k.behind := by
    refine (congrArg (List.drop (vs.length + 1)) hbehind).trans ?_
    rw [← List.drop_drop, List.drop_left]
    rfl
  have hbytes := read_advance c' (c'.breaks + 1 + (vs.length + 1))
  rw [← advance_advance, hlast, hrest', spaced, Token.byteSize_textOf_append,
    Token.byteSize_textOf_append, Token.textOf_lex, Padding.rest] at hbytes
  have hcons : byteSize (textOf (k.newline :: k.behind)) =
      byteSize k.newline.text + byteSize (textOf k.behind) := by
    rw [textOf, List.flatMap_cons, Text.byteSize_append]
    rfl
  have hpos := k.byteSize_newline_pos
  unfold IsInPadded size
  dsimp only
  rw [hwhole]
  omega

/-- The blanks are no line of a recipe, unless the line break of the padded text is in one. -/
theorem Rests.kindAt_breaks (h : k.Rests c c')
    (hlines' : ∀ line, RecipeLine c' line → ¬ k.IsInPadded line)
    (htab' : c'.kindAt c'.breaks = some .tab) : c.kindAt c.breaks = some .tab := by
  have heq : c'.rest = c.rest → c.kindAt c.breaks = some .tab := fun hrest => by
    unfold Cursor.kindAt Cursor.breaks at htab' ⊢
    rwa [hrest] at htab'
  cases h with
  | behind hrest => exact heq hrest
  | @before us hrest hrest' hread hread' =>
    by_cases hall : ∀ u ∈ us, (u.kind == .newline) = true
    · -- Only line breaks are in front of the blanks.
      cases hblanks : Token.lex k.blanks with
      | nil =>
        rw [spaced, hblanks, List.nil_append, ← hrest] at hrest'
        exact heq hrest'
      | cons v vs =>
        exact absurd (isInPadded_of_breaks hall hrest' (hread' ▸ hread) hblanks)
          (hlines' _ (.here htab'))
    · -- The next token behind the line breaks is the same.
      have hlt : (us.takeWhile fun u => u.kind == .newline).length < us.length := by
        refine Nat.lt_of_le_of_ne (List.takeWhile_prefix _).length_le fun heq => hall ?_
        exact List.takeWhile_eq_self_iff.mp ((List.takeWhile_prefix _).eq_of_length heq)
      have hbreaks : c.breaks = (us.takeWhile fun u => u.kind == .newline).length := by
        unfold Cursor.breaks
        rw [hrest, List.takeWhile_append, if_neg (Nat.ne_of_lt hlt)]
      obtain ⟨-, hkind⟩ := @breaks_of_take c c' (by
        rw [hrest, hrest', hbreaks, List.take_append_of_le_length hlt,
          List.take_append_of_le_length hlt])
      rw [← hkind, htab']

/-- In front of the blanks, where the same is not next, a recipe stops that ends with the line
break. -/
theorem Faces.stops {lines : Text} (h : k.Faces c c') (hc : k.Beside c c')
    (hne : c'.kindAt 0 ≠ c.kindAt 0) (hstands : StandsIn t c)
    (hrecipe : ReadsRecipe c.skipBreak lines d) (hread : d.read ≤ k.breakEnd)
    (hlines' : ∀ line, RecipeLine c'.skipBreak line → ¬ k.IsInPadded line) :
    ReadsRecipe c'.skipBreak lines c' ∧ k.Near d c' := by
  have hskip : c.skipBreak = c.advance 1 := if_pos h.kindAt
  have hskip' : c'.skipBreak = c' := if_neg fun hnewline => hne (hnewline.trans h.kindAt.symm)
  rw [hskip] at hrecipe
  rw [hskip'] at hlines' ⊢
  have hbreak : (c.advance 1).read = k.breakEnd := by
    unfold Cursor.advance
    rw [h.rest, h.read]
    simp [Padding.rest, textOf, breakEnd]
  obtain ⟨rfl, rfl, htab⟩ := hrecipe.stops (hstands.advance 1) (hbreak ▸ hread)
  refine ⟨.stop (mt (hc.rests.kindAt_breaks hlines') ?_) ?_, ?_⟩
  · have hbreaks : c.breaks = 1 + (c.advance 1).breaks := by
      unfold Cursor.breaks Cursor.advance
      rw [h.rest]
      simp [Padding.rest, k.kind_eq, Nat.add_comm]
    rwa [hbreaks, ← kindAt_advance]
  · rw [hc.rests.keyword?]
    by_contra hsome
    obtain ⟨keyword, hkeyword⟩ := Option.ne_none_iff_exists'.mp hsome
    cases (kindAt_of_keyword hkeyword).symm.trans h.kindAt
  · have hover : (c.advance 1).skipSpace = c.skipSpace := by
      refine skipWhile_advance ?_ ?_
      · rw [h.rest]
        exact Nat.succ_le_succ (Nat.zero_le _)
      · rw [h.rest]
        simp [Padding.rest, k.kind_eq]
    unfold Near
    rw [hover]
    exact hc.near

end Padding

/-- **The lines of a recipe are read side by side**, with the directives between them. -/
theorem Cursor.ReadsRecipe.beside {t : Text} {k : Padding t} {c c' d : Cursor} {lines : Text}
    (h : ReadsRecipe c lines d) (hc : k.Beside c c') (hstands : StandsIn t c) (hd : k.Clear d)
    (hlines : ∀ line, RecipeLine c line → ¬ k.IsIn line)
    (hlines' : ∀ line, RecipeLine c' line → ¬ k.IsInPadded line)
    (hleaves : ∀ s ∈ d.statements, k.Leaves d.comments s → d.read ≤ k.breakEnd)
    (hfrays : ∀ s ∈ d.statements, ¬ k.Frays s) :
    ∃ d', ReadsRecipe c' lines d' ∧ k.Near d d' := by
  induction h generalizing c' with
  | @line c d lines htab hrest ih =>
    obtain ⟨hbeside, htext, htake⟩ := hc.recipeLine (hlines _ (.here htab))
    obtain ⟨hbreaks, hkind⟩ := Padding.breaks_of_take htake
    have hbehind := @RecipeLine.behindLine c'
    have hstep := @ReadsRecipe.line c'
    rw [hbreaks] at hkind hbehind hstep
    rw [hkind] at hbehind hstep
    obtain ⟨d', hread, hdone⟩ := ih hbeside (finds_recipeLine (hstands.advance _)).stands hd
      (fun line hline => hlines line (.behindLine htab hline))
      (fun line hline => hlines' line (hbehind htab hline)) hleaves hfrays
    exact ⟨d', htext ▸ hstep htab hread, hdone⟩
  | @directive c d lines keyword htab hkeyword hrest ih =>
    have hkeyword' : c'.keyword? = some keyword := hc.rests.keyword?.trans hkeyword
    have htab' : c'.kindAt c'.breaks ≠ some .tab := by
      obtain ⟨us, hcons⟩ := exists_of_keyword hkeyword'
      have hnone : c'.breaks = 0 := by
        unfold Cursor.breaks
        rw [hcons]
        rfl
      rw [hnone, kindAt_of_keyword hkeyword']
      nofun
    obtain ⟨arguments, cs, hdirective⟩ := finds_directive hstands hkeyword
    have hskip := finds_skipBreak hdirective.stands
    obtain ⟨ss, cs', hfinds, -⟩ := hrest.finds hskip.stands
    have hall := hskip.trans hfinds
    have hfound : (c.directive keyword).statements ⊆ d.statements :=
      hall.statements ▸ List.subset_append_left _ _
    -- The rest of the recipe, if the same token is next.
    have hnext (hbeside : k.Beside (c.directive keyword) (c'.directive keyword))
        (heq : (c'.directive keyword).kindAt 0 = (c.directive keyword).kindAt 0) :
        ∃ d', ReadsRecipe c' lines d' ∧ k.Near d d' := by
      have hbehind : k.Beside (c.directive keyword).skipBreak (c'.directive keyword).skipBreak := by
        unfold Cursor.skipBreak
        rw [heq]
        split
        · exact hbeside.advance_one heq
        · exact hbeside
      obtain ⟨d', hread, hdone⟩ := ih hbehind hskip.stands hd
        (fun line hline => hlines line (.behindDirective htab hkeyword hline))
        (fun line hline => hlines' line (.behindDirective htab' hkeyword' hline)) hleaves hfrays
      exact ⟨d', .directive htab' hkeyword' hread, hdone⟩
    cases hc.directive hstands hkeyword (hd.of_finds hall) with
    | beside hbeside heq => exact hnext hbeside heq
    | leaves hbeside hfaces hleft =>
      -- The recipe ends behind the line break, and in the padded text in front of the blanks.
      obtain ⟨s, hs, hleft⟩ := hleft
      by_cases heq : (c'.directive keyword).kindAt 0 = (c.directive keyword).kindAt 0
      · exact hnext hbeside heq
      have hend := hleaves s (hfound hs) (hleft.mono (hall.comments ▸ List.subset_append_left _ _))
      obtain ⟨hstop, hnear⟩ := hfaces.stops hbeside heq hdirective.stands hrest hend
        fun line hline => hlines' line (.behindDirective htab' hkeyword' hline)
      exact ⟨_, .directive htab' hkeyword' hstop, hnear⟩
    | frays hnear hfrayed =>
      obtain ⟨s, hs, hfrayed⟩ := hfrayed
      exact absurd hfrayed (hfrays s (hfound hs))
  | @stop c htab hkeyword =>
    exact ⟨c', .stop (mt (hc.rests.kindAt_breaks hlines') htab) (hc.rests.keyword?.trans hkeyword),
      hc.near⟩

namespace Padding

variable {t : Text} {k : Padding t} {c c' d mid mid' next : Cursor}

/-- In front of a recipe there was room for blanks as well. -/
theorem Clear.of_recipe {target prerequisites : Phrase} {firstLine : Bool}
    (h : k.Clear (c.recipe target prerequisites firstLine)) (hc : StandsIn t c) : k.Clear c := by
  obtain ⟨lines, d, hlines, heq⟩ := exists_recipe target prerequisites firstLine c
  have hstart := finds_recipeStart firstLine hc
  obtain ⟨ss, cs, hfinds, -⟩ := hlines.finds (hstart.stands.congr rfl rfl rfl)
  rw [heq] at h
  refine h.mono ((ahead_recipe target prerequisites firstLine c).faults_nil (heq ▸ h.faults)) ?_ ?_
  · refine List.subset_append_of_subset_left _ ?_
    rw [hstart.statements]
    exact List.subset_append_left _ _
  · refine List.Subset.trans ?_ (hfinds.comments ▸ List.subset_append_left _ _)
    change _ ⊆ (recipeStart firstLine c).2.comments
    rw [hstart.comments]
    exact List.subset_append_left _ _

/-- **A rule with its recipe in both texts.** -/
theorem Beside.recipe {target target' prerequisites prerequisites' : Phrase} {firstLine : Bool}
    (hstart : k.Beside (recipeStart firstLine c).2 (recipeStart firstLine c').2)
    (htext : (recipeStart firstLine c').1 = (recipeStart firstLine c).1) (hc : StandsIn t c)
    (htarget : target'.mapPos forget = target.mapPos forget)
    (hprerequisites : prerequisites'.mapPos forget = prerequisites.mapPos forget)
    (hpos : target'.pos = k.place target.pos) (hle : target.pos ≤ c.read)
    (hd : k.Clear (c.recipe target prerequisites firstLine))
    (hlines : ∀ line, RecipeLine { (recipeStart firstLine c).2 with statements := [] } line →
      ¬ k.IsIn line)
    (hlines' : ∀ line, RecipeLine { (recipeStart firstLine c').2 with statements := [] } line →
      ¬ k.IsInPadded line) :
    k.Near (c.recipe target prerequisites firstLine)
      (c'.recipe target' prerequisites' firstLine) := by
  obtain ⟨lines, d, hrecipe, heq⟩ := exists_recipe target prerequisites firstLine c
  have hstands := finds_recipeStart firstLine hc
  rw [heq] at hd ⊢
  have hempty : k.Beside { (recipeStart firstLine c).2 with statements := [] }
      { (recipeStart firstLine c').2 with statements := [] } :=
    ⟨hstart.rests.congr rfl rfl rfl rfl, .nil, hstart.comments, hstart.faults⟩
  obtain ⟨ss, cs, hfinds, -⟩ := hrecipe.finds (hstands.stands.congr rfl rfl rfl)
  have hinside : d.statements ⊆ (behindRule (recipeStart firstLine c).2.statements
      ⟨target, prerequisites, recipeText (recipeStart firstLine c).1 lines⟩ d).statements :=
    fun s hs => List.mem_append_right _ (List.mem_cons_of_mem _ hs)
  have hrule := List.mem_append_right (recipeStart firstLine c).2.statements
    (@List.mem_cons_self _ (Content.rule ⟨target, prerequisites,
      recipeText (recipeStart firstLine c).1 lines⟩, d.spanFrom target.pos) d.statements)
  -- The rule is around its directives.
  have hlaid : ∀ s ∈ d.statements, target.pos ≤ s.2.start ∧ s.2.start < s.2.stop ∧
      s.2.stop ≤ (d.spanFrom target.pos).stop := by
    intro s hs
    have hfound : d.statements = ss := hfinds.statements
    have hlaid := hfinds.laid.inside s (List.mem_append_left _ (hfound ▸ hs))
    have hread := hstands.ahead.read
    unfold Cursor.spanFrom
    dsimp only at hlaid ⊢
    omega
  have hleaves : ∀ s ∈ d.statements, k.Leaves d.comments s → d.read ≤ k.breakEnd := by
    intro s hs hleft
    have hinside := hlaid s hs
    have hend := hd.leaves s (List.mem_append_right _ (List.mem_cons_of_mem _ hs)) hleft _ hrule rfl
      (by have hstop := hleft.stop; dsimp only [Cursor.spanFrom]; omega)
    exact Nat.le_trans (Nat.le_max_left _ _) hend
  have hfrays : ∀ s ∈ d.statements, ¬ k.Frays s := fun s hs hfrayed =>
    hd.frays s (List.mem_append_right _ (List.mem_cons_of_mem _ hs)) hfrayed _ hrule rfl
      ⟨(hlaid s hs).1, (hlaid s hs).2.2⟩
  obtain ⟨d', hrecipe', hdone⟩ := hrecipe.beside hempty (hstands.stands.congr rfl rfl rfl)
    (hd.mono hd.faults hinside (List.Subset.refl _)) hlines hlines' hleaves hfrays
  rw [hrecipe'.recipe_eq]
  refine ⟨hdone.rests.congr rfl rfl rfl rfl, ?_, hdone.comments, hdone.faults⟩
  refine List.rel_append hstart.statements (.cons ⟨?_, hpos⟩ hdone.statements)
  dsimp only
  rw [Content.mapPos, Content.mapPos, htarget, hprerequisites, htext]

/-! ## Rules -/

/-- **A recipe opens in both texts alike.** -/
theorem Beside.opensRecipe {firstLine : Bool} (h : k.Beside mid mid')
    (hkind : mid'.kindAt 0 = mid.kindAt 0) (hmid : StandsIn t mid)
    (hopens : OpensRecipe mid firstLine next) (hnext : k.Clear next)
    (hfirst : firstLine = true → ¬ k.IsIn ⟨mid.read, next.recipeLine.2.read⟩) :
    ∃ next', OpensRecipe mid' firstLine next' ∧
      k.Beside (recipeStart firstLine next).2 (recipeStart firstLine next').2 ∧
      (recipeStart firstLine next').1 = (recipeStart firstLine next).1 := by
  cases hopens with
  | semicolon hsemicolon =>
    obtain ⟨hskip, -⟩ := (h.advance_of_ne (by rw [hsemicolon]; nofun)).skipBlanks
    have hread : mid.read ≤ (mid.advance 1).skipBlanks.read :=
      Nat.le_trans (Nat.le_add_right _ _) (Nat.le_add_right _ _)
    obtain ⟨hline, htext, -⟩ := @Beside.recipeLine t k _ _ hskip 0 fun hin =>
      hfirst rfl ⟨Nat.le_trans hread hin.1, hin.2⟩
    exact ⟨_, .semicolon (hkind.trans hsemicolon), hline, htext⟩
  | newline hnewline => exact ⟨_, .newline (hkind.trans hnewline), h.advance_one hkind, rfl⟩
  | comment hhash =>
    obtain ⟨text, hfinds⟩ := finds_comment hmid hhash
    have hmem := hfinds.comments ▸ List.mem_append_right _ (List.mem_singleton_self _)
    exact ⟨_, .comment (hkind.trans hhash), h.comment hmid hhash (hnext.comments _ hmem), rfl⟩
  | nothing hnone =>
    obtain ⟨hline, htext, -⟩ := @Beside.recipeLine t k _ _ h 0 (hfirst rfl)
    exact ⟨_, .nothing (hkind.trans hnone), hline, htext⟩
  | unexpected => exact absurd hnext.faults (faults_report_ne_nil _ _ _)

/-- **A rule, or an assignment to a target, in both texts.** -/
theorem Beside.rule (h : k.Beside c c') {target target' : Phrase}
    (htarget : target'.mapPos forget = target.mapPos forget)
    (hpos : target'.pos = k.place target.pos) (hle : target.pos ≤ c.read) (hc : StandsIn t c)
    (hd : k.Clear (c.rule target)) (hlines : ∀ line, RuleLine c line → ¬ k.IsIn line)
    (hlines' : ∀ line, RuleLine c' line → ¬ k.IsInPadded line) :
    k.Near (c.rule target) (c'.rule target') := by
  obtain ⟨hskip, -⟩ := h.skipBlanks
  have hstands : StandsIn t c.skipBlanks := hc.advance _
  have htrimmed := Phrase.trimEnd_forget htarget
  have hsome : (some target'.trimEnd).map (Phrase.mapPos forget) =
      (some target.trimEnd).map (Phrase.mapPos forget) := congrArg some htrimmed
  have hrule := readsRule_rule target c
  generalize c.rule target = d at hrule hd
  cases hrule with
  | assignment hbody hequals =>
    obtain ⟨cs, hfinds⟩ := hbody.finds hstands
    obtain ⟨body', mid', hread, hreach⟩ :=
      hbody.beside hskip hstands (hd.of_assignment hfinds.stands).2
    have hequals' := (hreach.kindAt rfl).trans hequals
    rw [(ReadsRule.assignment hread hequals').eq_rule]
    exact (hreach.beside.assignment hfinds.stands hequals .recursive hsome
      (hreach.body.trimEnd _ _) hpos hd).near
  | simple hbody hcolon =>
    obtain ⟨cs, hfinds⟩ := hbody.finds hstands
    have hstandsNext := hfinds.stands.advance 1
    have hclear := (hd.of_assignment hstandsNext).2
    obtain ⟨body', mid', hread, hreach⟩ :=
      hbody.beside hskip hstands (hclear.of_finds (finds_advance hfinds.stands 1))
    have hcolon' := (hreach.kindAt rfl).trans hcolon
    have hequals := hbody.kindAt_one hcolon
    rw [(ReadsRule.simple hread hcolon').eq_rule]
    exact ((hreach.beside.advance_of_ne (by rw [hcolon]; nofun)).assignment hstandsNext
      ((kindAt_advance _ 1 0).trans hequals) .simple hsome (hreach.body.trimEnd _ _) hpos hd).near
  | recipe hbody hopens =>
    obtain ⟨cs, hfinds⟩ := hbody.finds hstands
    obtain ⟨cs', hfinds'⟩ := hopens.finds hfinds.stands
    have hnext := hd.of_recipe hfinds'.stands
    obtain ⟨body', mid', hread, hreach⟩ := hbody.beside hskip hstands (hnext.of_finds hfinds')
    obtain ⟨next', hopens', hstart, htext⟩ := hreach.beside.opensRecipe (hreach.kindAt rfl)
      hfinds.stands hopens hnext fun hfirst => by
        subst hfirst
        exact hlines _ (.first hbody hopens)
    have hahead : c.read ≤ _ :=
      (((ahead_skipWhile _ c).trans hbody.ahead).trans hopens.ahead).read
    rw [(ReadsRule.recipe hread hopens').eq_rule]
    exact recipe hstart htext hfinds'.stands htrimmed (hreach.body.trimEnd _ _) hpos
      (Nat.le_trans hle hahead) hd (fun line hline => hlines line (.later hbody hopens hline))
      fun line hline => hlines' line (.later hread hopens' hline)

/-- In front of a rule there was room for blanks as well. -/
theorem Clear.of_rule {target : Phrase} (h : k.Clear (c.rule target)) (hc : StandsIn t c) :
    k.Clear c := by
  have hskip : Finds t c c.skipBlanks [] [] := finds_advance hc _
  suffices hstart : k.Clear c.skipBlanks from hstart.of_finds hskip
  have hrule := readsRule_rule target c
  generalize c.rule target = d at hrule h
  cases hrule with
  | assignment hbody hnext =>
    obtain ⟨cs, hfinds⟩ := hbody.finds hskip.stands
    exact (h.of_assignment hfinds.stands).2.of_finds hfinds
  | simple hbody hnext =>
    obtain ⟨cs, hfinds⟩ := hbody.finds hskip.stands
    have hcolon := hfinds.trans (finds_advance hfinds.stands 1)
    exact (h.of_assignment hcolon.stands).2.of_finds hcolon
  | recipe hbody hopens =>
    obtain ⟨cs, hfinds⟩ := hbody.finds hskip.stands
    obtain ⟨cs', hfinds'⟩ := hopens.finds hfinds.stands
    exact (h.of_recipe hfinds'.stands).of_finds (hfinds.trans hfinds')

/-! ## Lines -/

/-- A token that is no line break is next in both texts. -/
theorem Beside.pass (h : k.Beside c c') {kind : Token.Kind} (hkind : c.kindAt 0 = some kind)
    (hne : kind ≠ .newline) :
    c'.kindAt 0 = some kind ∧ k.Beside (c.advance 1) (c'.advance 1) := by
  have hnext : c.kindAt 0 ≠ some .newline := fun heq => hne (Option.some.inj (hkind.symm.trans heq))
  exact ⟨(h.rests.kindAt_eq hnext).trans hkind, h.advance_of_ne hnext⟩

/-- Two tokens that are no line breaks are next in both texts. -/
theorem Beside.pass_two (h : k.Beside c c') {first second : Token.Kind}
    (hfirst : c.kindAt 0 = some first) (hsecond : c.kindAt 1 = some second)
    (hne : first ≠ .newline) (hne' : second ≠ .newline) :
    c'.kindAt 0 = some first ∧ c'.kindAt 1 = some second ∧
      k.Beside (c.advance 2) (c'.advance 2) := by
  obtain ⟨hfirst', hnext⟩ := h.pass hfirst hne
  obtain ⟨hsecond', hbehind⟩ := hnext.pass ((kindAt_advance c 1 0).trans hsecond) hne'
  rw [advance_advance, advance_advance] at hbehind
  exact ⟨hfirst', (kindAt_advance c' 1 0).symm.trans hsecond', hbehind⟩

theorem Beside.operator (h : k.Beside c c') {op : AssignOp} (hop : ReadsOperator c op d) :
    ∃ d', ReadsOperator c' op d' ∧ k.Beside d d' := by
  cases hop with
  | recursive hequals => exact ⟨c', .recursive (h.pass hequals (by nofun)).1, h⟩
  | conditional hquestion hequals =>
    obtain ⟨hquestion', hequals', -⟩ := h.pass_two hquestion hequals (by nofun) (by nofun)
    exact ⟨_, .conditional hquestion' hequals', (h.pass hquestion (by nofun)).2⟩
  | simple hcolon hequals =>
    obtain ⟨hcolon', hequals', -⟩ := h.pass_two hcolon hequals (by nofun) (by nofun)
    exact ⟨_, .simple hcolon' hequals', (h.pass hcolon (by nofun)).2⟩
  | double hcolon hsecond hequals =>
    obtain ⟨hcolon', hsecond', hbehind⟩ := h.pass_two hcolon hsecond (by nofun) (by nofun)
    have hequals' := (hbehind.pass ((kindAt_advance c 2 0).trans hequals) (by nofun)).1
    exact ⟨_, .double hcolon' hsecond' ((kindAt_advance c' 2 0).symm.trans hequals'), hbehind⟩

theorem Beside.colons (h : k.Beside c c') (hcolons : ReadsColons c d) :
    ∃ d', ReadsColons c' d' ∧ k.Beside d d' := by
  cases hcolons with
  | single hcolon hequals hsecond =>
    obtain ⟨hcolon', hbehind⟩ := h.pass hcolon (by nofun)
    have hiff := @Rests.kindAt_one_iff t k c c' h.rests (by rw [hcolon]; nofun)
    exact ⟨_, .single hcolon' (mt (hiff (by nofun) rfl).mp hequals)
      (mt (hiff (by nofun) rfl).mp hsecond), hbehind⟩
  | double hcolon hsecond hequals =>
    obtain ⟨hcolon', hsecond', hbehind⟩ := h.pass_two hcolon hsecond (by nofun) (by nofun)
    have hiff := @Rests.kindAt_iff t k _ _ hbehind.rests .equals (by nofun) rfl
    rw [kindAt_advance, kindAt_advance] at hiff
    exact ⟨_, .double hcolon' hsecond' (mt hiff.mp hequals), hbehind⟩

theorem Beside.endLine (h : k.Beside c c') (hkind : c'.kindAt 0 = c.kindAt 0) (hc : StandsIn t c)
    (hd : k.Clear c.endLine) : k.Beside c.endLine c'.endLine := by
  unfold Cursor.endLine at hd ⊢
  rw [hkind]
  split at hd
  · next hhash =>
    obtain ⟨text, hfinds⟩ := finds_comment hc hhash
    have hmem := hfinds.comments ▸ List.mem_append_right _ (List.mem_singleton_self _)
    rw [if_pos hhash, if_pos hhash]
    exact h.comment hc hhash (hd.comments _ hmem)
  · next hhash =>
    rw [if_neg hhash, if_neg hhash]
    exact h.advance_one hkind

/-- In front of the end of a line there was room for blanks as well. -/
theorem Clear.of_endLine (h : k.Clear c.endLine) (hc : StandsIn t c)
    (hnext : ∀ kind, c.kindAt 0 = some kind → kind = .hash ∨ kind = .newline) : k.Clear c := by
  obtain ⟨ss, cs, hfinds, -⟩ := findsAll_endLine hc hnext
  exact h.of_finds hfinds

/-- **A phrase that is all of a line** is no reference at the line break, so that the blanks are no
part of it. -/
theorem Reaches.forget_eq {head head' : Phrase.Body} (h : k.Reaches .head head head' mid mid')
    (hread : ReadsBody .head 0 c head mid) (hc : StandsIn t c)
    (hnewline : c.kindAt 0 ≠ some .newline) (hle : c.read ≤ mid.read)
    (hd : k.Clear (mid.noted ⟨c.read, head⟩)) : head'.mapPos forget = head.mapPos forget := by
  unfold Cursor.noted at hd
  cases hr : (Phrase.mk c.read head).soleReference? with
  | some r =>
    rw [hr] at hd
    have hspares : (mid.spanFrom c.read).stop ≠ k.position :=
      (hd.statements (.reference r, _) (List.mem_append_right _ (List.mem_singleton_self _))).reference
        rfl
    obtain ⟨w, hbody, rfl | ⟨-, -, hposition⟩⟩ := h.body
    · rwa [Phrase.Body.ofText, Phrase.Body.append_nil] at hbody
    · rw [Cursor.spanFrom, Nat.max_eq_left hle] at hspares
      exact absurd hposition hspares
  | none =>
    rw [hr] at hd
    dsimp only at hd
    split at hd
    · next hempty =>
      obtain rfl : head = .nil := by simpa [Phrase.isEmpty] using hempty
      rw [hread.eq_of_nil hc rfl hd.faults] at h
      exact h.body.eq_of_ne hnewline
    · exact absurd hd.faults (faults_report_ne_nil _ _ _)

/-- In front of what is noted there was room for blanks as well. -/
theorem Clear.of_noted {phrase : Phrase} (h : k.Clear (c.noted phrase)) : k.Clear c := by
  unfold Cursor.noted at h
  split at h
  · exact h.mono h.faults (List.subset_append_left _ _) (List.Subset.refl _)
  · split at h
    · exact h
    · exact absurd h.faults (faults_report_ne_nil _ _ _)

theorem Beside.noted (h : k.Beside c c') (hkind : c'.kindAt 0 = c.kindAt 0)
    {phrase phrase' : Phrase} (hbody : phrase'.mapPos forget = phrase.mapPos forget)
    (hpos : phrase'.pos = k.place phrase.pos) (hd : k.Clear (c.noted phrase)) :
    k.Beside (c.noted phrase) (c'.noted phrase') ∧
      (c'.noted phrase').kindAt 0 = (c.noted phrase).kindAt 0 := by
  have hsole : phrase'.soleReference?.map (Reference.mapPos forget) =
      phrase.soleReference?.map (Reference.mapPos forget) := by
    rw [← Phrase.soleReference?_mapPos, hbody, Phrase.soleReference?_mapPos]
  have hempty : phrase'.isEmpty = phrase.isEmpty := by
    rw [← Phrase.isEmpty_mapPos forget, hbody, Phrase.isEmpty_mapPos]
  unfold Cursor.noted at hd ⊢
  cases hr : phrase.soleReference? with
  | some r =>
    rw [hr, Option.map_some] at hsole
    obtain ⟨r', hr', hbare⟩ := Option.map_eq_some_iff.mp hsole
    rw [hr']
    exact ⟨h.record (congrArg Content.reference hbare) hpos, hkind⟩
  | none =>
    rw [hr, Option.map_none] at hsole
    rw [hr] at hd
    rw [Option.map_eq_none_iff.mp hsole]
    dsimp only at hd ⊢
    rw [hempty]
    split at hd
    · next hnil =>
      rw [if_pos hnil, if_pos hnil]
      exact ⟨h, hkind⟩
    · exact absurd hd.faults (faults_report_ne_nil _ _ _)

/-- **A statement in both texts.** -/
theorem Beside.statement (h : k.Beside c c') (hc : StandsIn t c) (hrest : c.rest ≠ [])
    (hnewline : c.kindAt 0 ≠ some .newline) (hd : k.Clear c.statement)
    (hlines : ∀ line, StatementLine c line → ¬ k.IsIn line)
    (hlines' : ∀ line, StatementLine c' line → ¬ k.IsInPadded line) :
    k.Near c.statement c'.statement := by
  obtain ⟨u, us, hcons⟩ := List.exists_cons_of_ne_nil hrest
  have hoffset : c.offset = c.read := offset_of_kindAt (kindAt_of_rest hcons)
  have hoffset' : c'.offset = k.place c.offset := by
    have hkind' := (h.rests.kindAt_eq hnewline).trans (kindAt_of_rest hcons)
    rw [hoffset, offset_of_kindAt hkind', h.rests.read_eq hc.formed hnewline]
  have hstatement := readsStatement_statement c
  generalize c.statement = d at hstatement hd
  cases hstatement with
  | directive hkeyword =>
    rw [(ReadsStatement.directive (h.rests.keyword?.trans hkeyword)).eq_statement]
    exact (h.directive hc hkeyword hd).near
  | @assignment mid next head op hkeyword hhead hop =>
    obtain ⟨cs, hfinds, -⟩ := hhead.finds hc
    have hop' : Finds t mid next [] [] := by
      cases hop with
      | recursive => exact Finds.refl hfinds.stands
      | conditional | simple => exact finds_advance hfinds.stands 1
      | double => exact finds_advance hfinds.stands 2
    have hnext := (hd.of_assignment hop'.stands).2
    have hmid := hnext.of_finds hop'
    obtain ⟨head', mid', hread, hreach⟩ := hhead.beside h hc hmid
    obtain ⟨next', hop₁, hbeside⟩ := hreach.beside.operator hop
    have hne : mid.kindAt 0 ≠ some .newline := by
      cases hop with
      | recursive hkind | conditional hkind | simple hkind | double hkind =>
        rw [hkind]
        nofun
    rw [(ReadsStatement.assignment (h.rests.keyword?.trans hkeyword) hread hop₁).eq_statement]
    refine Beside.near ?_
    exact hbeside.assignment hop'.stands hop.kindAt op rfl
      (Phrase.mapPos_forget_iff.mpr (hreach.body.eq_of_ne hne)) hoffset' hd
  | @rule mid next head hkeyword hhead hcolons =>
    obtain ⟨cs, hfinds, -⟩ := hhead.finds hc
    have hnext : Finds t mid next [] [] := by
      cases hcolons with
      | single => exact finds_advance hfinds.stands 1
      | double => exact finds_advance hfinds.stands 2
    have hmid := (hd.of_rule hnext.stands).of_finds hnext
    obtain ⟨head', mid', hread, hreach⟩ := hhead.beside h hc hmid
    obtain ⟨next', hcolons', hbeside⟩ := hreach.beside.colons hcolons
    have hne : mid.kindAt 0 ≠ some .newline := by
      cases hcolons with
      | single hkind | double hkind =>
        rw [hkind]
        nofun
    have hkeyword' := h.rests.keyword?.trans hkeyword
    rw [(ReadsStatement.rule hkeyword' hread hcolons').eq_statement]
    refine hbeside.rule (Phrase.mapPos_forget_iff.mpr (hreach.body.eq_of_ne hne)) hoffset' ?_
      hnext.stands hd (fun line hline => hlines line (.intro hkeyword hhead hcolons hline))
      fun line hline => hlines' line (.intro hkeyword' hread hcolons' hline)
    exact hoffset ▸ (hfinds.ahead.trans hcolons.ahead).read
  | @lone mid head hkeyword hhead hnext =>
    obtain ⟨ss, cs, hfinds, -⟩ := findsAll_noted hc hhead
    rw [loneLine_eq] at hd ⊢
    rw [hoffset] at hd hoffset' ⊢
    have hends : ∀ kind, (mid.noted ⟨c.read, head⟩).kindAt 0 = some kind →
        kind = .hash ∨ kind = .newline := fun kind hkind => hnext kind (kindAt_of_noted hkind)
    have hnoted : k.Clear (mid.noted ⟨c.read, head⟩) := hd.of_endLine hfinds.stands hends
    obtain ⟨head', mid', hread, hreach⟩ := hhead.beside h hc (hnoted.of_noted)
    have hkind := hreach.kindAt rfl
    have hbare := hreach.forget_eq hhead hc hnewline hhead.ahead.read hnoted
    rw [(ReadsStatement.lone (h.rests.keyword?.trans hkeyword) hread (hkind ▸ hnext)).eq_statement,
      loneLine_eq]
    obtain ⟨hbeside, hnext'⟩ := @Beside.noted t k mid mid' hreach.beside hkind ⟨c.read, head⟩
      ⟨c'.offset, head'⟩ (Phrase.mapPos_forget_iff.mpr hbare) hoffset' hnoted
    exact (hbeside.endLine hnext' hfinds.stands hd).near
  | expectedEquals => exact absurd hd.faults (faults_report_ne_nil _ _ _)
  | unexpected => exact absurd hd.faults (faults_report_ne_nil _ _ _)

end Padding

end MakeBlueprint.Makefile
