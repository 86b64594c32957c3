import MakeBlueprint.Proofs.Reading.Spans

/-!
# The spans of statements

A statement is around what is found inside it (`Within`), and statements leave out nothing but
blanks and line breaks unless there is a fault (`Covered`, `FindsAll`).

* `ReadsRecipe.finds`: a recipe finds directives and comments.
* `findsAll_statement`: one statement. `ReadsLines.findsAll`: all of them.
* `parse_spans`: the spans of the statements of a text.
-/

namespace MakeBlueprint.Makefile

open Text (byteSize IsBoundary)
open Token (textOf)

namespace Cursor

variable {source : Text} {c d mid : Cursor} {body : Phrase.Body} {place : Place} {depth : Nat}
  {ss ss' cs cs' : List (Content × Span)} {content : Content} {lo hi : Nat}

/-! ## Inside a statement -/

/-- **The inside of a statement**: a reader is behind the start of a statement, and found only
comments since. -/
structure Within (source : Text) (c d : Cursor) (cs : List (Content × Span)) : Prop where
  finds : Finds source c d [] cs
  behind : Behind c.read cs
  lt : c.read < d.read

theorem Within.trans (h : Within source c mid cs) (h' : Finds source mid d [] cs') :
    Within source c d (cs ++ cs') where
  finds := h.finds.trans h'
  behind := by
    intro s hs
    rcases List.mem_append.mp hs with hs | hs
    · exact h.behind s hs
    · exact Nat.lt_of_lt_of_le h.lt (h'.laid.inside s hs).1
  lt := Nat.lt_of_lt_of_le h.lt h'.ahead.read

/-- A token that a statement goes on with is inside the statement. -/
theorem Finds.within_advance {kind : Token.Kind} (h : Finds source c d [] cs)
    (hbehind : Behind c.read cs) (hkind : d.kindAt 0 = some kind) :
    Within source c (d.advance 1) cs where
  finds := by simpa using h.trans (finds_advance h.stands 1)
  behind := hbehind
  lt := Nat.lt_of_le_of_lt h.ahead.read (h.stands.read_lt_advance hkind)

theorem within_advance {kind : Token.Kind} (hc : StandsIn source c)
    (hkind : c.kindAt 0 = some kind) :
    Within source c (c.advance 1) [] :=
  (Finds.refl hc).within_advance nofun hkind

/-- A statement that ends here is around what was found since its start. -/
theorem Within.enclose (h : Within source c mid cs) (hc : StandsIn source c)
    (h' : Finds source mid d ss cs') (hcontent : content.isComment = false)
    (hhold : ∀ s ∈ ss, content.MayHold s.1) :
    Laid (IsBoundary source) c.read d.read ((content, ⟨c.read, d.read⟩) :: ss) (cs ++ cs') := by
  have hall := h.finds.trans h'
  rw [List.nil_append] at hall
  refine hall.laid.enclose ?_ (Nat.le_refl _) (Nat.lt_of_lt_of_le h.lt h'.ahead.read) hc.isBoundary
    hall.stands.isBoundary hcontent hhold
  intro s hs
  have hmem : s ∈ cs ∨ s ∈ ss ++ cs' := by
    simp only [List.mem_append] at hs ⊢
    exact or_left_comm.mp hs
  rcases hmem with hs | hs
  · exact h.behind s hs
  · exact Nat.lt_of_lt_of_le h.lt (h'.laid.inside s hs).1

theorem Within.spanFrom (h : Within source c d cs) : d.spanFrom c.read = ⟨c.read, d.read⟩ := by
  rw [Cursor.spanFrom, Nat.max_eq_left (Nat.le_of_lt h.lt)]

theorem Within.record (h : Within source c d cs) (hc : StandsIn source c)
    (hcontent : content.isComment = false) :
    Finds source c (d.record content c.read) [(content, ⟨c.read, d.read⟩)] cs where
  ahead := h.finds.ahead.trans (ahead_record _ _ _)
  stands := h.finds.stands.congr rfl rfl rfl
  statements := by
    rw [← h.spanFrom, Cursor.record, h.finds.statements, List.append_nil]
  comments := h.finds.comments
  laid := by
    have hlaid := h.enclose hc (Finds.refl h.finds.stands) hcontent
      fun _ hs => absurd hs List.not_mem_nil
    rwa [List.append_nil] at hlaid

/-! ## What a statement leaves out -/

/-- The characters of blanks and line breaks. -/
theorem mem_layout {t : Token} {ch : Char} (ht : t.Formed)
    (hkind : (t.kind.isBlank || t.kind == .newline) = true) (hch : ch ∈ t.text) :
    ch ∈ [' ', '\t', '\r', '\n'] := by
  obtain ⟨kind, text⟩ := t
  cases kind with
  | whitespace =>
    obtain ⟨x, hx, rfl⟩ := ht
    rw [List.mem_singleton.mp hch]
    unfold Token.single? at hx
    split at hx <;> simp_all
  | tab =>
    obtain ⟨x, hx, rfl⟩ := ht
    rw [List.mem_singleton.mp hch]
    unfold Token.single? at hx
    split at hx <;> simp_all
  | newline =>
    rcases ht with rfl | rfl
    · simp_all
    · simp_all
  | dollar | leftParen | rightParen | leftBrace | rightBrace | colon | equals | plus | question
  | hash | semicolon | pipe | backslash | escape | identifier => cases hkind

/-- Blanks and line breaks may be left out. -/
theorem covered_advance (hc : StandsIn source c) (n : Nat)
    (hkinds : ∀ t ∈ c.rest.take n, (t.kind.isBlank || t.kind == .newline) = true) :
    Covered source c.read (c.advance n).read [] := by
  intro before ch after hs hlo hhi
  have hread : (c.advance n).read = c.read + byteSize (textOf (c.rest.take n)) := rfl
  obtain ⟨p, q, hpq, hp, hrest⟩ := hc.placed
  rcases hrest with hrest | ⟨hnil, -⟩
  · have hsplit : p ++ (textOf (c.rest.take n) ++ textOf (c.advance n).rest) =
        before ++ ch :: after := by
      rw [textOf_rest_advance, hrest, ← hpq, hs]
    have hmem := Text.mem_of_between hsplit (by omega) (by omega)
    obtain ⟨t, ht, hch⟩ := List.mem_flatMap.mp hmem
    exact Or.inr (mem_layout (hc.formed t (List.mem_of_mem_take ht)) (hkinds t ht) hch)
  · rw [hnil, List.take_nil] at hread
    rw [hread, textOf, List.flatMap_nil, byteSize] at hhi
    omega

/-- **What a statement finds**: it leaves nothing out when it has no fault. -/
def FindsAll (source : Text) (c d : Cursor) : Prop :=
  ∃ ss cs, Finds source c d ss cs ∧ (d.faults = [] → Covered source c.read d.read (ss ++ cs))

theorem Within.findsAll_record (h : Within source c d cs) (hc : StandsIn source c)
    (hcontent : content.isComment = false) : FindsAll source c (d.record content c.read) :=
  ⟨_, _, h.record hc hcontent, fun _ => covered_of_mem List.mem_cons_self⟩

/-- A fault leaves out what it likes. -/
theorem Finds.findsAll (h : Finds source c d ss cs) (hd : d.faults ≠ []) : FindsAll source c d :=
  ⟨ss, cs, h, fun hnil => absurd hnil hd⟩

theorem FindsAll.stands (h : FindsAll source c d) : StandsIn source d := by
  obtain ⟨ss, cs, hfinds, -⟩ := h
  exact hfinds.stands

theorem FindsAll.trans (h : FindsAll source c mid) (h' : FindsAll source mid d) :
    FindsAll source c d := by
  obtain ⟨ss, cs, hfinds, hcovered⟩ := h
  obtain ⟨ss', cs', hfinds', hcovered'⟩ := h'
  refine ⟨_, _, hfinds.trans hfinds', fun hnil => ?_⟩
  have hmid : mid.faults = [] := List.prefix_nil.mp (hnil ▸ hfinds'.ahead.faults)
  refine ((hcovered hmid).append (hcovered' hnil)).mono fun s hs => ?_
  simp only [List.mem_append] at hs ⊢
  exact or_or_or_comm.mp hs

/-! ## Statements -/

theorem findsAll_assignment {op : AssignOp} {target : Option Phrase} {name : Phrase}
    (hc : StandsIn source c) (h : Within source c (d.advance 1) cs)
    (hpos : target.elim name.pos Phrase.pos = c.read) :
    FindsAll source c (d.assignment op target name) := by
  obtain ⟨cs', hvalue⟩ := finds_phrase .line h.finds.stands
  have hfinds := h.trans hvalue
  have hreport := hfinds.finds.trans (finds_report hvalue.stands c.read .emptyName)
  have hfault := hreport.findsAll (faults_report_ne_nil _ _ _)
  unfold assignment
  cases target with
  | none =>
    have hpos : name.pos = c.read := hpos
    dsimp only
    rw [hpos]
    split
    · exact hfault
    · exact hfinds.findsAll_record hc rfl
  | some t =>
    have hpos : t.pos = c.read := hpos
    dsimp only
    rw [hpos]
    split
    · exact hfault
    · exact hfinds.findsAll_record hc rfl

theorem finds_defineArguments (hc : StandsIn source c) :
    Finds source c c.defineArguments.2 [] [] := by
  have hskip : Finds source c c.skipBlanks [] [] := finds_advance hc _
  unfold defineArguments
  dsimp only
  split
  · exact hskip.trans (finds_advance hskip.stands _)
  · have hreport : Finds source c.skipBlanks (c.skipBlanks.reportHere .endlessDefine) [] [] :=
      finds_report hskip.stands _ _
    exact (hskip.trans hreport).trans (finds_advance hreport.stands _)

theorem finds_directiveArguments (keyword : Keyword) (hc : StandsIn source c) :
    ∃ cs, Finds source c (c.directiveArguments keyword).2 [] cs := by
  unfold directiveArguments
  split
  · exact ⟨[], Finds.refl hc⟩
  · exact ⟨[], Finds.refl hc⟩
  · exact ⟨[], Finds.refl hc⟩
  · exact ⟨[], finds_defineArguments hc⟩
  · have hskip : Finds source c c.skipBlanks [] [] := finds_advance hc _
    obtain ⟨cs, hcs⟩ := finds_phrase .line hskip.stands
    exact ⟨_, hskip.trans hcs⟩

theorem kindAt_of_keyword {keyword : Keyword} (h : c.keyword? = some keyword) :
    c.kindAt 0 = some .identifier := by
  obtain ⟨ts, hrest⟩ := exists_of_keyword h
  exact kindAt_of_rest hrest

/-- A directive finds itself and the comments in it. -/
theorem finds_directive {keyword : Keyword} (hc : StandsIn source c)
    (hkeyword : c.keyword? = some keyword) :
    ∃ arguments cs, Finds source c (c.directive keyword)
      [(.directive ⟨keyword, arguments⟩, ⟨c.read, (c.directive keyword).read⟩)] cs := by
  have hkind := kindAt_of_keyword hkeyword
  obtain ⟨cs, hcs⟩ := finds_directiveArguments keyword (hc.advance 1)
  unfold directive
  rw [offset_of_kindAt hkind]
  exact ⟨_, _, ((within_advance hc hkind).trans hcs).record hc rfl⟩

theorem finds_recipeLine (hc : StandsIn source c) : Finds source c c.recipeLine.2 [] [] :=
  (finds_advance hc _).trans (finds_advance (hc.advance _) 1)

/-- **A recipe finds directives**, and the comments in them. -/
theorem ReadsRecipe.finds {lines : Text} (h : ReadsRecipe c lines d) (hc : StandsIn source c) :
    ∃ ss cs, Finds source c d ss cs ∧ ∀ s ∈ ss, s.1.isDirective = true := by
  induction h with
  | @line c d lines htab hrest ih =>
    have hline := (finds_advance hc (c.breaks + 1)).trans (finds_recipeLine (hc.advance _))
    obtain ⟨ss, cs, hfinds, hkind⟩ := ih hline.stands
    exact ⟨ss, cs, hline.trans hfinds, hkind⟩
  | @directive c d lines keyword htab hkeyword hrest ih =>
    obtain ⟨arguments, cs, hdirective⟩ := finds_directive hc hkeyword
    obtain ⟨ss, cs', hfinds, hkind⟩ := ih (finds_skipBreak hdirective.stands).stands
    refine ⟨_, _, (hdirective.trans (finds_skipBreak hdirective.stands)).trans hfinds, ?_⟩
    intro s hs
    rcases List.mem_append.mp hs with hs | hs
    · rw [List.append_nil] at hs
      rw [List.mem_singleton.mp hs]
      rfl
    · exact hkind s hs
  | stop htab hkeyword => exact ⟨[], [], Finds.refl hc, nofun⟩

theorem finds_recipeStart (firstLine : Bool) (hc : StandsIn source c) :
    Finds source c (recipeStart firstLine c).2 [] [] := by
  unfold recipeStart
  split
  · exact finds_recipeLine hc
  · exact Finds.refl hc

/-- **A rule is around the directives in its recipe.** -/
theorem Within.findsAll_behindRule {rule : Rule} (h : Within source c mid cs)
    (hc : StandsIn source c) (h' : Finds source { mid with statements := [] } d ss cs')
    (hkind : ∀ s ∈ ss, s.1.isDirective = true) (hpos : rule.target.pos = c.read) :
    FindsAll source c (behindRule mid.statements rule d) := by
  have hinside : Finds source mid { d with statements := mid.statements ++ d.statements } ss cs' :=
    { ahead := ⟨h'.ahead.size, h'.ahead.length, h'.ahead.read, h'.ahead.faults⟩
      stands := h'.stands.congr rfl rfl rfl
      statements := congrArg _ h'.statements
      comments := h'.comments
      laid := h'.laid }
  have hall := h.finds.trans hinside
  have hspan : d.spanFrom rule.target.pos = ⟨c.read, d.read⟩ := by
    rw [hpos, Cursor.spanFrom, Nat.max_eq_left hall.ahead.read]
  have hrule : Content.isComment (.rule rule) = false := rfl
  have hlaid := h.enclose hc hinside hrule fun s hs => Or.inr ⟨rfl, hkind s hs⟩
  refine ⟨_, _, ⟨?_, ?_, ?_, hall.comments, hlaid⟩, fun _ => ?_⟩
  · exact ⟨hall.ahead.size, hall.ahead.length, hall.ahead.read, hall.ahead.faults⟩
  · exact hall.stands.congr rfl rfl rfl
  · have hfound : d.statements = ss := h'.statements
    rw [behindRule, hspan, hfound, h.finds.statements, List.append_nil]
  · exact covered_of_mem List.mem_cons_self

theorem findsAll_recipe {target prerequisites : Phrase} {firstLine : Bool} (hc : StandsIn source c)
    (h : Within source c d cs) (hpos : target.pos = c.read) :
    FindsAll source c (d.recipe target prerequisites firstLine) := by
  obtain ⟨lines, e, hlines, heq⟩ := exists_recipe target prerequisites firstLine d
  have hstart := h.trans (finds_recipeStart firstLine h.finds.stands)
  obtain ⟨ss, cs', hfinds, hkind⟩ := hlines.finds (hstart.finds.stands.congr rfl rfl rfl)
  rw [heq]
  exact hstart.findsAll_behindRule hc hfinds hkind hpos

theorem OpensRecipe.finds {firstLine : Bool} (h : OpensRecipe c firstLine d)
    (hc : StandsIn source c) : ∃ cs, Finds source c d [] cs := by
  cases h with
  | semicolon hnext =>
    exact ⟨[], (finds_advance hc 1).trans (finds_advance (hc.advance 1) _)⟩
  | newline hnext => exact ⟨[], finds_advance hc 1⟩
  | comment hnext =>
    obtain ⟨text, hcomment⟩ := finds_comment hc hnext
    exact ⟨_, hcomment⟩
  | nothing hnext => exact ⟨[], Finds.refl hc⟩
  | unexpected kind hnext hkind => exact ⟨[], finds_report hc _ _⟩

theorem findsAll_rule {target : Phrase} (hc : StandsIn source c) (h : Within source c d cs)
    (hpos : target.pos = c.read) : FindsAll source c (d.rule target) := by
  have hskip : Within source c d.skipBlanks (cs ++ []) := h.trans (finds_advance h.finds.stands _)
  have hrule := readsRule_rule target d
  generalize d.rule target = e at hrule
  cases hrule with
  | assignment hbody hnext =>
    obtain ⟨cs', hcs'⟩ := hbody.finds hskip.finds.stands
    have hfinds := hskip.trans hcs'
    exact findsAll_assignment hc (hfinds.trans (finds_advance hfinds.finds.stands 1)) hpos
  | simple hbody hnext =>
    obtain ⟨cs', hcs'⟩ := hbody.finds hskip.finds.stands
    have hcolon := (hskip.trans hcs').trans (finds_advance hcs'.stands 1)
    exact findsAll_assignment hc (hcolon.trans (finds_advance hcolon.finds.stands 1)) hpos
  | recipe hbody hopens =>
    obtain ⟨cs', hcs'⟩ := hbody.finds hskip.finds.stands
    obtain ⟨cs'', hcs''⟩ := hopens.finds hcs'.stands
    exact findsAll_recipe hc ((hskip.trans hcs').trans hcs'') hpos

/-! ## Lines -/

theorem text_ne_nil_of_takes {t : Token} {text : Text} {depth' : Nat} (ht : t.Formed)
    (h : place.Takes depth t text depth') : text ≠ [] := by
  cases h with
  | closing hdepth hcloses => exact ht.text_ne_nil
  | escape hends hkind =>
    split
    · exact List.cons_ne_nil _ _
    · exact ht.text_ne_nil
  | literal hends hkind => exact ht.text_ne_nil

/-- A phrase that is not empty goes on in the text. -/
theorem ReadsBody.read_lt (h : ReadsBody place depth c body d) (hc : StandsIn source c)
    (hbody : body ≠ .nil) : c.read < d.read := by
  cases h with
  | finish hstop => exact absurd rfl hbody
  | literal hnext htake hrest =>
    obtain ⟨ts, hcons⟩ := List.head?_eq_some_iff.mp hnext
    exact Nat.lt_of_lt_of_le (hc.read_lt_advance (kindAt_of_rest hcons)) hrest.ahead.read
  | backslash hnext => exact absurd rfl hbody
  | comment hnext hends => exact absurd rfl hbody
  | bracketed hnext hopen hname hrest =>
    have hbehind := (hname.ahead.trans (ahead_closeReference _ _ _)).trans hrest.ahead
    rw [← advance_advance c 1 1] at hbehind
    exact Nat.lt_of_lt_of_le (hc.read_lt_advance hnext) ((ahead_advance _ 1).trans hbehind).read
  | bare hnext hopen hrest =>
    exact Nat.lt_of_lt_of_le (hc.read_lt_advance hnext)
      ((ahead_bareName _ _).trans hrest.ahead).read

/-- A phrase that is empty, and that no comment or fault ends, is no text at all. -/
theorem ReadsBody.eq_of_nil (h : ReadsBody place depth c .nil d) (hc : StandsIn source c)
    (hends : place.ends .hash = true) (hd : d.faults = []) : d = c := by
  generalize hbody : Phrase.Body.nil = body at h
  cases h with
  | finish hstop => rfl
  | @literal _ _ _ _ _ t text body hnext htake hrest =>
    obtain ⟨ts, hcons⟩ := List.head?_eq_some_iff.mp hnext
    have ht := hc.formed t (hcons ▸ List.mem_cons_self)
    obtain ⟨x, text, rfl⟩ := List.exists_cons_of_ne_nil (text_ne_nil_of_takes ht htake)
    cases hbody
  | backslash hnext => exact absurd hd (faults_report_ne_nil _ _ _)
  | comment hnext hends' =>
    rw [hends] at hends'
    cases hends'
  | bracketed hnext hopen hname hrest => cases hbody
  | bare hnext hopen hrest => cases hbody

theorem findsAll_noted {head : Phrase.Body} (hc : StandsIn source c)
    (hhead : ReadsBody .head 0 c head mid) :
    ∃ ss cs, Finds source c (mid.noted ⟨c.read, head⟩) ss cs ∧
      ((mid.noted ⟨c.read, head⟩).faults = [] →
        Covered source c.read (mid.noted ⟨c.read, head⟩).read (ss ++ cs)) := by
  obtain ⟨cs, hcs, hbehind⟩ := hhead.finds_behind hc rfl
  unfold noted
  split
  · next r hr =>
    have hne : head ≠ .nil := by
      rintro rfl
      cases hr
    exact (Within.mk hcs hbehind (hhead.read_lt hc hne)).findsAll_record hc rfl
  · split
    · next hempty =>
      obtain rfl : head = .nil := by simpa [Phrase.isEmpty] using hempty
      refine ⟨_, _, hcs, fun hnil => ?_⟩
      rw [hhead.eq_of_nil hc rfl hnil]
      exact covered_self _ _ _
    · exact (hcs.trans (finds_report hcs.stands _ _)).findsAll (faults_report_ne_nil _ _ _)

theorem kindAt_of_noted {phrase : Phrase} {kind : Token.Kind}
    (h : (c.noted phrase).kindAt 0 = some kind) : c.kindAt 0 = some kind := by
  unfold noted at h
  split at h
  · exact h
  · split at h
    · exact h
    · unfold kindAt at h ⊢
      rcases rest_report c phrase.pos (.strayText phrase.body) with hrest | hrest
      · rwa [hrest] at h
      · rw [hrest] at h
        cases h

/-- The end of a line is a comment or a line break. -/
theorem findsAll_endLine (hc : StandsIn source c)
    (hnext : ∀ kind, c.kindAt 0 = some kind → kind = .hash ∨ kind = .newline) :
    FindsAll source c c.endLine := by
  unfold endLine
  split
  · next hhash =>
    obtain ⟨text, hcomment⟩ := finds_comment hc hhash
    exact ⟨_, _, hcomment, fun _ => covered_of_mem List.mem_cons_self⟩
  · next hhash =>
    refine ⟨_, _, finds_advance hc 1, fun _ => covered_advance hc 1 fun t ht => ?_⟩
    obtain ⟨u, us, hcons⟩ :=
      List.exists_cons_of_ne_nil (List.ne_nil_of_mem (List.mem_of_mem_take ht))
    rw [hcons, List.take_succ_cons, List.take_zero, List.mem_singleton] at ht
    subst ht
    have hkind := kindAt_of_rest hcons
    rcases hnext t.kind hkind with h | h
    · exact absurd (h ▸ hkind) hhash
    · rw [h]
      rfl

/-- **A statement leaves out nothing** but blanks and line breaks, if it has no fault. -/
theorem findsAll_statement (hc : StandsIn source c) (hrest : c.rest ≠ []) :
    FindsAll source c c.statement := by
  have hoffset : c.offset = c.read := by
    obtain ⟨t, ts, hcons⟩ := List.exists_cons_of_ne_nil hrest
    exact offset_of_kindAt (kindAt_of_rest hcons)
  have hstatement := readsStatement_statement c
  generalize c.statement = d at hstatement
  cases hstatement with
  | directive hkeyword =>
    obtain ⟨arguments, cs, hdirective⟩ := finds_directive hc hkeyword
    exact ⟨_, _, hdirective, fun _ => covered_of_mem List.mem_cons_self⟩
  | @assignment mid next head op hkeyword hhead hop =>
    obtain ⟨cs, hcs, hbehind⟩ := hhead.finds_behind hc rfl
    have hnext : Finds source mid next [] [] := by
      cases hop with
      | recursive hequals => exact Finds.refl hcs.stands
      | conditional hquestion hequals => exact finds_advance hcs.stands 1
      | simple hcolon hequals => exact finds_advance hcs.stands 1
      | double hcolon hcolon' hequals => exact finds_advance hcs.stands 2
    have hfinds := hcs.trans hnext
    rw [List.append_nil, List.append_nil] at hfinds
    exact findsAll_assignment hc (hfinds.within_advance hbehind hop.kindAt) hoffset
  | @rule mid next head hkeyword hhead hcolons =>
    obtain ⟨cs, hcs, hbehind⟩ := hhead.finds_behind hc rfl
    have hwithin : ∃ cs, Within source c next cs := by
      cases hcolons with
      | single hcolon hequals hcolon' => exact ⟨_, hcs.within_advance hbehind hcolon⟩
      | double hcolon hcolon' hequals =>
        have hcolon := hcs.within_advance hbehind hcolon
        rw [← advance_advance mid 1 1]
        exact ⟨_, hcolon.trans (finds_advance hcolon.finds.stands 1)⟩
    obtain ⟨cs', hwithin⟩ := hwithin
    exact findsAll_rule hc hwithin hoffset
  | @lone mid head hkeyword hhead hnext =>
    rw [loneLine_eq, hoffset]
    have hnoted : FindsAll source c (mid.noted ⟨c.read, head⟩) := findsAll_noted hc hhead
    exact hnoted.trans (findsAll_endLine hnoted.stands fun kind hkind =>
      hnext kind (kindAt_of_noted hkind))
  | @expectedEquals mid head hkeyword hhead hquestion hequals =>
    obtain ⟨cs, hcs, -⟩ := hhead.finds hc
    have hreport :
        Finds source (mid.advance 1) ((mid.advance 1).reportHere .expectedEquals) [] [] :=
      finds_report (hcs.stands.advance 1) _ _
    have hfinds := (hcs.trans (finds_advance hcs.stands 1)).trans hreport
    exact (hfinds.trans (finds_recipeLine hfinds.stands)).findsAll (faults_report_ne_nil _ _ _)
  | @unexpected mid head kind hkeyword hhead hnext hkind =>
    obtain ⟨cs, hcs, -⟩ := hhead.finds hc
    have hreport : Finds source mid (mid.reportHere (.unexpected kind)) [] [] :=
      finds_report hcs.stands _ _
    have hfinds := hcs.trans hreport
    exact (hfinds.trans (finds_recipeLine hfinds.stands)).findsAll (faults_report_ne_nil _ _ _)

theorem findsAll_skipSpace (hc : StandsIn source c) : FindsAll source c c.skipSpace := by
  refine ⟨_, _, finds_advance hc _, fun _ => covered_advance hc _ fun t ht => ?_⟩
  rw [← List.prefix_iff_eq_take.mp (List.takeWhile_prefix _)] at ht
  simpa using List.mem_takeWhile_imp ht

/-- **All statements together leave out nothing** but blanks and line breaks, if there is no
fault. -/
theorem ReadsLines.findsAll (h : ReadsLines c d) (hc : StandsIn source c) :
    FindsAll source c d := by
  induction h with
  | done hrest => exact findsAll_skipSpace hc
  | @statement c d hrest hlines ih =>
    have hskip : StandsIn source c.skipSpace := hc.advance _
    have hstatement := findsAll_statement hskip hrest
    exact ((findsAll_skipSpace hc).trans hstatement).trans (ih hstatement.stands)

end Cursor

/-! ## Whole texts -/

variable {source : Text}

/-- A text with fewer faults than allowed is read to its last byte. -/
theorem read_readText_of_few (h : (readText source).faults.length < Fault.limit) :
    (readText source).read = byteSize source := by
  have hlines := Cursor.readsLines_readText source
  obtain ⟨before, after, hs, hb, hrest⟩ :=
    (hlines.findsAll (Cursor.standsIn_start source)).stands.placed
  rw [hlines.rest_eq_nil] at hrest
  rcases hrest with hrest | ⟨-, hfaults⟩
  · rw [← hb, hs, ← hrest]
    simp [Token.textOf]
  · exact absurd hfaults (Nat.not_le.mpr h)

/-- A text without faults is read to its last byte. -/
theorem read_readText (h : (readText source).faults = []) :
    (readText source).read = byteSize source :=
  read_readText_of_few (by rw [h]; decide)

/-- What is found in a whole text, in the order of the starts. -/
theorem exists_interleave (source : Text) :
    ∃ l : List (Content × Span),
      (parse source).statements = l.map (fun s => locate source s.1 s.2) ∧
      l.Pairwise Follows ∧
      (∀ s ∈ l, s.2.start < s.2.stop ∧ IsBoundary source s.2.start ∧ IsBoundary source s.2.stop) ∧
      ((parse source).errors = [] → Covered source 0 (byteSize source) l) := by
  have hlines := Cursor.readsLines_readText source
  obtain ⟨ss, cs, hfinds, hcovered⟩ := hlines.findsAll (Cursor.standsIn_start source)
  have hstatements : (readText source).statements = ss := hfinds.statements
  have hcomments : (readText source).comments = cs := hfinds.comments
  have hlaid := hfinds.laid
  refine ⟨interleave ss cs, ?_, ?_, ?_, ?_⟩
  · rw [← hstatements, ← hcomments]
    rfl
  · exact pairwise_interleave hlaid.statements hlaid.comments hlaid.beside
  · intro s hs
    have hmem : s ∈ ss ++ cs := List.mem_append.mpr (mem_interleave.mp hs)
    exact ⟨(hlaid.inside s hmem).2.1, hlaid.bounds s hmem⟩
  · intro herrors
    have hnil : (readText source).faults = [] := List.map_eq_nil_iff.mp herrors
    have hall := hcovered hnil
    rw [read_readText hnil] at hall
    exact hall.mono fun s hs => mem_interleave.mpr (List.mem_append.mp hs)

/-- **The spans of the statements of a text.** They start one behind the other. Each is a part of
the text that is not empty and cuts no character. Two of them are apart, or the later one is inside
the earlier one, which only happens to comments and to directives in rules. If there is no error,
every byte outside of them belongs to a blank or a line break. -/
theorem parse_spans (source : Text) :
    ((parse source).statements.Pairwise fun a b => a.span.start < b.span.start) ∧
    (∀ s ∈ (parse source).statements, ∃ before part after, source = before ++ part ++ after ∧
      part ≠ [] ∧ s.span = ⟨byteSize before, byteSize (before ++ part)⟩ ∧
      Text.slice? s.span source = some part ∧ s.quote source = Text.trimEnd part) ∧
    ((parse source).statements.Pairwise fun a b => a.span.stop ≤ b.span.start ∨
      (b.span.stop ≤ a.span.stop ∧ a.content.MayHold b.content)) ∧
    ((parse source).errors = [] → ∀ before ch after i, source = before ++ ch :: after →
      byteSize before ≤ i → i < byteSize before + ch.utf8Size →
      (∀ s ∈ (parse source).statements, ¬ (s.span.start ≤ i ∧ i < s.span.stop)) →
      ch ∈ [' ', '\t', '\r', '\n']) := by
  obtain ⟨l, hl, hfollows, hbounds, hcovered⟩ := exists_interleave source
  rw [hl]
  refine ⟨?_, ?_, ?_, ?_⟩
  · exact List.pairwise_map.mpr (hfollows.imp fun h => h.1)
  · intro s hs
    obtain ⟨⟨content, span⟩, hmem, rfl⟩ := List.mem_map.mp hs
    obtain ⟨hlt, hstart, hstop⟩ := hbounds _ hmem
    obtain ⟨before, part, after, hsource, hne, hlo, hhi⟩ := Text.exists_part hstart hstop hlt
    have hspan : span = ⟨byteSize before, byteSize (before ++ part)⟩ := by rw [hlo, hhi]
    have hslice : Text.slice? span source = some part := by
      rw [hspan, hsource, Text.slice?_append]
    refine ⟨before, part, after, hsource, hne, hspan, hslice, ?_⟩
    unfold Statement.quote
    rw [show (locate source content span).span = span from rfl, hslice]
  · exact List.pairwise_map.mpr (hfollows.imp fun h => h.2)
  · intro herrors before ch after i hsource hlo hhi houtside
    have hlt : byteSize before < byteSize source := by
      have := Char.utf8Size_pos ch
      rw [hsource, Text.byteSize_append, byteSize]
      omega
    rcases hcovered herrors before ch after hsource (Nat.zero_le _) hlt with ⟨s, hs, hin⟩ | hch
    · -- A span that holds the first byte of a character holds all of them.
      have hstop := (hbounds s hs).2.2
      have hle := Text.le_of_isBoundary (hsource ▸ hstop) hin.2
      exact absurd ⟨Nat.le_trans hin.1 hlo, Nat.lt_of_lt_of_le hhi hle⟩
        (houtside _ (List.mem_map_of_mem hs))
    · exact hch

end MakeBlueprint.Makefile
