import MakeBlueprint.Proofs.Reading.Layout
import MakeBlueprint.Proofs.Reading.Lines
import MakeBlueprint.Proofs.Reading.Tokens

/-!
# What readers find

A cursor stands at a boundary of its source (`StandsIn`), and what a reader finds lies between the
place where it starts and the place where it ends (`Finds`): statements, and comments apart from
them, laid out as `Laid` says.

* `StandsIn.advance`, `StandsIn.report`, `StandsIn.bareName`: every step keeps to the boundaries,
  also the one that cuts an identifier and the one that gives up the rest of the text.
* `ReadsBody.finds`, `ReadsPrerequisites.finds`: phrases find comments only.
-/

namespace MakeBlueprint.Makefile.Cursor

open Text (byteSize IsBoundary)
open Token (textOf)

variable {source : Text} {c d e mid next : Cursor} {body : Phrase.Body} {place : Place}
  {depth : Nat} {ss ss' cs cs' ds : List (Content × Span)} {content : Content} {lo hi : Nat}

/-! ## Where a cursor stands -/

/-- **A cursor stands at a boundary of its source**: what is left of the source is the text of the
tokens that are left, unless the rest was given up because of too many faults. -/
structure StandsIn (source : Text) (c : Cursor) : Prop where
  formed : ∀ t ∈ c.rest, t.Formed
  placed : ∃ before after, source = before ++ after ∧ byteSize before = c.read ∧
    (textOf c.rest = after ∨ c.rest = [] ∧ Fault.limit ≤ c.faults.length)

theorem standsIn_start (source : Text) : StandsIn source (start source) where
  formed := Token.formed_of_mem_lex source
  placed := ⟨[], source, rfl, rfl, Or.inl (Token.textOf_lex source)⟩

theorem StandsIn.congr (h : StandsIn source c) (hrest : d.rest = c.rest) (hread : d.read = c.read)
    (hfaults : d.faults = c.faults) : StandsIn source d := by
  obtain ⟨hformed, hplaced⟩ := h
  exact ⟨by rwa [hrest], by rwa [hrest, hread, hfaults]⟩

theorem StandsIn.isBoundary (h : StandsIn source c) : IsBoundary source c.read := by
  obtain ⟨before, after, hs, hb, -⟩ := h.placed
  exact ⟨before, after, hs, hb⟩

theorem StandsIn.advance (h : StandsIn source c) (n : Nat) : StandsIn source (c.advance n) := by
  refine ⟨fun t ht => h.formed t (List.mem_of_mem_drop ht), ?_⟩
  obtain ⟨before, after, hs, hb, hrest⟩ := h.placed
  rcases hrest with hrest | ⟨hnil, hfaults⟩
  · refine ⟨before ++ textOf (c.rest.take n), textOf (c.advance n).rest, ?_, ?_, Or.inl rfl⟩
    · rw [List.append_assoc, textOf_rest_advance, hrest, hs]
    · rw [Text.byteSize_append, hb]
      rfl
  · refine ⟨before, after, hs, ?_, Or.inr ⟨?_, hfaults⟩⟩
    · rw [hb]
      simp [Cursor.advance, hnil, textOf, byteSize]
    · simp [Cursor.advance, hnil]

theorem StandsIn.report (h : StandsIn source c) (offset : Nat) (cause : Cause) :
    StandsIn source (c.report offset cause) := by
  obtain ⟨before, after, hs, hb, hrest⟩ := h.placed
  unfold Cursor.report
  split
  · exact h
  · split
    · next hlast =>
      refine ⟨fun t ht => absurd ht List.not_mem_nil, before, after, hs, hb, Or.inr ⟨rfl, ?_⟩⟩
      rw [List.length_append]
      exact hlast
    · refine ⟨h.formed, before, after, hs, hb, hrest.imp_right fun hnil => ⟨hnil.1, ?_⟩⟩
      rw [List.length_append]
      exact Nat.le_add_right_of_le hnil.2

theorem StandsIn.bareName (h : StandsIn source c) (dollar : Nat) :
    StandsIn source (c.bareName dollar).2.2 := by
  unfold Cursor.bareName
  split
  · exact h.report _ _
  · next t ts hrest =>
    split
    · exact h.report _ _
    · exact h.advance 1
    · next hkind =>
      split
      · next x y w htext =>
        obtain ⟨hformed, before, after, hs, hb, hafter⟩ := h
        rw [hrest] at hformed hafter
        have ht := hformed t List.mem_cons_self
        rw [Token.Formed, hkind, htext] at ht
        refine ⟨?_, before ++ [x], y :: w ++ textOf ts, ?_, ?_, Or.inl rfl⟩
        · intro u hu
          rcases List.mem_cons.mp hu with rfl | hu
          · exact ⟨List.cons_ne_nil _ _, fun z hz => ht.2 z (List.mem_cons_of_mem x hz)⟩
          · exact hformed u (List.mem_cons_of_mem t hu)
        · rcases hafter with hafter | ⟨hnil, -⟩
          · rw [hs, ← hafter, textOf, List.flatMap_cons, htext]
            simp [textOf]
          · cases hnil
        · rw [Text.byteSize_append, hb]
          simp [byteSize]
      · exact h.advance 1
    · exact h.advance 1

theorem StandsIn.closeReference (h : StandsIn source c) (b : Bracket) (name : Phrase.Body) :
    StandsIn source (c.closeReference b name) := by
  unfold Cursor.closeReference
  split
  · exact h.advance 1
  · exact h.report _ _

/-- Going past a token goes on in the text. -/
theorem StandsIn.read_lt_advance (h : StandsIn source c) {kind : Token.Kind}
    (hkind : c.kindAt 0 = some kind) : c.read < (c.advance 1).read := by
  obtain ⟨t, ts, hcons, -⟩ := exists_of_kindAt hkind
  have hne := (h.formed t (hcons ▸ List.mem_cons_self)).text_ne_nil
  have hpos := Text.byteSize_pos hne
  unfold Cursor.advance
  simp only [hcons, textOf, List.take_succ_cons, List.take_zero, List.flatMap_cons,
    List.flatMap_nil, List.append_nil]
  omega

theorem offset_of_kindAt {kind : Token.Kind} (h : c.kindAt 0 = some kind) : c.offset = c.read := by
  obtain ⟨t, ts, hcons, -⟩ := exists_of_kindAt h
  unfold offset
  rw [hcons]
  rfl

/-! ## What readers find -/

/-- **What a reader finds** on its way through a source. -/
structure Finds (source : Text) (c d : Cursor) (ss cs : List (Content × Span)) : Prop where
  ahead : Ahead c d
  stands : StandsIn source d
  statements : d.statements = c.statements ++ ss
  comments : d.comments = c.comments ++ cs
  laid : Laid (IsBoundary source) c.read d.read ss cs

/-- A reader that finds nothing. -/
theorem finds_nothing (hahead : Ahead c d) (hd : StandsIn source d)
    (hstatements : d.statements = c.statements) (hcomments : d.comments = c.comments) :
    Finds source c d [] [] :=
  ⟨hahead, hd, by rw [hstatements, List.append_nil], by rw [hcomments, List.append_nil],
    Laid.nil _ _ _⟩

theorem Finds.refl (h : StandsIn source c) : Finds source c c [] [] :=
  finds_nothing (Ahead.refl c) h rfl rfl

theorem Finds.trans (h : Finds source c mid ss cs) (h' : Finds source mid d ss' cs') :
    Finds source c d (ss ++ ss') (cs ++ cs') where
  ahead := h.ahead.trans h'.ahead
  stands := h'.stands
  statements := by rw [h'.statements, h.statements, List.append_assoc]
  comments := by rw [h'.comments, h.comments, List.append_assoc]
  laid := h.laid.append h'.laid h.ahead.read h'.ahead.read

theorem finds_advance (h : StandsIn source c) (n : Nat) : Finds source c (c.advance n) [] [] :=
  finds_nothing (ahead_advance c n) (h.advance n) rfl rfl

theorem finds_report (h : StandsIn source c) (offset : Nat) (cause : Cause) :
    Finds source c (c.report offset cause) [] [] := by
  refine finds_nothing (ahead_report c offset cause) (h.report offset cause) ?_ ?_
  · unfold report
    split
    · rfl
    · split <;> rfl
  · unfold report
    split
    · rfl
    · split <;> rfl

theorem finds_bareName (h : StandsIn source c) (dollar : Nat) :
    Finds source c (c.bareName dollar).2.2 [] [] := by
  have hreport : Finds source c (c.reportHere .missingName) [] [] := finds_report h _ _
  refine finds_nothing (ahead_bareName c dollar) (h.bareName dollar) ?_ ?_
  · unfold bareName
    split
    · simpa using hreport.statements
    · split
      · simpa using hreport.statements
      · rfl
      · split <;> rfl
      · rfl
  · unfold bareName
    split
    · simpa using hreport.comments
    · split
      · simpa using hreport.comments
      · rfl
      · split <;> rfl
      · rfl

theorem finds_closeReference (h : StandsIn source c) (b : Bracket) (name : Phrase.Body) :
    Finds source c (c.closeReference b name) [] [] := by
  unfold closeReference
  split
  · exact finds_advance h 1
  · exact finds_report h _ _

theorem finds_comment (h : StandsIn source c) (hhash : c.kindAt 0 = some .hash) :
    ∃ text, Finds source c c.comment []
      [(.comment text, ⟨c.read, c.comment.read⟩)] := by
  have hbehind : StandsIn source ((c.advance 1).skipLine.advance 1) :=
    ((h.advance 1).advance _).advance 1
  have hstands : StandsIn source c.comment := hbehind.congr rfl rfl rfl
  have hread : (c.advance 1).read ≤ c.comment.read :=
    ((ahead_skipLine (c.advance 1)).trans (ahead_advance _ 1)).read
  have hlt : c.read < c.comment.read := Nat.lt_of_lt_of_le (h.read_lt_advance hhash) hread
  have hspan : (c.comment.spanFrom c.offset) = ⟨c.read, c.comment.read⟩ := by
    rw [offset_of_kindAt hhash, spanFrom, Nat.max_eq_left (Nat.le_of_lt hlt)]
  obtain ⟨text, htext⟩ : ∃ text, c.comment.comments =
      c.comments ++ [(.comment text, c.comment.spanFrom c.offset)] := ⟨_, rfl⟩
  refine ⟨text, ahead_comment c, hstands, (List.append_nil _).symm, hspan ▸ htext, ?_⟩
  · refine ⟨.nil, List.pairwise_singleton _ _, fun _ hs => absurd hs List.not_mem_nil, ?_, ?_, ?_⟩
    · rintro s hs
      rw [List.mem_singleton.mp hs]
      exact ⟨Nat.le_refl _, hlt, Nat.le_refl _⟩
    · rintro s hs
      rw [List.mem_singleton.mp hs]
      exact ⟨h.isBoundary, hstands.isBoundary⟩
    · rintro k hk
      rw [List.mem_singleton.mp hk]
      rfl

/-- What is found behind a place, and not at it. -/
def Behind (lo : Nat) (l : List (Content × Span)) : Prop := ∀ s ∈ l, lo < s.2.start

theorem Finds.behind (h : Finds source mid d ss cs) (hlt : c.read < mid.read) :
    Behind c.read (ss ++ cs) :=
  fun s hs => Nat.lt_of_lt_of_le hlt (h.laid.inside s hs).1

/-- A reader that goes on to some place first finds what is found from there. -/
theorem Finds.after (h : Finds source c mid [] []) (h' : Finds source mid d ss cs)
    (hlt : c.read < mid.read) : Finds source c d ss cs ∧ Behind c.read (ss ++ cs) :=
  ⟨h.trans h', h'.behind hlt⟩

/-- **A phrase finds comments only**, and none at its start unless it is a comment there. -/
theorem ReadsBody.finds (h : ReadsBody place depth c body d) (hc : StandsIn source c) :
    ∃ cs, Finds source c d [] cs ∧
      (c.kindAt 0 ≠ some .hash ∨ place.ends .hash = true → Behind c.read cs) := by
  induction h with
  | finish hstop => exact ⟨[], Finds.refl hc, fun _ => nofun⟩
  | @literal place depth depth' c d t text body hnext htake hrest ih =>
    obtain ⟨ts, hcons⟩ := List.head?_eq_some_iff.mp hnext
    obtain ⟨cs, hcs, -⟩ := ih (hc.advance 1)
    obtain ⟨hfinds, hbehind⟩ :=
      (finds_advance hc 1).after hcs (hc.read_lt_advance (kindAt_of_rest hcons))
    exact ⟨cs, hfinds, fun _ => hbehind⟩
  | backslash hnext =>
    refine ⟨[], (finds_report hc _ _).trans (finds_advance (hc.report _ _) 1), fun _ => nofun⟩
  | comment hnext hends =>
    obtain ⟨text, htext⟩ := finds_comment hc hnext
    refine ⟨_, htext, ?_⟩
    rintro (hne | hends')
    · exact absurd hnext hne
    · rw [hends] at hends'
      cases hends'
  | @bracketed place depth c atClose d b name body hnext hopen hname hrest ihname ih =>
    obtain ⟨cs, hcs, -⟩ := ihname (hc.advance 2)
    obtain ⟨cs', hcs', -⟩ := ih (hcs.stands.closeReference b name)
    have hinner := (hcs.trans (finds_closeReference hcs.stands b name)).trans hcs'
    have hlt : c.read < (c.advance 2).read := by
      rw [← advance_advance c 1 1]
      exact Nat.lt_of_lt_of_le (hc.read_lt_advance hnext) (ahead_advance _ 1).read
    obtain ⟨hfinds, hbehind⟩ := (finds_advance hc 2).after hinner hlt
    exact ⟨_, hfinds, fun _ => hbehind⟩
  | @bare place depth c d body hnext hopen hrest ih =>
    obtain ⟨cs, hcs, -⟩ := ih ((hc.advance 1).bareName _)
    have hinner := (finds_bareName (hc.advance 1) c.offset).trans hcs
    obtain ⟨hfinds, hbehind⟩ := (finds_advance hc 1).after hinner (hc.read_lt_advance hnext)
    exact ⟨_, hfinds, fun _ => hbehind⟩

/-- A phrase that ends at a hash sign finds nothing at its start. -/
theorem ReadsBody.finds_behind (h : ReadsBody place depth c body d) (hc : StandsIn source c)
    (hends : place.ends .hash = true) : ∃ cs, Finds source c d [] cs ∧ Behind c.read cs := by
  obtain ⟨cs, hcs, hbehind⟩ := h.finds hc
  exact ⟨cs, hcs, hbehind (Or.inr hends)⟩

theorem finds_phrase (place : Place) (hc : StandsIn source c) :
    ∃ cs, Finds source c (c.phrase place).2 [] cs := by
  obtain ⟨cs, hcs, -⟩ := (reads_phrase place c).finds hc
  exact ⟨cs, hcs⟩

theorem finds_skipBreak (hc : StandsIn source c) : Finds source c c.skipBreak [] [] := by
  unfold skipBreak
  split
  · exact finds_advance hc 1
  · exact Finds.refl hc

theorem ReadsPrerequisites.finds (h : ReadsPrerequisites c body d) (hc : StandsIn source c) :
    ∃ cs, Finds source c d [] cs := by
  induction h with
  | last hbody hstop =>
    obtain ⟨cs, hcs, -⟩ := hbody.finds hc
    exact ⟨cs, hcs⟩
  | more hfirst hcolon hrest ih =>
    obtain ⟨cs, hcs, -⟩ := hfirst.finds hc
    obtain ⟨cs', hcs'⟩ := ih (hcs.stands.advance 1)
    exact ⟨_, (hcs.trans (finds_advance hcs.stands 1)).trans hcs'⟩

end MakeBlueprint.Makefile.Cursor
