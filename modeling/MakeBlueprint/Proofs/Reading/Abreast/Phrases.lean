import MakeBlueprint.Proofs.Reading.Abreast.Tokens
import MakeBlueprint.Proofs.Reading.Positions
import MakeBlueprint.Proofs.Reading.Spans

/-!
# Reading two texts abreast

A cursor in each of two texts, with paired tokens left and the same found so far (`Abreast`). What
was found is the same up to positions, but for what shows how lines are broken: the recipes of
rules, the lines of definitions, and the comments in which a blank stands for an escaped line break.

* `Abreast.advance`, `Abreast.skipWhile`, `Abreast.report`, `Abreast.record`, `Abreast.comment`: one
  step in both texts.
* `ReadsBody.abreast`, `ReadsPrerequisites.abreast`: phrases that are read abreast are the same, and
  so are the tokens behind them.
* `Abreast.overBlanks`: blanks that only one of the readers skips are characters in front of what
  the other one reads.
-/

namespace MakeBlueprint.Makefile

open Text (byteSize)
open Token (textOf)

/-- The position of everything, when positions do not count. -/
def forget : Nat → Nat := fun _ => 0

/-- **Two statements say the same**, as far as readers can tell. Where `free` holds, comments may
differ; recipes and definitions may where the texts break lines differently. -/
inductive Content.Alike (A : Alignment) (free : Prop) : Content → Content → Prop
  | bare {k k' : Content} (h : k'.mapPos forget = k.mapPos forget) : Alike A free k k'
  | comment {text text' : Text} (hfree : free) : Alike A free (.comment text) (.comment text')
  | rule {r r' : Rule} (hreturns : A.returns)
      (htarget : r'.target.mapPos forget = r.target.mapPos forget)
      (hprerequisites : r'.prerequisites.mapPos forget = r.prerequisites.mapPos forget) :
      Alike A free (.rule r) (.rule r')
  | define {lines lines' : Phrase} (hreturns : A.returns) :
      Alike A free (.directive ⟨.define, lines⟩) (.directive ⟨.define, lines'⟩)

namespace Alignment

/-- Two statements say the same in corresponding places. -/
structure Matches (A : Alignment) (s s' : Content × Span) : Prop where
  span : s'.2 = mapSpan A.place s.2
  content : s.1.Alike A (A.JoinsIn s'.2.start s'.2.stop) s'.1

/-- Two faults are the same, in corresponding places. -/
structure Agrees (A : Alignment) (f f' : Fault) : Prop where
  cause : f'.cause.mapPos forget = f.cause.mapPos forget
  offset : f'.offset = A.place f.offset

end Alignment

/-- **Two cursors abreast**: paired tokens are left, and the same was found. -/
structure Abreast (A : Alignment) (c c' : Cursor) : Prop where
  tokens : Paired A c.read c'.read c.rest c'.rest
  size : A.place c.size = c'.size
  statements : List.Forall₂ A.Matches c.statements c'.statements
  comments : List.Forall₂ A.Matches c.comments c'.comments
  faults : List.Forall₂ A.Agrees c.faults c'.faults

namespace Cursor

theorem rest_skipWhile (p : Token.Kind → Bool) (c : Cursor) :
    (c.skipWhile p).rest = c.rest.dropWhile fun t => p t.kind :=
  (congrArg (List.drop _) List.takeWhile_append_dropWhile).symm.trans List.drop_left

theorem read_skipWhile (p : Token.Kind → Bool) (c : Cursor) :
    (c.skipWhile p).read = c.read + byteSize (textOf (c.rest.takeWhile fun t => p t.kind)) := by
  rw [List.prefix_iff_eq_take.mp (List.takeWhile_prefix (l := c.rest) fun t => p t.kind)]
  rfl

/-- A blank that is next is skipped. -/
theorem skipBlanks_of {c : Cursor} (h : ∃ kind, c.kindAt 0 = some kind ∧ kind.isBlank = true) :
    c.skipBlanks = (c.advance 1).skipBlanks := by
  obtain ⟨kind, hkind, hblank⟩ := h
  obtain ⟨t, ts, hrest, rfl⟩ := exists_of_kindAt hkind
  unfold skipBlanks skipWhile
  rw [advance_advance]
  simp [advance, hrest, hblank, Nat.add_comm]

theorem skipBlanks_of_not {c : Cursor}
    (h : ∀ kind, c.kindAt 0 = some kind → ¬ kind.isBlank = true) : c.skipBlanks = c := by
  unfold skipBlanks skipWhile
  cases hrest : c.rest with
  | nil =>
    rw [List.takeWhile_nil]
    rfl
  | cons t ts =>
    rw [List.takeWhile_cons, if_neg (h t.kind (kindAt_of_rest hrest))]
    rfl

/-- A reader that skips awaits an escaped line break if it stops before one. -/
theorem awaits_iff {A : Alignment} {p : Token.Kind → Bool} {c : Cursor} :
    A.Awaits p c.read c.rest ↔ (c.skipWhile p).rest ≠ [] ∧ A.joins (c.skipWhile p).read := by
  rw [rest_skipWhile, read_skipWhile]
  rfl

end Cursor

namespace Abreast

open Cursor

variable {A : Alignment} {c c' : Cursor} {p : Token.Kind → Bool}

/-! ## Steps -/

theorem offset (h : Abreast A c c') : A.place c.offset = c'.offset := by
  have hnil := h.tokens.nil_iff
  unfold Cursor.offset
  simp only [List.isEmpty_iff, ← hnil]
  split
  · exact h.size
  · exact h.tokens.place

theorem advance (h : Abreast A c c') (k : Nat) : Abreast A (c.advance k) (c'.advance k) :=
  ⟨h.tokens.drop k, h.size, h.statements, h.comments, h.faults⟩

theorem kindAt (h : Abreast A c c') (k : Nat) :
    c.kindAt k = c'.kindAt k ∨ c.kindAt k = some .whitespace ∧ c'.kindAt k = some .escape :=
  h.tokens.kindAt k

/-- The tokens of the first text have the kinds of those of the second, but for escapes. -/
theorem kindAt_of_ne (h : Abreast A c c') {k : Nat} {kind : Token.Kind}
    (hkind : c'.kindAt k = some kind) (hescape : kind ≠ .escape) : c.kindAt k = some kind := by
  rcases h.kindAt k with heq | ⟨-, hk'⟩
  · rwa [heq]
  · rw [hk'] at hkind
    exact absurd (Option.some.inj hkind).symm hescape

theorem kindAt_iff (h : Abreast A c c') (k : Nat) {kind : Token.Kind} (hwhite : kind ≠ .whitespace)
    (hescape : kind ≠ .escape) : c.kindAt k = some kind ↔ c'.kindAt k = some kind := by
  rcases h.kindAt k with heq | ⟨hk, hk'⟩
  · rw [heq]
  · rw [hk, hk']
    simp [hwhite.symm, hescape.symm]

/-- Both readers skip the same tokens. -/
theorem skipWhile (h : Abreast A c c')
    (hp : p .whitespace = p .escape ∨ p .escape = false ∧ ¬ A.Awaits p c'.read c'.rest) :
    Abreast A (c.skipWhile p) (c'.skipWhile p) := by
  unfold Cursor.skipWhile
  rw [h.tokens.length_takeWhile hp]
  exact h.advance _

theorem skipLine (h : Abreast A c c') : Abreast A c.skipLine c'.skipLine := by
  unfold Cursor.skipLine line
  have hlength := @Paired.length_takeWhile A _ _ _ _ (fun k => k != .newline) h.tokens (.inl rfl)
  rw [hlength]
  exact h.advance _

theorem skipBreak (h : Abreast A c c') : Abreast A c.skipBreak c'.skipBreak := by
  have hnewline : c.kindAt 0 = some .newline ↔ c'.kindAt 0 = some .newline :=
    h.kindAt_iff 0 nofun nofun
  unfold Cursor.skipBreak
  simp only [hnewline]
  split
  · exact h.advance 1
  · exact h

theorem report (h : Abreast A c c') {offset offset' : Nat} {cause cause' : Cause}
    (hcause : cause'.mapPos forget = cause.mapPos forget) (hoffset : A.place offset = offset') :
    Abreast A (c.report offset cause) (c'.report offset' cause') := by
  have hlength := h.faults.length_eq
  have hfaults : List.Forall₂ A.Agrees (c.faults ++ [⟨cause, offset⟩])
      (c'.faults ++ [⟨cause', offset'⟩]) :=
    List.rel_append h.faults (.cons ⟨hcause, hoffset.symm⟩ .nil)
  unfold Cursor.report
  rw [hlength]
  split
  · exact h
  · split
    · exact ⟨.nil h.tokens.place, h.size, h.statements, h.comments, hfaults⟩
    · exact ⟨h.tokens, h.size, h.statements, h.comments, hfaults⟩

theorem reportHere (h : Abreast A c c') {cause cause' : Cause}
    (hcause : cause'.mapPos forget = cause.mapPos forget) :
    Abreast A (c.reportHere cause) (c'.reportHere cause') :=
  h.report hcause h.offset

theorem spanFrom (h : Abreast A c c') {start start' : Nat} (hstart : A.place start = start') :
    c'.spanFrom start' = mapSpan A.place (c.spanFrom start) := by
  have hmax : A.place (max c.read start) = max (A.place c.read) (A.place start) :=
    A.strictMono.monotone.map_max
  unfold Cursor.spanFrom mapSpan
  rw [hmax, h.tokens.place, hstart]

theorem record (h : Abreast A c c') {content content' : Content} {start start' : Nat}
    (hstart : A.place start = start')
    (hcontent : content.Alike A (A.JoinsIn start' (max c'.read start')) content') :
    Abreast A (c.record content start) (c'.record content' start') :=
  ⟨h.tokens, h.size, List.rel_append h.statements (.cons ⟨h.spanFrom hstart, hcontent⟩ .nil),
    h.comments, h.faults⟩

/-- **A comment in both texts.** It is the same, unless there is an escaped line break in it that is
a blank in the first text. -/
theorem comment (h : Abreast A c c') (hhash : c'.kindAt 0 = some .hash) :
    Abreast A c.comment c'.comment := by
  have hbody := h.advance 1
  have hbehind := hbody.skipLine.advance 1
  have hoffset : c'.offset = c'.read := offset_of_kindAt hhash
  have hstart : c'.offset ≤ (c'.advance 1).read := hoffset ▸ Nat.le_add_right _ _
  have htake : ∀ d : Cursor, d.line = d.rest.take d.line.length := fun d =>
    List.prefix_iff_eq_take.mp (List.takeWhile_prefix _)
  have hlength : (c.advance 1).line.length = (c'.advance 1).line.length :=
    @Paired.length_takeWhile A _ _ _ _ (fun k => k != .newline) hbody.tokens (.inl rfl)
  have hline : ∀ t ∈ (c.advance 1).line, t.kind ≠ .newline := fun t ht => by
    simpa using List.mem_takeWhile_imp ht
  have htext := hbody.tokens.flatMap_take
    (fun t => if t.kind = .escape ∧ t.escapesBreak then ['\n'] else t.text)
    (c.advance 1).line.length (by rwa [← htake]) (fun _ => rfl)
  rw [← htake, hlength, ← htake] at htext
  refine ⟨hbehind.tokens, hbehind.size, hbehind.statements, ?_, hbehind.faults⟩
  refine List.rel_append hbehind.comments (.cons ⟨hbehind.spanFrom h.offset, ?_⟩ .nil)
  rcases htext with htext | hjoins
  · exact .bare (congrArg Content.comment htext)
  · have hstop : (c'.advance 1).read + byteSize (textOf (c'.advance 1).line) ≤
        ((c'.advance 1).skipLine.advance 1).read := by
      rw [htake (c'.advance 1)]
      exact Nat.le_add_right _ _
    exact .comment (hjoins.mono hstart (Nat.le_trans hstop (Nat.le_max_left _ _)))

/-! ## Phrases -/

/-- A name without brackets is the same in both texts if the same token or a line break is next. -/
theorem bareName (h : Abreast A c c') (dollar dollar' : Nat)
    (hnext : ∀ u ∈ c.rest.head?, u.kind ≠ .newline → c'.rest.head? = some u) :
    (c'.bareName dollar').1 = (c.bareName dollar).1 ∧
      Abreast A (c.bareName dollar).2.2 (c'.bareName dollar').2.2 := by
  have hmissing : Abreast A (c.reportHere .missingName) (c'.reportHere .missingName) :=
    h.reportHere rfl
  have hbehind := h.advance 1
  have htokens := h.tokens
  unfold Cursor.bareName
  generalize hrest : c.rest = ts at htokens hnext
  generalize hrest' : c'.rest = ts' at htokens hnext
  cases htokens with
  | nil | newline => exact ⟨rfl, hmissing⟩
  | escape | join => simp_all
  | @same _ _ u vs vs' hplace hjoin _ _ hword hpaired =>
    cases hk : u.kind with
    | newline => simpa only [hk, true_and] using hmissing
    | identifier =>
      simp only [hk]
      split
      -- One letter is taken, and the rest of the word stays.
      · next x y w htext =>
        rw [htext, byteSize] at hplace hjoin hword hpaired
        have hsum : ∀ m : Nat, m + (x.utf8Size + byteSize (y :: w)) =
            m + x.utf8Size + byteSize (y :: w) := fun m => (Nat.add_assoc _ _ _).symm
        have hpos := Text.byteSize_pos (List.cons_ne_nil y w)
        rw [hsum, hsum] at hpaired
        refine ⟨rfl, ⟨.same (fun k hle => ?_) (fun k hle => ?_) (by simp) (by simp) ?_ hpaired,
          h.size, h.statements, h.comments, h.faults⟩⟩
        · rw [Nat.add_assoc, Nat.add_assoc]
          exact hplace _ (Nat.add_le_add_left hle _)
        · rw [Nat.add_assoc]
          refine hjoin _ ?_
          dsimp only at hle
          omega
        · rw [← hsum]
          exact fun _ => hword hk
      · exact ⟨rfl, hbehind⟩
    | _ => simpa only [hk, true_and] using hbehind

/-- Behind a dollar sign the same token or a line break is next in both texts. -/
theorem head?_behind_dollar (h : Abreast A c c') (hnext : c'.kindAt 0 = some .dollar) :
    ∀ u ∈ (c.advance 1).rest.head?, u.kind ≠ .newline → (c'.advance 1).rest.head? = some u := by
  obtain ⟨t', ts', hrest', hk⟩ := exists_of_kindAt hnext
  have htokens := h.tokens
  unfold Cursor.advance
  rw [hrest'] at htokens ⊢
  generalize c.rest = ts at htokens
  cases htokens with
  | same hplace hjoin hlast hdollar => exact hdollar hk
  | newline | escape => cases hk
  | join hkind =>
    rw [hkind] at hk
    cases hk

/-- A backslash by itself is the last token in both texts. -/
theorem length_of_backslash (h : Abreast A c c') (hnext : c'.kindAt 0 = some .backslash) :
    c'.rest.length = 1 := by
  obtain ⟨t', ts', hrest', hk⟩ := exists_of_kindAt hnext
  have htokens := h.tokens
  rw [hrest'] at htokens ⊢
  generalize c.rest = ts at htokens
  cases htokens with
  | same hplace hjoin hlast hdollar hword hpaired =>
    rw [hpaired.nil_iff.mp (hlast hk)]
    rfl
  | newline | escape => cases hk
  | join hkind =>
    rw [hkind] at hk
    cases hk

theorem closeReference (h : Abreast A c c') (b : Bracket) {name name' : Phrase.Body}
    (hname : name'.mapPos forget = name.mapPos forget) :
    Abreast A (c.closeReference b name) (c'.closeReference b name') := by
  have hclosing : c.kindAt 0 = some b.closing ↔ c'.kindAt 0 = some b.closing :=
    h.kindAt_iff 0 (by cases b <;> nofun) (by cases b <;> nofun)
  unfold Cursor.closeReference
  simp only [hclosing]
  split
  · exact h.advance 1
  · exact h.reportHere (congrArg (Cause.unclosedReference _) hname)

end Abreast

theorem Place.ends_escape (place : Place) : place.ends .escape = false := by
  cases place with
  | name b => cases b <;> rfl
  | head | prerequisites | line => rfl

theorem Place.ends_whitespace (place : Place) : place.ends .whitespace = false := by
  cases place with
  | name b => cases b <;> rfl
  | head | prerequisites | line => rfl

theorem Place.opens_whitespace (place : Place) : place.opens .whitespace = false := by
  cases place with
  | name b => cases b <;> rfl
  | head | prerequisites | line => rfl

/-- **Partners add the same text to a phrase.** -/
theorem Paired.takes {A : Alignment} {n n' depth depth' : Nat} {ts ts' : List Token} {t' : Token}
    {place : Place} {text : Text} (h : Paired A n n' ts ts') (hnext : ts'.head? = some t')
    (htake : place.Takes depth t' text depth') :
    ∃ t, ts.head? = some t ∧ place.Takes depth t text depth' := by
  cases h with
  | nil => cases hnext
  | same =>
    cases hnext
    exact ⟨_, rfl, htake⟩
  | newline =>
    cases hnext
    cases htake with
    | closing hdepth hcloses =>
      cases place with
      | name b => cases b <;> cases hcloses
      | head | prerequisites | line => cases hcloses
    | escape hends hkind => cases hkind
    | literal hends hkind => cases hkind
  | escape =>
    cases hnext
    cases htake with
    | closing hdepth hcloses =>
      have hends := Place.ends_of_closes hcloses
      rw [place.ends_escape] at hends
      cases hends
    | escape hends hkind => exact ⟨_, rfl, .escape hends rfl⟩
    | literal hends hkind => cases hkind
  | join hkind hbreak =>
    cases hnext
    cases htake with
    | closing hdepth hcloses =>
      have hends := Place.ends_of_closes hcloses
      rw [hkind, place.ends_escape] at hends
      cases hends
    | escape hends hescape =>
      rw [if_pos hbreak]
      have hblank := @Place.Takes.literal place depth ⟨.whitespace, [' ']⟩ place.ends_whitespace rfl
      rw [if_neg (by rw [place.opens_whitespace]; nofun)] at hblank
      exact ⟨_, rfl, hblank⟩
    | literal hends hliteral =>
      rw [hkind] at hliteral
      cases hliteral

namespace Cursor

variable {A : Alignment} {place : Place} {depth : Nat} {c c' d' : Cursor} {body' : Phrase.Body}

/-- **A phrase that is read in the second text is read in the first.** Where phrases end before a
comment, the same kind of token is next in both texts. -/
theorem ReadsBody.abreast (h : ReadsBody place depth c' body' d') (hc : Abreast A c c') :
    ∃ body d, ReadsBody place depth c body d ∧ body'.mapPos forget = body.mapPos forget ∧
      Abreast A d d' ∧ (place.ends .hash = true → d.kindAt 0 = d'.kindAt 0) := by
  induction h generalizing c with
  | @finish place depth c' hstop =>
    have hkind : c.kindAt 0 = c'.kindAt 0 := by
      refine (hc.kindAt 0).resolve_right fun hescape => ?_
      rcases (hstop _ hescape.2).2 with hends | hnewline
      · rw [place.ends_escape] at hends
        cases hends
      · cases hnewline
    exact ⟨.nil, c, .finish (by rwa [hkind]), rfl, hc, fun _ => hkind⟩
  | @literal place depth depth' c' d' t' text body' hnext htake hrest ih =>
    obtain ⟨t, hnext, htake⟩ := hc.tokens.takes hnext htake
    obtain ⟨body, d, hbody, hbare, hd, hkind⟩ := ih (hc.advance 1)
    refine ⟨_, d, .literal hnext htake hbody, ?_, hd, hkind⟩
    rw [Phrase.Body.mapPos_append, Phrase.Body.mapPos_append, hbare]
  | @backslash place depth c' hnext =>
    have hnext₁ := hc.kindAt_of_ne hnext nofun
    have hbehind := (hc.reportHere (rfl : Cause.nothingToEscape.mapPos forget = _)).advance 1
    -- A backslash is the last token of a text.
    have hlength := hc.length_of_backslash hnext
    have hle := (ahead_reportHere c' .nothingToEscape).length
    have hnil' : ((c'.reportHere .nothingToEscape).advance 1).rest = [] :=
      List.length_eq_zero_iff.mp (by rw [length_advance]; omega)
    refine ⟨.nil, _, .backslash hnext₁, rfl, hbehind, fun _ => ?_⟩
    rw [kindAt_eq_none_iff.mpr hnil', kindAt_eq_none_iff.mpr (hbehind.tokens.nil_iff.mpr hnil')]
  | @comment place depth c' hnext hends =>
    have hnext₁ := hc.kindAt_of_ne hnext nofun
    refine ⟨.nil, _, .comment hnext₁ hends, rfl, hc.comment hnext, fun hhash => ?_⟩
    rw [hends] at hhash
    cases hhash
  | @bracketed place depth c' atClose' d' b name' body' hnext hopen hname hrest ihname ih =>
    have hnext₁ := hc.kindAt_of_ne hnext nofun
    have hopen₁ : Bracket.ofOpening? (c.kindAt 1) = some b := by
      rcases hc.kindAt 1 with heq | ⟨-, hescape⟩
      · rwa [heq]
      · rw [hescape] at hopen
        cases hopen
    obtain ⟨name, atClose, hname, hbare, hclose, -⟩ := ihname (hc.advance 2)
    obtain ⟨body, d, hbody, hbare', hd, hkind⟩ := ih (hclose.closeReference b hbare)
    refine ⟨_, d, .bracketed hnext₁ hopen₁ hname hbody, ?_, hd, hkind⟩
    simp only [Phrase.Body.mapPos, hbare, hbare', forget]
  | @bare place depth c' d' body' hnext hopen hrest ih =>
    have hnext₁ := hc.kindAt_of_ne hnext nofun
    have hopen₁ : Bracket.ofOpening? (c.kindAt 1) = none := by
      rcases hc.kindAt 1 with heq | ⟨hwhite, -⟩
      · rwa [heq]
      · rw [hwhite]
        rfl
    obtain ⟨hname, hbehind⟩ :=
      (hc.advance 1).bareName c.offset c'.offset (hc.head?_behind_dollar hnext)
    obtain ⟨body, d, hbody, hbare, hd, hkind⟩ := ih hbehind
    refine ⟨_, d, .bare hnext₁ hopen₁ hbody, ?_, hd, hkind⟩
    simp only [Phrase.Body.mapPos, hname, hbare, forget]

theorem ReadsPrerequisites.abreast (h : ReadsPrerequisites c' body' d') (hc : Abreast A c c') :
    ∃ body d, ReadsPrerequisites c body d ∧ body'.mapPos forget = body.mapPos forget ∧
      Abreast A d d' ∧ d.kindAt 0 = d'.kindAt 0 := by
  have hcolon : ∀ {d d' : Cursor}, Abreast A d d' →
      (d.kindAt 0 = some .colon ∧ d.kindAt 1 ≠ some .equals ↔
        d'.kindAt 0 = some .colon ∧ d'.kindAt 1 ≠ some .equals) := fun hd =>
    and_congr (hd.kindAt_iff 0 nofun nofun) (not_congr (hd.kindAt_iff 1 nofun nofun))
  induction h generalizing c with
  | last hbody hstop =>
    obtain ⟨body, d, hbody, hbare, hd, hkind⟩ := hbody.abreast hc
    exact ⟨body, d, .last hbody (mt (hcolon hd).mp hstop), hbare, hd, hkind rfl⟩
  | more hfirst hmore hrest ih =>
    obtain ⟨first, mid, hfirst, hbare, hmid, -⟩ := hfirst.abreast hc
    obtain ⟨body, d, hbody, hbare', hd, hkind⟩ := ih (hmid.advance 1)
    refine ⟨_, d, .more hfirst ((hcolon hmid).mpr hmore) hbody, ?_, hd, hkind⟩
    rw [Phrase.Body.mapPos_append, Phrase.Body.mapPos_append, Phrase.Body.mapPos,
      Phrase.Body.mapPos, hbare, hbare']

end Cursor

namespace Abreast

open Cursor

variable {A : Alignment} {c c' : Cursor}

theorem phrase (h : Abreast A c c') (place : Place) :
    (c'.phrase place).1.body.mapPos forget = (c.phrase place).1.body.mapPos forget ∧
      Abreast A (c.phrase place).2 (c'.phrase place).2 ∧
      (place.ends .hash = true → (c.phrase place).2.kindAt 0 = (c'.phrase place).2.kindAt 0) := by
  obtain ⟨body, d, hbody, hrest⟩ := (reads_phrase place c').abreast h
  rw [hbody.phrase_eq]
  exact hrest

/-- The partner of a blank adds a text to prerequisites. -/
theorem takes_blank (h : Abreast A c c') (hblank : ∃ kind, c.kindAt 0 = some kind ∧ kind.isBlank) :
    ∃ t' text, c'.rest.head? = some t' ∧ Place.prerequisites.Takes 0 t' text 0 := by
  obtain ⟨kind, hnext, hblank⟩ := hblank
  obtain ⟨t, ts, hrest, rfl⟩ := exists_of_kindAt hnext
  have htokens := h.tokens
  rw [hrest] at htokens
  generalize c'.rest = ts' at htokens
  cases htokens with
  | newline | escape => cases hblank
  | same =>
    refine ⟨t, t.text, rfl, ?_⟩
    unfold Token.Kind.isBlank at hblank
    split at hblank
    · next hk => exact .literal (by rw [hk]; rfl) (by rw [hk]; rfl)
    · next hk => exact .literal (by rw [hk]; rfl) (by rw [hk]; rfl)
    · cases hblank
  | @join _ _ t' _ _ hkind =>
    have htake := @Place.Takes.escape .prerequisites 0 t' (by rw [hkind]; rfl) hkind
    exact ⟨t', _, rfl, htake⟩

/-- **Blanks that only the first reader skips** are characters in front of what the second one
reads. -/
theorem overBlanks (h : Abreast A c c') :
    ∃ w d, Abreast A c.skipBlanks d ∧
      ∀ body e, ReadsBody .prerequisites 0 d body e →
        ReadsBody .prerequisites 0 c' (.ofText w ++ body) e := by
  induction hn : c.rest.length generalizing c c' with
  | zero =>
    have hskip : c.skipBlanks = c := skipBlanks_of_not fun kind hkind => by
      rw [kindAt_eq_none_iff.mpr (List.length_eq_zero_iff.mp hn)] at hkind
      cases hkind
    exact ⟨[], c', hskip.symm ▸ h, fun body e hbody => hbody⟩
  | succ n ih =>
    by_cases hblank : ∃ kind, c.kindAt 0 = some kind ∧ kind.isBlank = true
    · have hlength : (c.advance 1).rest.length = n := by rw [length_advance, hn, Nat.add_sub_cancel]
      obtain ⟨w, d, hd, hread⟩ := ih (h.advance 1) hlength
      obtain ⟨t', text, hnext, htake⟩ := h.takes_blank hblank
      refine ⟨text ++ w, d, skipBlanks_of hblank ▸ hd, fun body e hbody => ?_⟩
      rw [Phrase.Body.ofText_append, Phrase.Body.append_assoc]
      exact .literal hnext htake (hread body e hbody)
    · have hskip : c.skipBlanks = c := skipBlanks_of_not fun kind hkind hk =>
        hblank ⟨kind, hkind, hk⟩
      exact ⟨[], c', hskip.symm ▸ h, fun body e hbody => hbody⟩

/-- The same when the second reader has skipped what it can. -/
theorem overSkipped (h : Abreast A c c') :
    ∃ w d, Abreast A c.skipBlanks d ∧
      ∀ body e, ReadsBody .prerequisites 0 d body e →
        ReadsBody .prerequisites 0 c'.skipBlanks (.ofText w ++ body) e := by
  induction hn : c'.rest.length generalizing c c' with
  | zero =>
    have hskip : c'.skipBlanks = c' := skipBlanks_of_not fun kind hkind => by
      rw [kindAt_eq_none_iff.mpr (List.length_eq_zero_iff.mp hn)] at hkind
      cases hkind
    rw [hskip]
    exact h.overBlanks
  | succ n ih =>
    by_cases hblank : ∃ kind, c'.kindAt 0 = some kind ∧ kind.isBlank = true
    · obtain ⟨kind, hkind, hk⟩ := hblank
      have hkind₁ := h.kindAt_of_ne hkind (by rintro rfl; cases hk)
      rw [skipBlanks_of ⟨kind, hkind, hk⟩, skipBlanks_of ⟨kind, hkind₁, hk⟩]
      exact ih (h.advance 1) (by rw [length_advance, hn, Nat.add_sub_cancel])
    · have hskip : c'.skipBlanks = c' := skipBlanks_of_not fun kind hkind hk =>
        hblank ⟨kind, hkind, hk⟩
      rw [hskip]
      exact h.overBlanks

end Abreast

end MakeBlueprint.Makefile
