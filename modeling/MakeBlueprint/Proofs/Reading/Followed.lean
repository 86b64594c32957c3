import Mathlib.Data.List.TakeWhile
import MakeBlueprint.Proofs.Reading.Blocks
import MakeBlueprint.Proofs.Reading.Coverage

/-!
# Reading in front of another text

A cursor with whole lines in front of more text (`followed`) reads these lines as if there were
nothing behind them, if their faults are contained in them. A line ends all lookahead but that of
recipes, which go on over empty lines; so the text behind must not go on with a recipe
(`LeavesRecipe`).

* `Contained`: the faults are few, each has its place in the lines, and no block is without its end.
* `ReadsBody.followed`, `ReadsPrerequisites.followed`: inside a line.
* `ReadsRecipe.followed`: recipes and the directives in them.
* `statement_followed`, `ReadsLines.followed`: statements, and all of them.
-/

namespace MakeBlueprint.Makefile

open Token (EndsLine textOf)

/-! ## Whole lines -/

namespace Token

variable {ts more : List Token}

/-- The tokens make up whole lines. -/
def WholeLines (ts : List Token) : Prop := ts = [] ∨ EndsLine ts

/-- A blank or a line break. -/
def isSpace (t : Token) : Bool := t.kind.isBlank || t.kind == .newline

/-- **What does not go on with a recipe**: the first of the tokens is neither a tab nor a line break
nor a keyword. -/
def LeavesRecipe (ts : List Token) : Prop :=
  ∀ t ∈ ts.head?, t.kind ≠ .tab ∧ t.kind ≠ .newline ∧
    (t.kind = .identifier → Keyword.ofText? t.text = none)

theorem wholeLines_drop (h : EndsLine ts) (n : Nat) : WholeLines (ts.drop n) := by
  by_cases hle : ts.length ≤ n
  · exact Or.inl (List.drop_eq_nil_iff.mpr hle)
  · obtain ⟨t, ht, hk⟩ := h
    refine Or.inr ⟨t, ?_, hk⟩
    rw [List.getLast?_drop, if_neg hle]
    exact ht

theorem EndsLine.drop (h : EndsLine ts) {n : Nat} (hn : n < ts.length) : EndsLine (ts.drop n) :=
  (wholeLines_drop h n).resolve_left fun hnil => absurd (List.drop_eq_nil_iff.mp hnil)
    (Nat.not_le.mpr hn)

theorem EndsLine.exists_newline (h : EndsLine ts) : ∃ t ∈ ts, t.kind = .newline := by
  obtain ⟨t, ht, hk⟩ := h
  exact ⟨t, List.mem_of_getLast? ht, hk⟩

/-- What does not go over the end of a line ends in the line. -/
theorem EndsLine.length_takeWhile_lt {p : Token → Bool} (h : EndsLine ts)
    (hp : ∀ t : Token, t.kind = .newline → p t = false) : (ts.takeWhile p).length < ts.length := by
  obtain ⟨t, ht, hk⟩ := h.exists_newline
  refine Nat.lt_of_le_of_ne (List.takeWhile_prefix p).length_le fun heq => ?_
  have hall := List.takeWhile_eq_self_iff.mp ((List.takeWhile_prefix p).eq_of_length heq)
  exact absurd (hall t ht) (by rw [hp t hk]; exact Bool.false_ne_true)

theorem EndsLine.takeWhile_append {p : Token → Bool} (h : EndsLine ts)
    (hp : ∀ t : Token, t.kind = .newline → p t = false) :
    (ts ++ more).takeWhile p = ts.takeWhile p := by
  rw [List.takeWhile_append, if_neg (Nat.ne_of_lt (h.length_takeWhile_lt hp))]

theorem EndsLine.head?_dropWhile_append {p : Token → Bool} (h : EndsLine ts)
    (hp : ∀ t : Token, t.kind = .newline → p t = false) :
    ((ts ++ more).dropWhile p).head? = (ts.dropWhile p).head? := by
  have hne : ts.dropWhile p ≠ [] := by
    obtain ⟨t, ht, hk⟩ := h.exists_newline
    intro hnil
    have hall := List.dropWhile_eq_nil_iff.mp hnil t ht
    rw [hp t hk] at hall
    cases hall
  rw [List.dropWhile_append, if_neg (by simpa using hne)]
  obtain ⟨t, us, hcons⟩ := List.exists_cons_of_ne_nil hne
  rw [hcons]
  rfl

end Token

namespace Cursor

open Token (WholeLines LeavesRecipe)

/-- The cursor with more text behind what is left. -/
def followed (more : List Token) (size : Nat) (c : Cursor) : Cursor :=
  { c with rest := c.rest ++ more, size := c.size + size }

variable {source : Text} {more : List Token} {size : Nat} {c d : Cursor} {place : Place}
  {depth : Nat} {body : Phrase.Body}

/-! ## Contained faults -/

/-- **The faults are contained in the text**: there are fewer than allowed, each is noted in front of
a token, and none of them is a block without an end. -/
structure Contained (c : Cursor) : Prop where
  few : c.faults.length < Fault.limit
  inside : ∀ f ∈ c.faults, f.offset < c.size
  ended : ∀ f ∈ c.faults, f.cause ≠ .endlessDefine

theorem contained_of_nil (h : c.faults = []) : c.Contained where
  few := by
    rw [h]
    decide
  inside f hf := absurd (h ▸ hf) List.not_mem_nil
  ended f hf := absurd (h ▸ hf) List.not_mem_nil

theorem Contained.congr (h : c.Contained) (hfaults : d.faults = c.faults) (hsize : d.size = c.size) :
    d.Contained :=
  ⟨hfaults ▸ h.few, by rw [hfaults, hsize]; exact h.inside, hfaults ▸ h.ended⟩

/-- Faults that are contained by the end were contained on the way. -/
theorem Ahead.contained (h : Ahead c d) (hd : d.Contained) : c.Contained where
  few := Nat.lt_of_le_of_lt h.faults.length_le hd.few
  inside f hf := h.size ▸ hd.inside f (h.faults.subset hf)
  ended f hf := hd.ended f (h.faults.subset hf)

/-- Below the limit, a report adds a fault and nothing else. -/
theorem report_of_few {offset : Nat} {cause : Cause}
    (h : (c.report offset cause).faults.length < Fault.limit) :
    c.report offset cause = { c with faults := c.faults ++ [⟨cause, offset⟩] } := by
  unfold report at h ⊢
  split at h
  · next hfull => exact absurd hfull (Nat.not_le.mpr h)
  · next hroom =>
    split at h
    · next hlast =>
      rw [List.length_append] at h
      exact absurd hlast (Nat.not_le.mpr h)
    · next hlast => rw [if_neg hroom, if_neg hlast]

theorem mem_faults_report {offset : Nat} {cause : Cause}
    (h : (c.report offset cause).faults.length < Fault.limit) :
    ⟨cause, offset⟩ ∈ (c.report offset cause).faults := by
  rw [report_of_few h]
  exact List.mem_append_right _ (List.mem_singleton_self _)

theorem report_followed {offset : Nat} {cause : Cause} (h : (c.report offset cause).Contained) :
    (c.followed more size).report offset cause = (c.report offset cause).followed more size ∧
      (c.report offset cause).rest = c.rest := by
  have hreport := report_of_few h.few
  have hroom : ¬ Fault.limit ≤ c.faults.length + 1 := by
    have hfew := h.few
    rw [hreport, List.length_append] at hfew
    exact Nat.not_le.mpr hfew
  refine ⟨?_, by rw [hreport]⟩
  rw [hreport]
  unfold report followed
  dsimp only
  rw [if_neg (by omega), if_neg hroom]

/-! ## Steps -/

theorem advance_followed {n : Nat} (h : n ≤ c.rest.length) :
    (c.followed more size).advance n = (c.advance n).followed more size := by
  unfold advance followed
  dsimp only
  rw [List.drop_append_of_le_length h, List.take_append_of_le_length h]

theorem kindAt_followed {n : Nat} (h : n < c.rest.length) :
    (c.followed more size).kindAt n = c.kindAt n := by
  unfold kindAt followed
  dsimp only
  rw [List.getElem?_append_left h]

theorem offset_followed (h : EndsLine c.rest) : (c.followed more size).offset = c.offset := by
  obtain ⟨t, ts, hcons⟩ := List.exists_cons_of_ne_nil h.ne_nil
  unfold offset followed
  simp [hcons]

theorem reportHere_followed {cause : Cause} (hc : EndsLine c.rest)
    (h : (c.reportHere cause).Contained) :
    (c.followed more size).reportHere cause = (c.reportHere cause).followed more size ∧
      EndsLine (c.reportHere cause).rest := by
  obtain ⟨hreport, hrest⟩ := @report_followed more size c _ _ h
  refine ⟨?_, hrest.symm ▸ hc⟩
  unfold reportHere
  rw [offset_followed hc, hreport]

/-- A fault that is contained is not noted at the end of the text. -/
theorem rest_ne_nil_of_reportHere {cause : Cause} (h : (c.reportHere cause).Contained) :
    c.rest ≠ [] := by
  intro hnil
  have hinside := h.inside _ (mem_faults_report h.few)
  rw [(ahead_reportHere c cause).size] at hinside
  unfold offset at hinside
  rw [hnil] at hinside
  exact absurd hinside (Nat.lt_irrefl _)

theorem length_pos (h : EndsLine c.rest) : 0 < c.rest.length := List.length_pos_iff.mpr h.ne_nil

theorem kindAt_zero_followed (h : EndsLine c.rest) :
    (c.followed more size).kindAt 0 = c.kindAt 0 := kindAt_followed (length_pos h)

theorem advance_one_followed (h : EndsLine c.rest) :
    (c.followed more size).advance 1 = (c.advance 1).followed more size :=
  advance_followed (length_pos h)

/-- Behind a token that is no line break, the line goes on. -/
theorem endsLine_advance {kind : Token.Kind} (h : EndsLine c.rest) (hkind : c.kindAt 0 = some kind)
    (hne : kind ≠ .newline) : EndsLine (c.advance 1).rest := by
  obtain ⟨t, ts, hcons, rfl⟩ := exists_of_kindAt hkind
  rw [hcons] at h
  unfold advance
  dsimp only
  rw [hcons]
  exact h.tail hne

theorem one_lt_length {kind : Token.Kind} (h : EndsLine c.rest) (hkind : c.kindAt 0 = some kind)
    (hne : kind ≠ .newline) : 1 < c.rest.length := by
  have hpos := length_pos (endsLine_advance h hkind hne)
  rw [length_advance] at hpos
  omega

theorem endsLine_advance_two {kind kind' : Token.Kind} (h : EndsLine c.rest)
    (hkind : c.kindAt 0 = some kind) (hne : kind ≠ .newline) (hkind' : c.kindAt 1 = some kind')
    (hne' : kind' ≠ .newline) : EndsLine (c.advance 2).rest ∧ 2 < c.rest.length := by
  have hfirst := endsLine_advance h hkind hne
  have hnext : (c.advance 1).kindAt 0 = some kind' := by rw [kindAt_advance, hkind']
  have hlength := one_lt_length hfirst hnext hne'
  rw [length_advance] at hlength
  rw [← advance_advance c 1 1]
  exact ⟨endsLine_advance hfirst hnext hne', by omega⟩

theorem wholeLines_advance (h : EndsLine c.rest) (n : Nat) : WholeLines (c.advance n).rest :=
  Token.wholeLines_drop h n

theorem skipWhile_followed {p : Token.Kind → Bool} (h : EndsLine c.rest) (hp : p .newline = false) :
    (c.followed more size).skipWhile p = (c.skipWhile p).followed more size ∧
      EndsLine (c.skipWhile p).rest := by
  have hp' : ∀ t : Token, t.kind = .newline → p t.kind = false := fun t ht => ht ▸ hp
  have hlt := h.length_takeWhile_lt hp'
  refine ⟨?_, h.drop hlt⟩
  unfold skipWhile
  have htake : ((c.followed more size).rest.takeWhile fun t => p t.kind) =
      c.rest.takeWhile fun t => p t.kind := h.takeWhile_append hp'
  rw [htake, advance_followed (Nat.le_of_lt hlt)]

theorem skipBlanks_followed (h : EndsLine c.rest) :
    (c.followed more size).skipBlanks = c.skipBlanks.followed more size ∧
      EndsLine c.skipBlanks.rest := skipWhile_followed h rfl

theorem line_followed (h : EndsLine c.rest) : (c.followed more size).line = c.line :=
  h.takeWhile_append fun t ht => by simp [ht]

theorem skipLine_followed (h : EndsLine c.rest) :
    (c.followed more size).skipLine = c.skipLine.followed more size ∧ EndsLine c.skipLine.rest :=
  @skipWhile_followed more size c (fun kind => kind != .newline) h rfl

theorem comment_followed (h : EndsLine c.rest) (hhash : c.kindAt 0 = some .hash) :
    (c.followed more size).comment = c.comment.followed more size ∧ WholeLines c.comment.rest := by
  have hbody := endsLine_advance h hhash nofun
  obtain ⟨hskip, hend⟩ := @skipLine_followed more size _ hbody
  refine ⟨?_, wholeLines_advance hend 1⟩
  unfold comment
  dsimp only
  rw [advance_one_followed h, line_followed hbody, hskip, advance_one_followed hend,
    offset_followed h]
  rfl

theorem bareName_followed {dollar : Nat} (h : EndsLine c.rest)
    (hfaults : (c.bareName dollar).2.2.Contained) :
    (c.followed more size).bareName dollar =
        ((c.bareName dollar).1, (c.bareName dollar).2.1,
          (c.bareName dollar).2.2.followed more size) ∧
      EndsLine (c.bareName dollar).2.2.rest := by
  obtain ⟨t, ts, hcons⟩ := List.exists_cons_of_ne_nil h.ne_nil
  have hfollowed : (c.followed more size).rest = t :: (ts ++ more) := by
    unfold followed
    rw [hcons]
    rfl
  have hkind := kindAt_of_rest hcons
  have hadvance := @advance_one_followed more size c h
  have hoffset := @offset_followed more size c h
  have hnext : t.kind ≠ .newline → EndsLine (c.advance 1).rest := endsLine_advance h hkind
  unfold bareName at hfaults ⊢
  rw [hcons] at hfaults
  rw [hfollowed, hcons]
  dsimp only at hfaults ⊢
  split
  · next hk =>
    rw [hk] at hfaults
    obtain ⟨hreport, hend⟩ := @reportHere_followed more size c _ h hfaults
    exact ⟨by rw [hreport], hend⟩
  · next hk => exact ⟨by rw [hadvance], hnext (by rw [hk]; nofun)⟩
  · next hk =>
    split
    · next x y w htext =>
      have hts := hnext (by rw [hk]; nofun)
      unfold advance at hts
      rw [hcons] at hts
      exact ⟨by rw [hoffset]; rfl, (Token.endsLine_cons hts.ne_nil).mpr hts⟩
    · exact ⟨by rw [hadvance, hoffset], hnext (by rw [hk]; nofun)⟩
  · next hnewline hdollar hidentifier =>
    exact ⟨by rw [hadvance, hoffset], hnext hnewline⟩

theorem closeReference_followed {b : Bracket} {name : Phrase.Body} (h : WholeLines c.rest)
    (hfaults : (c.closeReference b name).Contained) :
    (c.followed more size).closeReference b name = (c.closeReference b name).followed more size ∧
      EndsLine (c.closeReference b name).rest := by
  unfold closeReference at hfaults ⊢
  split at hfaults
  · next hclose =>
    have hend : EndsLine c.rest := by
      refine h.resolve_left fun hnil => ?_
      rw [kindAt_eq_none_iff.mpr hnil] at hclose
      cases hclose
    have hkind : (c.followed more size).kindAt 0 = some b.closing := by
      rw [kindAt_zero_followed hend, hclose]
    rw [if_pos hclose, if_pos hkind, advance_one_followed hend]
    exact ⟨rfl, endsLine_advance hend hclose (by cases b <;> nofun)⟩
  · next hopen =>
    have hend : EndsLine c.rest := h.resolve_left (rest_ne_nil_of_reportHere hfaults)
    have hopen' : (c.followed more size).kindAt 0 ≠ some b.closing := by
      rw [kindAt_zero_followed hend]
      exact hopen
    rw [if_neg hopen, if_neg hopen']
    exact reportHere_followed hend hfaults

/-! ## Phrases -/

/-- The tokens of a phrase are no line breaks. -/
theorem ne_newline_of_takes {t : Token} {text : Text} {depth' : Nat}
    (h : place.Takes depth t text depth') : t.kind ≠ .newline := by
  cases h with
  | closing hdepth hcloses =>
    intro hk
    rw [hk] at hcloses
    cases place with
    | name b => cases b <;> cases hcloses
    | head | prerequisites | line => cases hcloses
  | escape hends hkind =>
    rw [hkind]
    nofun
  | literal hends hkind =>
    intro hk
    rw [hk] at hkind
    cases hkind

theorem ne_newline_of_opening {kind : Option Token.Kind} {b : Bracket}
    (h : Bracket.ofOpening? kind = some b) : ∃ k, kind = some k ∧ k ≠ .newline := by
  unfold Bracket.ofOpening? at h
  split at h
  · exact ⟨_, rfl, nofun⟩
  · exact ⟨_, rfl, nofun⟩
  · cases h

/-- **A phrase in front of another text.** It ends in its line, unless a comment ends it. -/
theorem ReadsBody.followed (h : ReadsBody place depth c body d) (hc : EndsLine c.rest)
    (hd : d.Contained) :
    ReadsBody place depth (c.followed more size) body (d.followed more size) ∧
      WholeLines d.rest ∧ (place.ends .hash = true → EndsLine d.rest) := by
  induction h with
  | finish hstop =>
    refine ⟨.finish ?_, Or.inr hc, fun _ => hc⟩
    rw [kindAt_zero_followed hc]
    exact hstop
  | @literal place depth depth' c d t text body hnext htake hrest ih =>
    obtain ⟨ts, hcons⟩ := List.head?_eq_some_iff.mp hnext
    obtain ⟨hread, hend⟩ :=
      ih (endsLine_advance hc (kindAt_of_rest hcons) (ne_newline_of_takes htake)) hd
    rw [← advance_one_followed hc] at hread
    have hhead : (c.followed more size).rest.head? = some t := by
      unfold Cursor.followed
      simp [hcons]
    exact ⟨.literal hhead htake hread, hend⟩
  | @backslash place depth c hnext =>
    obtain ⟨hreport, hend⟩ :=
      @reportHere_followed more size c _ hc ((ahead_advance _ 1).contained hd)
    have hkind : (c.reportHere .nothingToEscape).kindAt 0 = some .backslash := by
      have hrest : (c.reportHere .nothingToEscape).rest = c.rest :=
        (@report_followed more size c _ _ ((ahead_advance _ 1).contained hd)).2
      unfold kindAt at hnext ⊢
      rw [hrest, hnext]
    have hbehind := endsLine_advance hend hkind nofun
    refine ⟨?_, Or.inr hbehind, fun _ => hbehind⟩
    rw [← advance_one_followed hend, ← hreport]
    exact .backslash ((kindAt_zero_followed hc).trans hnext)
  | @comment place depth c hnext hends =>
    obtain ⟨hcomment, hwhole⟩ := @comment_followed more size c hc hnext
    have hkind := @kindAt_zero_followed more size c hc
    refine ⟨hcomment ▸ .comment (hkind.trans hnext) hends, hwhole, fun hends' => ?_⟩
    rw [hends] at hends'
    cases hends'
  | @bracketed place depth c atClose d b name body hnext hopen hname hrest ihname ih =>
    obtain ⟨kind, hkind, hne⟩ := ne_newline_of_opening hopen
    obtain ⟨hinside, hlength⟩ := endsLine_advance_two hc hnext nofun hkind hne
    have hclosed := hrest.ahead.contained hd
    obtain ⟨hname', hwhole, -⟩ :=
      ihname hinside ((ahead_closeReference b name atClose).contained hclosed)
    obtain ⟨hclose, hend⟩ := @closeReference_followed more size atClose b name hwhole hclosed
    obtain ⟨hread, hends⟩ := ih hend hd
    have hadvance := @advance_followed more size c 2 (Nat.le_of_lt hlength)
    rw [← hadvance] at hname'
    rw [← hclose] at hread
    have hresult := ReadsBody.bracketed ((kindAt_zero_followed hc).trans hnext)
      ((congrArg _ (kindAt_followed (Nat.lt_of_succ_lt hlength))).trans hopen) hname' hread
    rw [hadvance, offset_followed hinside, offset_followed hc] at hresult
    exact ⟨hresult, hends⟩
  | @bare place depth c d body hnext hopen hrest ih =>
    have hbehind := endsLine_advance hc hnext nofun
    obtain ⟨hname, hend⟩ := @bareName_followed more size _ c.offset hbehind
      (hrest.ahead.contained hd)
    obtain ⟨hread, hends⟩ := ih hend hd
    have hname' : ((c.followed more size).advance 1).bareName (c.followed more size).offset =
        (((c.advance 1).bareName c.offset).1, ((c.advance 1).bareName c.offset).2.1,
          ((c.advance 1).bareName c.offset).2.2.followed more size) := by
      rw [advance_one_followed hc, offset_followed hc]
      exact hname
    have hlength := one_lt_length hc hnext nofun
    have hresult := @ReadsBody.bare place depth (c.followed more size) _ _
      ((kindAt_zero_followed hc).trans hnext)
      ((congrArg _ (kindAt_followed hlength)).trans hopen) (by rw [hname']; exact hread)
    rw [hname', offset_followed hc] at hresult
    exact ⟨hresult, hends⟩

/-- A phrase in front of another text, as it is read. -/
theorem phrase_followed {place : Place} (hc : EndsLine c.rest)
    (hd : (c.phrase place).2.Contained) :
    (c.followed more size).phrase place =
        ((c.phrase place).1, (c.phrase place).2.followed more size) ∧
      WholeLines (c.phrase place).2.rest ∧
      (place.ends .hash = true → EndsLine (c.phrase place).2.rest) := by
  obtain ⟨hread, hends⟩ := (reads_phrase place c).followed hc hd
  refine ⟨?_, hends⟩
  rw [hread.phrase_eq, offset_followed hc]
  rfl

/-- Prerequisites in front of another text. -/
theorem ReadsPrerequisites.followed (h : ReadsPrerequisites c body d) (hc : EndsLine c.rest)
    (hd : d.Contained) :
    ReadsPrerequisites (c.followed more size) body (d.followed more size) ∧ EndsLine d.rest := by
  -- The colon that goes on with the prerequisites is told by the two tokens that are next.
  have hcolons : ∀ {mid : Cursor}, EndsLine mid.rest →
      ((mid.followed more size).kindAt 0 = some .colon ∧
          (mid.followed more size).kindAt 1 ≠ some .equals ↔
        mid.kindAt 0 = some .colon ∧ mid.kindAt 1 ≠ some .equals) := by
    intro mid hmid
    rw [kindAt_zero_followed hmid]
    refine and_congr_right fun hcolon => ?_
    rw [kindAt_followed (one_lt_length hmid hcolon nofun)]
  induction h with
  | last hbody hstop =>
    obtain ⟨hread, -, hend⟩ := hbody.followed hc hd
    exact ⟨.last hread (mt (hcolons (hend rfl)).mp hstop), hend rfl⟩
  | @more c mid d first body hfirst hcolon hrest ih =>
    have hmid : mid.Contained := ((ahead_advance mid 1).trans hrest.ahead).contained hd
    obtain ⟨hread, -, hend⟩ := hfirst.followed hc hmid
    obtain ⟨hlast, hresult⟩ := ih (endsLine_advance (hend rfl) hcolon.1 nofun) hd
    rw [← advance_one_followed (hend rfl)] at hlast
    exact ⟨.more hread ((hcolons (hend rfl)).mpr hcolon) hlast, hresult⟩

/-! ## Directives and assignments -/

/-- A block in front of another text. -/
theorem defineArguments_followed (hc : EndsLine c.rest) (hformed : ∀ t ∈ c.rest, t.Formed)
    (hd : c.defineArguments.2.Contained) :
    (c.followed more size).defineArguments =
        (c.defineArguments.1, c.defineArguments.2.followed more size) ∧
      WholeLines c.defineArguments.2.rest := by
  obtain ⟨hskip, hend⟩ := @skipBlanks_followed more size c hc
  have hformed' : ∀ t ∈ c.skipBlanks.rest, t.Formed :=
    fun t ht => hformed t (List.mem_of_mem_drop ht)
  have htext : textOf (c.skipBlanks.followed more size).rest =
      textOf c.skipBlanks.rest ++ textOf more := Token.textOf_append _ _
  unfold defineArguments at hd ⊢
  dsimp only at hd ⊢
  rw [hskip, htext, offset_followed hend]
  cases hblock : blockEnd? (textOf c.skipBlanks.rest) with
  | none =>
    rw [hblock] at hd
    have hreported : (c.skipBlanks.reportHere .endlessDefine).Contained :=
      (ahead_advance _ _).contained hd
    exact absurd rfl (hreported.ended _ (mem_faults_report hreported.few))
  | some r =>
    obtain ⟨body, length⟩ := r
    obtain ⟨htokens, hle⟩ :=
      @tokensBefore_append c.skipBlanks.rest more length (le_of_blockEnd? hblock)
    rw [blockEnd?_append (Token.endsWithBreak_textOf hend hformed') hblock]
    refine ⟨?_, wholeLines_advance hend _⟩
    have hadvance := @advance_followed more size c.skipBlanks _ hle
    rw [← htokens] at hadvance
    exact congrArg (_, ·) (hadvance.trans (by rw [htokens]))

theorem directiveArguments_followed {keyword : Keyword} (hc : EndsLine c.rest)
    (hformed : ∀ t ∈ c.rest, t.Formed) (hd : (c.directiveArguments keyword).2.Contained) :
    (c.followed more size).directiveArguments keyword =
        ((c.directiveArguments keyword).1, (c.directiveArguments keyword).2.followed more size) ∧
      WholeLines (c.directiveArguments keyword).2.rest := by
  unfold directiveArguments at hd ⊢
  split
  · exact ⟨by rw [offset_followed hc], Or.inr hc⟩
  · exact ⟨by rw [offset_followed hc], Or.inr hc⟩
  · exact ⟨by rw [offset_followed hc], Or.inr hc⟩
  · exact defineArguments_followed hc hformed hd
  · next h₁ h₂ h₃ h₄ =>
    obtain ⟨hskip, hend⟩ := @skipBlanks_followed more size c hc
    have hphrase : (c.skipBlanks.phrase .line).2.Contained := by
      cases keyword <;> first | exact hd | contradiction
    obtain ⟨hread, hwhole, -⟩ := @phrase_followed more size _ .line hend hphrase
    rw [hskip, hread]
    exact ⟨rfl, hwhole⟩

theorem keyword?_followed (hc : EndsLine c.rest) :
    (c.followed more size).keyword? = c.keyword? := by
  obtain ⟨⟨kind, word⟩, ts, hcons⟩ := List.exists_cons_of_ne_nil hc.ne_nil
  have hfollowed : (c.followed more size).rest = ⟨kind, word⟩ :: (ts ++ more) := by
    unfold followed
    rw [hcons]
    rfl
  unfold keyword?
  rw [hfollowed, hcons]
  cases kind with
  | identifier =>
    dsimp only
    rw [hcons] at hc
    rw [(hc.tail nofun).head?_dropWhile_append fun t ht => by rw [ht]; rfl]
  | whitespace | tab | newline | dollar | leftParen | rightParen | leftBrace | rightBrace | colon
  | equals | plus | question | hash | semicolon | pipe | backslash | escape => rfl

theorem directive_followed {keyword : Keyword} (hc : EndsLine c.rest)
    (hformed : ∀ t ∈ c.rest, t.Formed) (hkeyword : c.keyword? = some keyword)
    (hd : (c.directive keyword).Contained) :
    (c.followed more size).directive keyword = (c.directive keyword).followed more size ∧
      WholeLines (c.directive keyword).rest := by
  have harguments := endsLine_advance hc (kindAt_of_keyword hkeyword) nofun
  have hformed' : ∀ t ∈ (c.advance 1).rest, t.Formed :=
    fun t ht => hformed t (List.mem_of_mem_drop ht)
  obtain ⟨hread, hwhole⟩ := @directiveArguments_followed more size _ keyword harguments hformed'
    ((ahead_record _ _ _).contained hd)
  refine ⟨?_, hwhole⟩
  unfold directive
  rw [advance_one_followed hc, hread, offset_followed hc]
  rfl

theorem assignment_followed {op : AssignOp} {target : Option Phrase} {name : Phrase}
    (hc : EndsLine c.rest) (hequals : c.kindAt 0 = some .equals)
    (hd : (c.assignment op target name).Contained) :
    (c.followed more size).assignment op target name =
        (c.assignment op target name).followed more size ∧
      WholeLines (c.assignment op target name).rest := by
  have hvalue := endsLine_advance hc hequals nofun
  obtain ⟨hread, hwhole, -⟩ := @phrase_followed more size _ .line hvalue
    ((ahead_assignment_value op target name c).contained hd)
  unfold assignment at hd ⊢
  rw [advance_one_followed hc, hread]
  dsimp only at hd ⊢
  split at hd
  · next hname =>
    rw [if_pos hname, if_pos hname]
    obtain ⟨hreport, hrest⟩ := @report_followed more size _ _ _ hd
    exact ⟨hreport, hrest.symm ▸ hwhole⟩
  · next hname =>
    rw [if_neg hname, if_neg hname]
    exact ⟨rfl, hwhole⟩

/-! ## Recipes -/

theorem breaks_followed (hmore : LeavesRecipe more) (c : Cursor) :
    (c.followed more size).breaks = c.breaks := by
  have htake : ((c.followed more size).rest.takeWhile fun t => t.kind == .newline) =
      c.rest.takeWhile fun t => t.kind == .newline :=
    takeWhile_append_of_head? fun t ht => by simpa using (hmore t ht).2.1
  unfold breaks
  rw [htake]

/-- The token behind line breaks is a tab if it is one without the text behind. -/
theorem kindAt_breaks_followed (hmore : LeavesRecipe more) (c : Cursor) :
    (c.followed more size).kindAt (c.followed more size).breaks = some .tab ↔
      c.kindAt c.breaks = some .tab := by
  rw [breaks_followed hmore]
  have hle : c.breaks ≤ c.rest.length := (List.takeWhile_prefix _).length_le
  rcases Nat.lt_or_eq_of_le hle with hlt | heq
  · rw [kindAt_followed hlt]
  · unfold kindAt followed
    dsimp only
    rw [heq, List.getElem?_append_right (Nat.le_refl _), Nat.sub_self, ← List.head?_eq_getElem?,
      List.getElem?_eq_none (Nat.le_refl _)]
    cases hhead : more.head? with
    | none => rfl
    | some t => simpa using (hmore t hhead).1

theorem keyword?_of_leavesRecipe (hmore : LeavesRecipe more) (hrest : c.rest = more) :
    c.keyword? = none := by
  unfold keyword?
  split
  · next word ts hcons =>
    have hword := (hmore ⟨.identifier, word⟩ (by rw [← hrest, hcons]; rfl)).2.2 rfl
    rw [hword]
    split
    · split <;> rfl
    · rfl
  · rfl

theorem skipBreak_followed (hmore : LeavesRecipe more) (hc : WholeLines c.rest) :
    (c.followed more size).skipBreak = c.skipBreak.followed more size ∧
      WholeLines c.skipBreak.rest := by
  unfold skipBreak
  rcases hc with hnil | hend
  · have hnext : (c.followed more size).kindAt 0 ≠ some .newline := by
      unfold kindAt followed
      dsimp only
      rw [hnil, List.nil_append, ← List.head?_eq_getElem?]
      cases hhead : more.head? with
      | none => nofun
      | some t => simpa using (hmore t hhead).2.1
    rw [if_neg hnext, if_neg (by rw [kindAt_eq_none_iff.mpr hnil]; nofun)]
    exact ⟨rfl, Or.inl hnil⟩
  · rw [kindAt_zero_followed hend, advance_one_followed hend]
    split
    · exact ⟨rfl, wholeLines_advance hend 1⟩
    · exact ⟨rfl, Or.inr hend⟩

theorem recipeLine_followed (hc : EndsLine c.rest) :
    (c.followed more size).recipeLine = (c.recipeLine.1, c.recipeLine.2.followed more size) ∧
      WholeLines c.recipeLine.2.rest := by
  obtain ⟨hskip, hend⟩ := @skipLine_followed more size c hc
  refine ⟨?_, wholeLines_advance hend 1⟩
  have hline : (c.skipLine.followed more size).rest.isEmpty = c.skipLine.rest.isEmpty := by
    obtain ⟨t, ts, hcons⟩ := List.exists_cons_of_ne_nil hend.ne_nil
    unfold followed
    rw [hcons]
    rfl
  unfold recipeLine
  dsimp only
  rw [hskip, line_followed hc, hline, advance_one_followed hend]

/-- **A recipe in front of another text.** -/
theorem ReadsRecipe.followed {lines : Text} (h : ReadsRecipe c lines d) (hc : StandsIn source c)
    (hwhole : WholeLines c.rest) (hd : d.Contained) (hmore : LeavesRecipe more) :
    ReadsRecipe (c.followed more size) lines (d.followed more size) ∧ WholeLines d.rest := by
  induction h with
  | @line c d lines htab hrest ih =>
    have hlt : c.breaks < c.rest.length := by
      by_contra hle
      unfold kindAt at htab
      rw [List.getElem?_eq_none (Nat.not_lt.mp hle)] at htab
      cases htab
    have hend : EndsLine c.rest := hwhole.resolve_left fun hnil => by simp [hnil] at hlt
    have hinside : EndsLine (c.advance (c.breaks + 1)).rest := by
      rw [← advance_advance]
      refine endsLine_advance (hend.drop hlt) ?_ (nofun : Token.Kind.tab ≠ .newline)
      rw [kindAt_advance]
      exact htab
    obtain ⟨hline, hnext⟩ := @recipeLine_followed more size _ hinside
    obtain ⟨hread, hresult⟩ := ih (finds_recipeLine (hc.advance _)).stands hnext hd
    have hmoved : ((c.followed more size).advance ((c.followed more size).breaks + 1)).recipeLine =
        ((c.advance (c.breaks + 1)).recipeLine.1,
          (c.advance (c.breaks + 1)).recipeLine.2.followed more size) := by
      rw [breaks_followed hmore, advance_followed hlt, hline]
    have hread' := @ReadsRecipe.line (c.followed more size) _ lines
      ((kindAt_breaks_followed hmore c).mpr htab) (by rw [hmoved]; exact hread)
    rw [hmoved] at hread'
    exact ⟨hread', hresult⟩
  | @directive c d lines keyword htab hkeyword hrest ih =>
    have hend : EndsLine c.rest := by
      refine hwhole.resolve_left fun hnil => ?_
      obtain ⟨ts, hcons⟩ := exists_of_keyword hkeyword
      rw [hnil] at hcons
      cases hcons
    have hfaults := ((ahead_skipBreak _).trans hrest.ahead).contained hd
    obtain ⟨hdirective, hbehind⟩ :=
      @directive_followed more size c keyword hend hc.formed hkeyword hfaults
    obtain ⟨arguments, cs, hfinds⟩ := finds_directive hc hkeyword
    obtain ⟨hbreak, hnext⟩ := @skipBreak_followed more size _ hmore hbehind
    obtain ⟨hread, hresult⟩ := ih (finds_skipBreak hfinds.stands).stands hnext hd
    rw [← hbreak, ← hdirective] at hread
    exact ⟨.directive (mt (kindAt_breaks_followed hmore c).mp htab)
      ((keyword?_followed hend).trans hkeyword) hread, hresult⟩
  | @stop c htab hkeyword =>
    refine ⟨.stop (mt (kindAt_breaks_followed hmore c).mp htab) ?_, hwhole⟩
    rcases hwhole with hnil | hend
    · refine keyword?_of_leavesRecipe hmore ?_
      unfold Cursor.followed
      rw [hnil, List.nil_append]
    · rw [keyword?_followed hend, hkeyword]

theorem recipe_followed {target prerequisites : Phrase} {firstLine : Bool} (hc : StandsIn source c)
    (hwhole : WholeLines c.rest) (hend : firstLine = true → EndsLine c.rest)
    (hd : (c.recipe target prerequisites firstLine).Contained) (hmore : LeavesRecipe more) :
    (c.followed more size).recipe target prerequisites firstLine =
        (c.recipe target prerequisites firstLine).followed more size ∧
      WholeLines (c.recipe target prerequisites firstLine).rest := by
  have hstart : recipeStart firstLine (c.followed more size) =
      ((recipeStart firstLine c).1, (recipeStart firstLine c).2.followed more size) ∧
        WholeLines (recipeStart firstLine c).2.rest := by
    unfold recipeStart
    cases firstLine with
    | true => exact recipeLine_followed (hend rfl)
    | false => exact ⟨rfl, hwhole⟩
  obtain ⟨lines, d, hlines, heq⟩ := exists_recipe target prerequisites firstLine c
  rw [heq] at hd ⊢
  have hstands : StandsIn source { (recipeStart firstLine c).2 with statements := [] } :=
    (finds_recipeStart firstLine hc).stands.congr rfl rfl rfl
  obtain ⟨hread, hresult⟩ := @ReadsRecipe.followed source more size _ d lines hlines hstands
    hstart.2 (hd.congr rfl rfl) hmore
  have hread' : ReadsRecipe
      { (recipeStart firstLine (c.followed more size)).2 with statements := [] } lines
      (d.followed more size) := by
    rw [hstart.1]
    exact hread
  rw [hread'.recipe_eq, hstart.1]
  exact ⟨rfl, hresult⟩

/-! ## Rules -/

theorem OpensRecipe.followed {firstLine : Bool} (h : OpensRecipe c firstLine d)
    (hc : EndsLine c.rest) (hd : d.Contained) :
    OpensRecipe (c.followed more size) firstLine (d.followed more size) ∧ WholeLines d.rest ∧
      (firstLine = true → EndsLine d.rest) := by
  have hkind := @kindAt_zero_followed more size c hc
  cases h with
  | semicolon hnext =>
    obtain ⟨hskip, hend⟩ :=
      @skipBlanks_followed more size _ (endsLine_advance hc hnext nofun)
    refine ⟨?_, Or.inr hend, fun _ => hend⟩
    rw [← hskip, ← advance_one_followed hc]
    exact .semicolon (hkind.trans hnext)
  | newline hnext =>
    refine ⟨?_, wholeLines_advance hc 1, nofun⟩
    rw [← advance_one_followed hc]
    exact .newline (hkind.trans hnext)
  | comment hnext =>
    obtain ⟨hcomment, hwhole⟩ := @comment_followed more size c hc hnext
    refine ⟨?_, hwhole, nofun⟩
    rw [← hcomment]
    exact .comment (hkind.trans hnext)
  | nothing hnext => exact absurd (kindAt_eq_none_iff.mp hnext) hc.ne_nil
  | unexpected kind hnext hne =>
    obtain ⟨hreport, hend⟩ := @reportHere_followed more size c _ hc hd
    rw [← hreport]
    exact ⟨.unexpected kind (hkind.trans hnext) hne, Or.inr hend, fun _ => hend⟩

/-- Prerequisites that end with a colon end with an operator. -/
theorem ReadsPrerequisites.kindAt_one (h : ReadsPrerequisites c body d)
    (hcolon : d.kindAt 0 = some .colon) : d.kindAt 1 = some .equals := by
  induction h with
  | last hbody hstop => exact Decidable.byContradiction fun hne => hstop ⟨hcolon, hne⟩
  | more hfirst hcolon' hrest ih => exact ih hcolon

theorem rule_followed {target : Phrase} (hc : StandsIn source c) (hend : EndsLine c.rest)
    (hd : (c.rule target).Contained) (hmore : LeavesRecipe more) :
    (c.followed more size).rule target = (c.rule target).followed more size ∧
      WholeLines (c.rule target).rest := by
  obtain ⟨hskip, hskipped⟩ := @skipBlanks_followed more size c hend
  have hoffset := @offset_followed more size _ hskipped
  have hrule := readsRule_rule target c
  generalize c.rule target = d at hrule hd
  suffices h : ReadsRule target (c.followed more size) (d.followed more size) ∧
      WholeLines d.rest from ⟨h.1.eq_rule, h.2⟩
  cases hrule with
  | @assignment mid body hbody hnext =>
    have hmid := ((ahead_advance mid 1).trans (ahead_assignment _ _ _ _)).contained hd
    obtain ⟨hread, hends⟩ := hbody.followed hskipped hmid
    rw [← hskip] at hread
    obtain ⟨hassignment, hwhole⟩ := @assignment_followed more size _ _ _ _ hends hnext hd
    refine ⟨?_, hwhole⟩
    rw [← hassignment, ← hoffset, ← hskip]
    exact .assignment hread ((kindAt_zero_followed hends).trans hnext)
  | @simple mid body hbody hnext =>
    have hmid := (((ahead_advance mid 1).trans (ahead_advance _ 1)).trans
      (ahead_assignment _ _ _ _)).contained hd
    obtain ⟨hread, hends⟩ := hbody.followed hskipped hmid
    rw [← hskip] at hread
    have hequals : (mid.advance 1).kindAt 0 = some .equals := by
      rw [kindAt_advance]
      exact hbody.kindAt_one hnext
    obtain ⟨hassignment, hwhole⟩ := @assignment_followed more size _ _ _ _
      (endsLine_advance hends hnext nofun) hequals hd
    refine ⟨?_, hwhole⟩
    rw [← hassignment, ← hoffset, ← hskip, ← advance_one_followed hends]
    exact .simple hread ((kindAt_zero_followed hends).trans hnext)
  | @recipe mid next body firstLine hbody hopens =>
    have hnext := (ahead_recipe _ _ _ _).contained hd
    obtain ⟨cs, hfinds⟩ := hbody.finds (hc.advance _)
    obtain ⟨cs', hfinds'⟩ := hopens.finds hfinds.stands
    obtain ⟨hread, hends⟩ := hbody.followed hskipped (hfinds'.ahead.contained hnext)
    rw [← hskip] at hread
    obtain ⟨hopens', hwhole, hline⟩ := hopens.followed hends hnext
    obtain ⟨hrecipe, hresult⟩ := @recipe_followed source more size next _ _ firstLine hfinds'.stands
      hwhole hline hd hmore
    refine ⟨?_, hresult⟩
    rw [← hrecipe, ← hoffset, ← hskip]
    exact .recipe hread hopens'

/-! ## Lines -/

theorem ReadsOperator.followed {op : AssignOp} (h : ReadsOperator c op d) (hc : EndsLine c.rest) :
    ReadsOperator (c.followed more size) op (d.followed more size) ∧ EndsLine d.rest := by
  have hkind := @kindAt_zero_followed more size c hc
  cases h with
  | recursive hequals => exact ⟨.recursive (hkind.trans hequals), hc⟩
  | conditional hquestion hequals =>
    have hlength := one_lt_length hc hquestion nofun
    rw [← advance_one_followed hc]
    exact ⟨.conditional (hkind.trans hquestion) ((kindAt_followed hlength).trans hequals),
      endsLine_advance hc hquestion nofun⟩
  | simple hcolon hequals =>
    have hlength := one_lt_length hc hcolon nofun
    rw [← advance_one_followed hc]
    exact ⟨.simple (hkind.trans hcolon) ((kindAt_followed hlength).trans hequals),
      endsLine_advance hc hcolon nofun⟩
  | double hcolon hcolon' hequals =>
    obtain ⟨hend, hlength⟩ := endsLine_advance_two hc hcolon nofun hcolon' nofun
    rw [← advance_followed (Nat.le_of_lt hlength)]
    exact ⟨.double (hkind.trans hcolon)
      ((kindAt_followed (Nat.lt_of_succ_lt hlength)).trans hcolon')
      ((kindAt_followed hlength).trans hequals), hend⟩

theorem ReadsColons.followed (h : ReadsColons c d) (hc : EndsLine c.rest) :
    ReadsColons (c.followed more size) (d.followed more size) ∧ EndsLine d.rest := by
  have hkind := @kindAt_zero_followed more size c hc
  cases h with
  | single hcolon hequals hcolon' =>
    have hnext := @kindAt_followed more size c 1 (one_lt_length hc hcolon nofun)
    rw [← advance_one_followed hc]
    exact ⟨.single (hkind.trans hcolon) (hnext ▸ hequals) (hnext ▸ hcolon'),
      endsLine_advance hc hcolon nofun⟩
  | double hcolon hcolon' hequals =>
    obtain ⟨hend, hlength⟩ := endsLine_advance_two hc hcolon nofun hcolon' nofun
    rw [← advance_followed (Nat.le_of_lt hlength)]
    exact ⟨.double (hkind.trans hcolon)
      ((kindAt_followed (Nat.lt_of_succ_lt hlength)).trans hcolon')
      ((kindAt_followed hlength).symm ▸ hequals), hend⟩

theorem loneLine_followed {phrase : Phrase} (hc : EndsLine c.rest)
    (hd : (c.loneLine phrase).Contained) :
    (c.followed more size).loneLine phrase = (c.loneLine phrase).followed more size ∧
      WholeLines (c.loneLine phrase).rest := by
  have hnoted : (c.followed more size).noted phrase = (c.noted phrase).followed more size ∧
      EndsLine (c.noted phrase).rest := by
    have hfaults := (ahead_endLine (c.noted phrase)).contained hd
    unfold noted at hfaults ⊢
    cases hsole : phrase.soleReference? with
    | some r => exact ⟨rfl, hc⟩
    | none =>
      rw [hsole] at hfaults
      dsimp only at hfaults ⊢
      split at hfaults
      · next hempty =>
        rw [if_pos hempty, if_pos hempty]
        exact ⟨rfl, hc⟩
      · next hempty =>
        rw [if_neg hempty, if_neg hempty]
        obtain ⟨hreport, hrest⟩ := @report_followed more size c _ _ hfaults
        exact ⟨hreport, hrest.symm ▸ hc⟩
  rw [loneLine_eq, loneLine_eq, hnoted.1]
  unfold endLine
  rw [kindAt_zero_followed hnoted.2, advance_one_followed hnoted.2]
  split
  · next hhash => exact comment_followed hnoted.2 hhash
  · exact ⟨rfl, wholeLines_advance hnoted.2 1⟩

/-- **A statement in front of another text.** -/
theorem statement_followed (hc : StandsIn source c) (hend : EndsLine c.rest)
    (hd : c.statement.Contained) (hmore : LeavesRecipe more) :
    (c.followed more size).statement = c.statement.followed more size ∧
      WholeLines c.statement.rest := by
  have hkeyword' := @keyword?_followed more size c hend
  have hoffset := @offset_followed more size c hend
  have hstatement := readsStatement_statement c
  generalize c.statement = d at hstatement hd
  suffices h : ReadsStatement (c.followed more size) (d.followed more size) ∧ WholeLines d.rest from
    ⟨h.1.eq_statement, h.2⟩
  cases hstatement with
  | directive hkeyword =>
    obtain ⟨hdirective, hwhole⟩ := @directive_followed more size c _ hend hc.formed hkeyword hd
    rw [← hdirective]
    exact ⟨.directive (hkeyword'.trans hkeyword), hwhole⟩
  | @assignment mid next head op hkeyword hhead hop =>
    have hmid := ((hop.ahead.trans (ahead_advance _ 1)).trans
      (ahead_assignment _ _ _ _)).contained hd
    obtain ⟨hread, -, hends⟩ := hhead.followed hend hmid
    obtain ⟨hop', hends'⟩ := hop.followed (hends rfl)
    obtain ⟨hassignment, hwhole⟩ := @assignment_followed more size _ _ _ _ hends' hop.kindAt hd
    refine ⟨?_, hwhole⟩
    rw [← hassignment, ← hoffset]
    exact .assignment (hkeyword'.trans hkeyword) hread hop'
  | @rule mid next head hkeyword hhead hcolons =>
    have hmid := (hcolons.ahead.trans (ahead_rule _ _)).contained hd
    obtain ⟨hread, -, hends⟩ := hhead.followed hend hmid
    obtain ⟨hcolons', hends'⟩ := hcolons.followed (hends rfl)
    obtain ⟨cs, hfinds, -⟩ := hhead.finds hc
    have hstands : StandsIn source next := by
      cases hcolons with
      | single => exact hfinds.stands.advance 1
      | double => exact hfinds.stands.advance 2
    obtain ⟨hrule, hwhole⟩ := @rule_followed source more size next _ hstands hends' hd hmore
    refine ⟨?_, hwhole⟩
    rw [← hrule, ← hoffset]
    exact .rule (hkeyword'.trans hkeyword) hread hcolons'
  | @lone mid head hkeyword hhead hnext =>
    have hmid := (ahead_loneLine _ _).contained hd
    obtain ⟨hread, -, hends⟩ := hhead.followed hend hmid
    obtain ⟨hlone, hwhole⟩ := @loneLine_followed more size mid _ (hends rfl) hd
    refine ⟨?_, hwhole⟩
    rw [← hlone, ← hoffset]
    refine .lone (hkeyword'.trans hkeyword) hread fun kind hkind => hnext kind ?_
    rw [← hkind, kindAt_zero_followed (hends rfl)]
  | @expectedEquals mid head hkeyword hhead hquestion hequals =>
    have hreported := ((ahead_skipLine _).trans (ahead_advance _ 1)).contained hd
    have hmid := ((ahead_advance mid 1).trans (ahead_reportHere _ _)).contained hreported
    obtain ⟨hread, -, hends⟩ := hhead.followed hend hmid
    have hnext := endsLine_advance (hends rfl) hquestion nofun
    obtain ⟨hreport, hends'⟩ := @reportHere_followed more size _ _ hnext hreported
    obtain ⟨hline, hends''⟩ := @skipLine_followed more size _ hends'
    refine ⟨?_, wholeLines_advance hends'' 1⟩
    rw [← advance_one_followed hends'', ← hline, ← hreport, ← advance_one_followed (hends rfl)]
    refine .expectedEquals (hkeyword'.trans hkeyword) hread
      ((kindAt_zero_followed (hends rfl)).trans hquestion) ?_
    rw [kindAt_followed (one_lt_length (hends rfl) hquestion nofun)]
    exact hequals
  | @unexpected mid head kind hkeyword hhead hnext hkind =>
    have hreported := ((ahead_skipLine _).trans (ahead_advance _ 1)).contained hd
    obtain ⟨hread, -, hends⟩ := hhead.followed hend ((ahead_reportHere mid _).contained hreported)
    obtain ⟨hreport, hends'⟩ := @reportHere_followed more size _ _ (hends rfl) hreported
    obtain ⟨hline, hends''⟩ := @skipLine_followed more size _ hends'
    refine ⟨?_, wholeLines_advance hends'' 1⟩
    rw [← advance_one_followed hends'', ← hline, ← hreport]
    exact .unexpected (hkeyword'.trans hkeyword) hread
      ((kindAt_zero_followed (hends rfl)).trans hnext) hkind

/-- Where blanks and line breaks are skipped first, they do not matter. -/
theorem ReadsLines.congr {e : Cursor} (h : ReadsLines c e) (hskip : d.skipSpace = c.skipSpace) :
    ReadsLines d e := by
  cases h with
  | done hrest =>
    rw [← hskip] at hrest ⊢
    exact .done hrest
  | statement hrest hlines =>
    rw [← hskip] at hrest hlines
    exact .statement hrest hlines

theorem skipSpace_eq {ts : List Token} (h : c.rest.takeWhile Token.isSpace = ts) :
    c.skipSpace = c.advance ts.length := by
  rw [← h]
  rfl

/-- Blanks and line breaks at the end go on behind it. -/
theorem skipSpace_followed_of_nil (hrest : c.skipSpace.rest = []) :
    (c.followed more size).skipSpace = (c.skipSpace.followed more size).skipSpace := by
  have hall : c.rest.takeWhile Token.isSpace = c.rest :=
    (List.takeWhile_prefix _).eq_of_length_le (List.drop_eq_nil_iff.mp hrest)
  have htake : (c.followed more size).rest.takeWhile Token.isSpace =
      c.rest ++ more.takeWhile Token.isSpace := by
    unfold followed
    rw [List.takeWhile_append, if_pos (congrArg List.length hall)]
  have hbehind : (c.skipSpace.followed more size).rest.takeWhile Token.isSpace =
      more.takeWhile Token.isSpace := by
    unfold followed
    rw [hrest, List.nil_append]
  rw [skipSpace_eq htake, skipSpace_eq hbehind, skipSpace_eq hall, List.length_append,
    ← advance_advance, advance_followed (Nat.le_refl _)]

/-- Blanks and line breaks in front of a statement end before it. -/
theorem skipSpace_followed (hrest : c.skipSpace.rest ≠ []) :
    (c.followed more size).skipSpace = c.skipSpace.followed more size := by
  have hlt : (c.rest.takeWhile Token.isSpace).length < c.rest.length :=
    Nat.not_le.mp fun hle => hrest (List.drop_eq_nil_iff.mpr hle)
  have htake : (c.followed more size).rest.takeWhile Token.isSpace =
      c.rest.takeWhile Token.isSpace := by
    unfold followed
    rw [List.takeWhile_append, if_neg (Nat.ne_of_lt hlt)]
  rw [skipSpace_eq htake, skipSpace_eq rfl, advance_followed (Nat.le_of_lt hlt)]

/-- **All statements in front of another text** are read before the text. -/
theorem ReadsLines.followed {e : Cursor} (h : ReadsLines c d) (hc : StandsIn source c)
    (hwhole : WholeLines c.rest) (hd : d.Contained) (hmore : LeavesRecipe more)
    (he : ReadsLines (d.followed more size) e) : ReadsLines (c.followed more size) e := by
  induction h with
  | done hrest => exact he.congr (skipSpace_followed_of_nil hrest)
  | @statement c d hrest hlines ih =>
    have hskipped : StandsIn source c.skipSpace := hc.advance _
    have hlt := Nat.not_le.mp fun hle => hrest (List.drop_eq_nil_iff.mpr hle)
    have hend : EndsLine c.skipSpace.rest :=
      (hwhole.resolve_left fun hnil => by simp [hnil] at hlt).drop hlt
    obtain ⟨hstatement, hbehind⟩ := @statement_followed source more size _ hskipped hend
      (hlines.ahead.contained hd) hmore
    have hresult := ih (findsAll_statement hskipped hrest).stands hbehind hd he
    rw [← hstatement, ← skipSpace_followed hrest] at hresult
    exact .statement (by rw [skipSpace_followed hrest]; simp [Cursor.followed, hrest]) hresult

end Cursor

end MakeBlueprint.Makefile
