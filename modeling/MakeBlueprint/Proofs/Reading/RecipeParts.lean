import MakeBlueprint.Proofs.Reading.Loops
import MakeBlueprint.Proofs.Reading.Definitions
import MakeBlueprint.Proofs.Reading.Progress
import MakeBlueprint.Proofs.Reading.Recovery
import MakeBlueprint.Proofs.Reading.Verbatim

/-!
# The lines of a recipe

A recipe goes on over lines that start with a tab and over directives (`RecipePart.GoesOn`). Behind
a directive the reader skips a line break only if it is next. Phrases end with their line, so it is
next behind arguments, or a comment took it. A keyword without arguments takes itself and nothing
else, so what stands behind it matters: a tab there starts a line of the recipe.

* `Token.OneLine`, `Cursor.ReadsBody.ends_line`: a phrase without faults ends on its line.
* `DirectiveLine`: a directive that takes its line. In front of other lines it is the directive that
  is read by itself (`DirectiveLine.skipBreak_eq`).
* `GoesOn.readsRecipe`: one line of a recipe in front of other text.
* `readsRecipe_parts`: **all lines of a recipe**, one after the other.
-/

namespace MakeBlueprint.Makefile

open Text (byteSize withoutBreak dropEndWhile)
open Token (lex textOf kindOf EndsLine)

/-! ## One line -/

namespace Token

variable {ts us : List Token} {t nl : Token} {w : Text}

/-- The tokens are on one line: only the last of them may be a line break. -/
def OneLine (ts : List Token) : Prop := ∀ t ∈ ts.dropLast, t.kind ≠ .newline

theorem OneLine.of_cons (h : OneLine (t :: ts)) : OneLine ts := by
  cases ts with
  | nil => exact nofun
  | cons u us => exact (List.forall_mem_cons.mp h).2

theorem OneLine.drop (h : OneLine ts) (n : Nat) : OneLine (ts.drop n) := by
  induction n generalizing ts with
  | zero => exact h
  | succ n ih =>
    cases ts with
    | nil => exact nofun
    | cons t ts => exact ih h.of_cons

/-- A line break on the line ends it. -/
theorem OneLine.eq_nil (h : OneLine (t :: ts)) (ht : t.kind = .newline) : ts = [] := by
  by_contra hne
  refine h t ?_ ht
  rw [List.dropLast_cons_of_ne_nil hne]
  exact List.mem_cons_self

theorem OneLine.append (h : OneLine ts) (hus : ∀ u ∈ us, u.kind ≠ .newline) :
    OneLine (us ++ ts) := by
  rcases List.eq_nil_or_concat' ts with rfl | ⟨ts, t, rfl⟩
  · rw [List.append_nil]
    exact fun u hu => hus u (List.dropLast_subset us hu)
  · unfold OneLine at h ⊢
    rw [List.dropLast_concat] at h
    rw [← List.append_assoc, List.dropLast_concat]
    exact List.forall_mem_append.mpr ⟨hus, h⟩

theorem ne_backslash_of_not_mem (h : '\\' ∉ w) : ∀ t ∈ lex w, t.kind ≠ .backslash := by
  intro t ht hkind
  have hformed := formed_of_mem_lex w t ht
  rw [Formed, hkind] at hformed
  exact h (mem_of_mem_lex ht (by rw [hformed]; exact List.mem_cons_self))

/-- **The tokens of a line** are those of its text without the line break, and a line break. -/
theorem exists_lex_line (hescape : '\\' ∉ w) : ∃ v nl, withoutBreak (w ++ ['\n']) = v ∧ v <+: w ∧
    nl.kind = .newline ∧ lex (w ++ ['\n']) = lex v ++ [nl] := by
  rcases List.eq_nil_or_concat' w with rfl | ⟨v, x, rfl⟩
  · exact ⟨[], ⟨.newline, ['\n']⟩, rfl, List.prefix_rfl, rfl, rfl⟩
  · by_cases hx : x = '\r'
    · subst hx
      refine ⟨v, ⟨.newline, ['\r', '\n']⟩, by simp [withoutBreak], List.prefix_append _ _, rfl, ?_⟩
      rw [List.append_assoc]
      refine lex_append_of_head (ne_backslash_of_not_mem fun h => hescape ?_) ?_ nofun
      · exact List.mem_append_left _ h
      · rintro _ ⟨⟩
        decide
    · refine ⟨v ++ [x], ⟨.newline, ['\n']⟩, by simp [withoutBreak, hx], List.prefix_rfl, rfl, ?_⟩
      refine lex_append_of_head (ne_backslash_of_not_mem hescape) ?_ fun _ => ?_
      · rintro _ ⟨⟩
        decide
      · rw [List.getLast?_concat]
        exact fun h => hx (Option.some.inj h)

theorem oneLine_lex (hbreak : '\n' ∉ w) (hescape : '\\' ∉ w) : OneLine (lex (w ++ ['\n'])) := by
  obtain ⟨v, nl, -, hpart, -, hlex⟩ := exists_lex_line hescape
  unfold OneLine
  rw [hlex, List.dropLast_concat]
  exact Cursor.ne_newline_of_mem_lex fun h => hbreak (hpart.subset h)

end Token

namespace Cursor

variable {source s t w : Text} {c d : Cursor} {place : Place} {depth n : Nat} {body : Phrase.Body}
  {ss cs : List (Content × Span)} {lines : Text} {keyword : Keyword}

/-- The end of a line is a line break, or the end of the text. -/
theorem kind_of_skipLine {u : Token} {us : List Token} (h : c.skipLine.rest = u :: us) :
    u.kind = .newline := by
  have hskip : c.skipLine = c.past c.line (c.rest.dropWhile fun t => t.kind != .newline) :=
    advance_eq_past _ List.takeWhile_append_dropWhile.symm
  have hrest : c.rest.dropWhile (fun t => t.kind != .newline) = u :: us := by
    rw [← h, hskip]
    rfl
  have hhead := List.head?_dropWhile_not (fun t : Token => t.kind != .newline) c.rest
  rw [hrest] at hhead
  simpa using hhead

/-- **A phrase without faults ends on its line**: a comment takes the end of the line with it, and
otherwise a token is next that ends the phrase. -/
theorem ReadsBody.ends_line (h : ReadsBody place depth c body d) (hc : Token.OneLine c.rest)
    (hd : d.faults = []) : Token.OneLine d.rest ∧
      ∀ kind, d.kindAt 0 = some kind → place.ends kind = true ∨ kind = .newline := by
  induction h with
  | finish hstop => exact ⟨hc, fun kind hkind => (hstop kind hkind).2⟩
  | literal hnext htake hrest ih => exact ih (hc.drop 1) hd
  | backslash hnext => exact absurd hd (faults_report_ne_nil _ _ _)
  | @comment place depth c hnext hends =>
    have hnil : c.comment.rest = [] := by
      have hline : Token.OneLine (c.advance 1).skipLine.rest := (hc.drop 1).drop _
      change (c.advance 1).skipLine.rest.drop 1 = []
      cases hrest : (c.advance 1).skipLine.rest with
      | nil => rfl
      | cons t ts =>
        rw [hrest] at hline
        exact hline.eq_nil (kind_of_skipLine hrest)
    refine ⟨by rw [hnil]; exact nofun, fun kind hkind => ?_⟩
    rw [kindAt_eq_none_iff.mpr hnil] at hkind
    cases hkind
  | @bracketed place depth c atClose d b name body hnext hopen hname hrest ihname ih =>
    have hclosed := hrest.ahead.faults_nil hd
    have hinside := ihname (hc.drop 2) ((ahead_closeReference b name atClose).faults_nil hclosed)
    refine ih ?_ hd
    unfold closeReference at hclosed ⊢
    split at hclosed
    · next hclose =>
      rw [if_pos hclose]
      exact hinside.1.drop 1
    · exact absurd hclosed (faults_report_ne_nil _ _ _)
  | @bare place depth c d body hnext hopen hrest ih =>
    obtain ⟨t, us, hcons, hkind⟩ := exists_token_of_bareName (hrest.ahead.faults_nil hd)
    obtain ⟨pos, e, hname, he, -⟩ := exists_bareName c.offset hcons hkind
    rw [hname] at ih
    have hline : Token.OneLine (t :: us) := hcons ▸ hc.drop 1
    refine ih ?_ hd
    rw [he]
    refine hline.of_cons.append fun u hu => ?_
    rw [Token.identifier_of_mem_bareSplit hu]
    nofun

/-! ## In front of another text -/

/-- A text with whole lines in front of another one. -/
theorem start_append (h : EndsLine (lex s)) (t : Text) :
    start (s ++ t) = (start s).followed (lex t) (byteSize t) := by
  unfold start followed
  rw [Token.lex_append h, Text.byteSize_append]

/-- Behind all of a text, a cursor is where the next text starts. -/
theorem followed_eq_moved (hd : StandsIn s d) (hsize : d.size = byteSize s) (hrest : d.rest = [])
    (hfaults : d.faults = []) (t : Text) : d.followed (lex t) (byteSize t) =
      (start t).moved (byteSize s) d.statements d.comments := by
  have hread : d.read = byteSize s := by
    obtain ⟨before, after, hs, hb, hafter⟩ := hd.placed
    rw [hrest, hfaults] at hafter
    obtain rfl := hafter.resolve_right fun h => absurd h.2 (by decide)
    rw [← hb, hs]
    exact congrArg byteSize (List.append_nil before).symm
  unfold followed moved start
  simp [hrest, hread, hsize, hfaults]

theorem moved_moved_start (t : Text) {m : Nat} {ss' cs' : List (Content × Span)} :
    ((start t).moved m ss cs).moved n ss' cs' =
      (start t).moved (n + m) (ss' ++ ss.map (movedBy n)) (cs' ++ cs.map (movedBy n)) := by
  simp [moved, start, Nat.add_assoc]

/-- Past the tokens of a text, a cursor is where the next text starts. -/
theorem past_eq_moved : ((start (s ++ t)).moved n ss cs).past (lex s) (lex t) =
    (start t).moved (n + byteSize s) ss cs := by
  simp [past, moved, start, Token.textOf_lex, Nat.add_assoc]

/-- The line break behind a directive is skipped, whatever the next line starts with. -/
theorem skipBreak_followed_line (hd : d.skipBreak.rest = [])
    (ht : ∀ u ∈ (lex t).head?, u.kind ≠ .newline) :
    (d.followed (lex t) n).skipBreak = d.skipBreak.followed (lex t) n := by
  unfold skipBreak at hd ⊢
  split at hd
  · next hnext =>
    obtain ⟨u, us, hrest, -⟩ := exists_of_kindAt hnext
    have hlength : 0 < d.rest.length := by simp [hrest]
    rw [if_pos hnext, if_pos ((kindAt_followed hlength).trans hnext), advance_followed hlength]
  · next hnext =>
    have hnext' : (d.followed (lex t) n).kindAt 0 ≠ some .newline := by
      unfold kindAt followed
      dsimp only
      rw [hd, List.nil_append, ← List.head?_eq_getElem?]
      cases hhead : (lex t).head? with
      | none => nofun
      | some u => simpa using ht u hhead
    rw [if_neg hnext, if_neg hnext']

/-! ## Recipe lines -/

/-- A line behind a tab, and the lines behind it. -/
theorem readsRecipe_tab {tab nl : Token} {ts us : List Token}
    (hc : c.rest = tab :: (ts ++ nl :: us)) (htab : tab.kind = .tab)
    (hts : ∀ t ∈ ts, t.kind ≠ .newline) (hnl : nl.kind = .newline)
    (h : ReadsRecipe (c.past (tab :: (ts ++ [nl])) us) lines d) :
    ReadsRecipe c (textOf ts ++ ['\n'] ++ lines) d := by
  have hnext : c.kindAt 0 = some .tab := (kindAt_of_rest hc).trans (congrArg some htab)
  have hbreaks : c.breaks = 0 := by
    unfold breaks
    rw [hc, List.takeWhile_cons_of_neg (by rw [htab]; decide)]
    rfl
  have hone : c.advance 1 = c.past [tab] (ts ++ nl :: us) := advance_eq_past [tab] hc
  have hline : (c.advance 1).line = ts := by
    rw [hone]
    change (ts ++ nl :: us).takeWhile (fun t => t.kind != .newline) = ts
    rw [List.takeWhile_append_of_pos fun t ht => by simpa using hts t ht,
      List.takeWhile_cons_of_neg (by simp [hnl]), List.append_nil]
  have hskip : (c.advance 1).skipLine = c.past (tab :: ts) (nl :: us) := by
    unfold skipLine
    rw [hline, hone, advance_eq_past ts rfl, past_past]
    rfl
  have hbehind : (c.past (tab :: ts) (nl :: us)).advance 1 = c.past (tab :: (ts ++ [nl])) us := by
    refine (@advance_eq_past (c.past (tab :: ts) (nl :: us)) us [nl] rfl).trans ?_
    rw [past_past]
    rfl
  have hrecipe : (c.advance (c.breaks + 1)).recipeLine =
      (textOf ts ++ ['\n'], c.past (tab :: (ts ++ [nl])) us) := by
    rw [hbreaks, Nat.zero_add]
    unfold recipeLine
    rw [hskip, hline]
    exact congrArg (_, ·) hbehind
  have hread := ReadsRecipe.line (hbreaks ▸ hnext) (by rw [hrecipe]; exact h)
  rw [hrecipe] at hread
  exact hread

/-- A line of text behind a tab. -/
theorem readsRecipe_tabbed (hbreak : '\n' ∉ w) (hescape : '\\' ∉ w)
    (h : ReadsRecipe ((start t).moved (n + byteSize ('\t' :: (w ++ ['\n']))) ss cs) lines d) :
    ReadsRecipe ((start ('\t' :: (w ++ ['\n']) ++ t)).moved n ss cs)
      (withoutBreak (w ++ ['\n']) ++ ['\n'] ++ lines) d := by
  obtain ⟨v, nl, hv, hpart, hnl, hlex⟩ := Token.exists_lex_line hescape
  have htab : lex ('\t' :: (w ++ ['\n'])) = ⟨.tab, ['\t']⟩ :: (lex v ++ [nl]) := by
    rw [← hlex]
    exact Token.lex_cons_blank rfl _
  have hend : EndsLine (lex ('\t' :: (w ++ ['\n']))) := by
    rw [htab, ← List.cons_append]
    exact ⟨nl, List.getLast?_concat, hnl⟩
  have hrest : ((start ('\t' :: (w ++ ['\n']) ++ t)).moved n ss cs).rest =
      ⟨.tab, ['\t']⟩ :: (lex v ++ nl :: lex t) := by
    change lex _ = _
    rw [Token.lex_append hend, htab]
    simp
  rw [← past_eq_moved, htab] at h
  have hv' : '\n' ∉ v := fun h => hbreak (hpart.subset h)
  have hread := readsRecipe_tab hrest rfl (ne_newline_of_mem_lex hv') hnl h
  rwa [Token.textOf_lex, ← hv] at hread

/-! ## Directives in a recipe -/

/-- In front of a directive there is no line of the recipe. -/
theorem kindAt_breaks_of_keyword (h : c.keyword? = some keyword) :
    c.kindAt c.breaks ≠ some .tab := by
  obtain ⟨us, hrest⟩ := exists_of_keyword h
  have hbreaks : c.breaks = 0 := by
    unfold breaks
    rw [hrest]
    rfl
  rw [hbreaks, kindAt_of_rest hrest]
  nofun

/-- A directive starts with its keyword whatever the next line is. -/
theorem keyword?_append (hend : EndsLine (lex s)) (h : (start s).keyword? = some keyword) :
    ((start (s ++ t)).moved n ss cs).keyword? = some keyword := by
  change (start (s ++ t)).keyword? = _
  rw [start_append hend, keyword?_followed hend, h]

theorem found_skipBreak (c : Cursor) : c.skipBreak.statements = c.statements ∧
    c.skipBreak.comments = c.comments ∧ c.skipBreak.faults = c.faults := by
  unfold skipBreak
  split <;> exact ⟨rfl, rfl, rfl⟩

/-- The line break behind a directive is all that is left of its line. -/
theorem rest_skipBreak (hc : Token.OneLine c.rest)
    (hends : ∀ kind, c.kindAt 0 = some kind → kind = .newline) : c.skipBreak.rest = [] := by
  unfold skipBreak
  cases hrest : c.rest with
  | nil => rw [if_neg (by rw [kindAt_eq_none_iff.mpr hrest]; nofun), hrest]
  | cons u us =>
    have hu := hends _ (kindAt_of_rest hrest)
    rw [if_pos (hu ▸ kindAt_of_rest hrest)]
    rw [hrest] at hc
    unfold advance
    rw [hrest]
    exact hc.eq_nil hu

theorem directiveArguments_of_isBare (h : keyword.isBare = true) (c : Cursor) :
    c.directiveArguments keyword = (⟨c.offset, .nil⟩, c) := by
  cases keyword <;> first | rfl | cases h

theorem directiveArguments_of_takesPhrase (h : keyword.takesPhrase = true) (c : Cursor) :
    c.directiveArguments keyword =
      ((c.skipBlanks.phrase .line).1.trimEnd, (c.skipBlanks.phrase .line).2) := by
  cases keyword <;> first | rfl | cases h

/-- A keyword at the start of a text starts a directive there. -/
theorem statement_start (h : (start s).keyword? = some keyword) :
    (start s).skipSpace = start s ∧ (start s).statement = (start s).directive keyword := by
  obtain ⟨us, hrest⟩ := exists_of_keyword h
  refine ⟨?_, (ReadsStatement.directive h).eq_statement⟩
  have hskip := @skipWhile_past (start s) _ [] (fun k => k.isBlank || k == .newline) hrest nofun
    (by rintro u ⟨⟩; rfl)
  exact hskip.trans (past_nil hrest)

/-- A directive has no fault if its text has none. -/
theorem faults_directive (h : (start s).keyword? = some keyword) (herrors : (parse s).errors = []) :
    ((start s).directive keyword).faults = [] := by
  obtain ⟨hskip, hstatement⟩ := statement_start h
  have hlines := readsLines_readText s
  have hfaults : (readText s).faults = [] := List.map_eq_nil_iff.mp herrors
  generalize readText s = d at hlines hfaults
  cases hlines with
  | done hrest =>
    obtain ⟨us, hcons⟩ := exists_of_keyword h
    rw [hskip, hcons] at hrest
    cases hrest
  | statement hrest hlines =>
    rw [hskip, hstatement] at hlines
    exact hlines.ahead.faults_nil hfaults

end Cursor

/-- **A line among the lines of a recipe**: text behind a tab, or a directive. -/
inductive RecipePart where
  | tabbed (text : Text)
  | directive (keyword : Keyword) (behind : Text)
  deriving DecidableEq, Repr

namespace RecipePart

variable {s t w : Text} {n : Nat} {ss cs : List (Content × Span)} {keyword : Keyword}

/-- The line with its line break. -/
def line : RecipePart → Text
  | .tabbed w => '\t' :: (w ++ ['\n'])
  | .directive keyword w => keyword.text ++ (w ++ ['\n'])

/-- What the line adds to the recipe. Behind a keyword without arguments, a tab starts a line of the
recipe as it does at the start of a line. -/
def recipe? : RecipePart → Option Text
  | .tabbed w => some (withoutBreak (w ++ ['\n']))
  | .directive keyword ('\t' :: w) =>
    if keyword.isBare then some (withoutBreak (w ++ ['\n'])) else none
  | .directive _ _ => none

/-- The directive in the line, as it is read without the other lines. -/
def found : RecipePart → List (Content × Span)
  | .tabbed _ => []
  | .directive keyword w =>
    let (arguments, behind) :=
      ((Cursor.start (keyword.text ++ (w ++ ['\n']))).advance 1).directiveArguments keyword
    [(.directive ⟨keyword, arguments⟩, behind.spanFrom 0)]

/-- **A directive that takes its line**: its arguments are read without faults up to the end of the
line, or it has none and nothing is behind its keyword. -/
structure DirectiveLine (keyword : Keyword) (w : Text) : Prop where
  unbroken : '\n' ∉ w
  unescaped : '\\' ∉ w
  starts : (Cursor.start (line (.directive keyword w))).keyword? = some keyword
  ends : keyword.takesPhrase = true ∨ keyword.isBare = true ∧ (w = [] ∨ w = ['\r'])
  errors : (parse (line (.directive keyword w))).errors = []

/-- **What a recipe goes on over**: lines behind a tab, directives that take their lines, and
keywords without arguments in front of a tab. -/
inductive GoesOn : RecipePart → Prop
  | tabbed {w : Text} (hbreak : '\n' ∉ w) (hescape : '\\' ∉ w) : GoesOn (.tabbed w)
  | directive {keyword : Keyword} {w : Text} (h : DirectiveLine keyword w) :
      GoesOn (.directive keyword w)
  | joined {keyword : Keyword} {w : Text} (hbreak : '\n' ∉ w) (hescape : '\\' ∉ w)
      (hbare : keyword.isBare = true)
      (hkeyword : (Cursor.start (line (.directive keyword ('\t' :: w)))).keyword? = some keyword) :
      GoesOn (.directive keyword ('\t' :: w))

theorem found_eq (h : (Cursor.start (line (.directive keyword w))).keyword? = some keyword) :
    found (.directive keyword w) =
      ((Cursor.start (line (.directive keyword w))).directive keyword).statements := by
  have hoffset : (Cursor.start (line (.directive keyword w))).offset = 0 :=
    Cursor.offset_of_kindAt (Cursor.kindAt_of_keyword h)
  obtain ⟨cs, hfinds⟩ := Cursor.finds_directiveArguments keyword
    ((Cursor.standsIn_start (line (.directive keyword w))).advance 1)
  have hnothing := hfinds.statements
  unfold found Cursor.directive Cursor.record
  rw [hoffset]
  dsimp only [line] at hnothing ⊢
  generalize Cursor.directiveArguments keyword _ = arguments at hnothing ⊢
  rw [hnothing]
  rfl

theorem endsLine_directive (hescape : '\\' ∉ w) : EndsLine (lex (line (.directive keyword w))) := by
  have hkeyword : '\\' ∉ keyword.text := by cases keyword <;> decide
  rw [line, ← List.append_assoc]
  exact endsLine_lex fun hmem => (List.mem_append.mp hmem).elim hkeyword hescape

namespace DirectiveLine

theorem endsLine (h : DirectiveLine keyword w) : EndsLine (lex (line (.directive keyword w))) :=
  endsLine_directive h.unescaped

theorem oneLine (h : DirectiveLine keyword w) :
    Token.OneLine (lex (line (.directive keyword w))) := by
  have hkeyword : '\\' ∉ keyword.text ∧ '\n' ∉ keyword.text := by cases keyword <;> decide
  rw [line, ← List.append_assoc]
  refine Token.oneLine_lex (fun hmem => ?_) fun hmem => ?_
  · exact (List.mem_append.mp hmem).elim hkeyword.2 h.unbroken
  · exact (List.mem_append.mp hmem).elim hkeyword.1 h.unescaped

theorem faults (h : DirectiveLine keyword w) :
    ((Cursor.start (line (.directive keyword w))).directive keyword).faults = [] :=
  Cursor.faults_directive h.starts h.errors

/-- What is left of the line is the line break at most. -/
theorem rest (h : DirectiveLine keyword w) :
    ((Cursor.start (line (.directive keyword w))).directive keyword).skipBreak.rest = [] := by
  have hfaults := h.faults
  have hinside : Token.OneLine ((Cursor.start (line (.directive keyword w))).advance 1).rest :=
    h.oneLine.drop 1
  rcases h.ends with hphrase | ⟨hbare, hw⟩
  · unfold Cursor.directive at hfaults ⊢
    rw [Cursor.directiveArguments_of_takesPhrase hphrase] at hfaults ⊢
    obtain ⟨hline, hends⟩ := (Cursor.reads_phrase .line _).ends_line (hinside.drop _) hfaults
    exact Cursor.rest_skipBreak hline fun kind hkind => (hends kind hkind).resolve_left nofun
  · obtain ⟨nl, hnl, hlex⟩ : ∃ nl : Token, nl.kind = .newline ∧ lex (w ++ ['\n']) = [nl] := by
      rcases hw with rfl | rfl
      · exact ⟨_, rfl, rfl⟩
      · exact ⟨_, rfl, rfl⟩
    have hrest : ((Cursor.start (line (.directive keyword w))).directive keyword).rest = [nl] := by
      unfold Cursor.directive
      rw [Cursor.directiveArguments_of_isBare hbare]
      change (lex (keyword.text ++ (w ++ ['\n']))).drop 1 = [nl]
      rw [Token.lex_keyword, hlex]
      · rfl
      · rw [hlex]
        rintro u ⟨⟩ hidentifier
        cases hnl.symm.trans hidentifier
    refine Cursor.rest_skipBreak (by rw [hrest]; exact nofun) fun kind hkind => ?_
    rw [Cursor.kindAt_of_rest hrest] at hkind
    exact (Option.some.inj hkind).symm.trans hnl

/-- The directive in front of other lines is the one that is read by itself. -/
theorem skipBreak_eq (h : DirectiveLine keyword w) (ht : ∀ u ∈ (lex t).head?, u.kind ≠ .newline) :
    ((Cursor.start (line (.directive keyword w) ++ t)).directive keyword).skipBreak =
      (Cursor.start t).moved (byteSize (line (.directive keyword w))) (found (.directive keyword w))
        ((Cursor.start (line (.directive keyword w))).directive keyword).comments := by
  have hfaults := h.faults
  have hrest := h.rest
  have hend := h.endsLine
  have hkeyword := h.starts
  rw [found_eq h.starts]
  generalize line (.directive keyword w) = s at hfaults hrest hend hkeyword ⊢
  obtain ⟨arguments, cs, hfinds⟩ := Cursor.finds_directive (Cursor.standsIn_start s) hkeyword
  have hskip := hfinds.trans (Cursor.finds_skipBreak hfinds.stands)
  obtain ⟨hstatements, hcomments, hsame⟩ :=
    Cursor.found_skipBreak ((Cursor.start s).directive keyword)
  have hdirective := (@Cursor.directive_followed (lex t) (byteSize t) _ _ hend
    (Token.formed_of_mem_lex s) hkeyword (Cursor.contained_of_nil hfaults)).1
  rw [Cursor.start_append hend, hdirective, Cursor.skipBreak_followed_line hrest ht,
    Cursor.followed_eq_moved hskip.stands hskip.ahead.size hrest (hsame.trans hfaults),
    hstatements, hcomments]

theorem readsRecipe (h : DirectiveLine keyword w) (ht : ∀ u ∈ (lex t).head?, u.kind ≠ .newline) :
    ∃ cs', ∀ {lines : Text} {d : Cursor},
      Cursor.ReadsRecipe ((Cursor.start t).moved (n + byteSize (line (.directive keyword w)))
        (ss ++ (found (.directive keyword w)).map (movedBy n)) cs') lines d →
      Cursor.ReadsRecipe ((Cursor.start (line (.directive keyword w) ++ t)).moved n ss cs)
        lines d := by
  have hkeyword : ((Cursor.start (line (.directive keyword w) ++ t)).moved n ss cs).keyword? =
      some keyword := Cursor.keyword?_append h.endsLine h.starts
  refine ⟨cs ++ ((Cursor.start (line (.directive keyword w))).directive keyword).comments.map
    (movedBy n), fun hread => .directive (Cursor.kindAt_breaks_of_keyword hkeyword) hkeyword ?_⟩
  rw [Cursor.directive_moved, Cursor.skipBreak_moved, h.skipBreak_eq ht, Cursor.moved_moved_start]
  exact hread

end DirectiveLine

/-- A keyword without arguments takes itself and nothing else. -/
theorem directive_bare (hbare : keyword.isBare = true)
    (hs : ∀ u ∈ (lex s).head?, u.kind ≠ .identifier) (hne : s ≠ []) :
    (Cursor.start (keyword.text ++ s)).directive keyword =
      (Cursor.start s).moved (byteSize keyword.text)
        [(.directive ⟨keyword, ⟨byteSize keyword.text, .nil⟩⟩, ⟨0, byteSize keyword.text⟩)] [] := by
  have hrest : (Cursor.start (keyword.text ++ s)).rest = ⟨.identifier, keyword.text⟩ :: lex s :=
    Token.lex_keyword keyword hs
  have hone : (Cursor.start (keyword.text ++ s)).advance 1 =
      (Cursor.start s).moved (byteSize keyword.text) [] [] := by
    refine (Cursor.advance_eq_past [⟨.identifier, keyword.text⟩] hrest).trans ?_
    unfold Cursor.past Cursor.moved Cursor.start
    simp [textOf]
  have hinside : ((Cursor.start s).moved (byteSize keyword.text) [] []).offset =
      byteSize keyword.text := by
    rw [Cursor.offset_moved, Cursor.offset, if_neg]
    · rfl
    · simpa [Cursor.start, Token.lex_eq_nil_iff] using hne
  have hoffset : (Cursor.start (keyword.text ++ s)).offset = 0 :=
    Cursor.offset_of_kindAt (Cursor.kindAt_of_rest hrest)
  unfold Cursor.directive
  rw [hone, Cursor.directiveArguments_of_isBare hbare, hinside, hoffset]
  unfold Cursor.record Cursor.spanFrom Cursor.moved Cursor.start
  simp

/-- A keyword in front of a tab, and the line of the recipe behind the tab. -/
theorem readsRecipe_joined {lines : Text} {d : Cursor} (hbreak : '\n' ∉ w) (hescape : '\\' ∉ w)
    (hbare : keyword.isBare = true)
    (hkeyword : (Cursor.start (line (.directive keyword ('\t' :: w)))).keyword? = some keyword)
    (h : Cursor.ReadsRecipe ((Cursor.start t).moved
      (n + byteSize (line (.directive keyword ('\t' :: w))))
      (ss ++ (found (.directive keyword ('\t' :: w))).map (movedBy n)) cs) lines d) :
    Cursor.ReadsRecipe ((Cursor.start (line (.directive keyword ('\t' :: w)) ++ t)).moved n ss cs)
      (withoutBreak (w ++ ['\n']) ++ ['\n'] ++ lines) d := by
  have htab : ∀ v : Text, lex ('\t' :: v) = ⟨.tab, ['\t']⟩ :: lex v := Token.lex_cons_blank rfl
  have hhead : ∀ v : Text, ∀ u ∈ (lex ('\t' :: v)).head?, u.kind ≠ .identifier := by
    intro v u hu
    rw [htab] at hu
    cases hu
    nofun
  have hend : EndsLine (lex (line (.directive keyword ('\t' :: w)))) :=
    endsLine_directive fun hmem => (List.mem_cons.mp hmem).elim nofun hescape
  have hkeyword' : ((Cursor.start (line (.directive keyword ('\t' :: w)) ++ t)).moved n ss
      cs).keyword? = some keyword := Cursor.keyword?_append hend hkeyword
  have hline : line (.directive keyword ('\t' :: w)) ++ t =
      keyword.text ++ ('\t' :: (w ++ ['\n']) ++ t) := List.append_assoc _ _ _
  rw [found_eq hkeyword, line, List.cons_append, directive_bare hbare (hhead _)
    (List.cons_ne_nil _ _), Text.byteSize_append, ← Nat.add_assoc] at h
  have hbehind :
      (Cursor.start (keyword.text ++ ('\t' :: (w ++ ['\n']) ++ t))).directive keyword = _ :=
    directive_bare hbare (hhead _) (List.cons_ne_nil _ _)
  refine .directive (Cursor.kindAt_breaks_of_keyword hkeyword') hkeyword' ?_
  rw [Cursor.directive_moved, hline, hbehind, Cursor.moved_moved_start, Cursor.skipBreak, if_neg]
  · refine Cursor.readsRecipe_tabbed hbreak hescape ?_
    rw [List.map_nil, List.append_nil]
    exact h
  · rw [Cursor.kindAt_of_rest (htab _)]
    nofun

theorem GoesOn.endsLine {p : RecipePart} (h : p.GoesOn) : EndsLine (lex p.line) := by
  cases h with
  | tabbed hbreak hescape =>
    exact @endsLine_lex ('\t' :: _) fun hmem => (List.mem_cons.mp hmem).elim nofun hescape
  | directive h => exact h.endsLine
  | joined hbreak hescape =>
    exact endsLine_directive fun hmem => (List.mem_cons.mp hmem).elim nofun hescape

/-- A line of a recipe does not start with a line break. -/
theorem GoesOn.head {p : RecipePart} (h : p.GoesOn) (t : Text) :
    ∀ u ∈ (lex (p.line ++ t)).head?, u.kind ≠ .newline := by
  have hfirst : ∃ u us, lex p.line = u :: us ∧ u.kind ≠ .newline := by
    cases h with
    | tabbed => exact ⟨_, _, Token.lex_cons_blank rfl _, nofun⟩
    | directive h =>
      obtain ⟨us, hrest⟩ := Cursor.exists_of_keyword h.starts
      exact ⟨_, us, hrest, nofun⟩
    | joined hbreak hescape hbare hkeyword =>
      obtain ⟨us, hrest⟩ := Cursor.exists_of_keyword hkeyword
      exact ⟨_, us, hrest, nofun⟩
  obtain ⟨u, us, hlex, hu⟩ := hfirst
  rw [Token.lex_append h.endsLine, hlex]
  rintro v ⟨⟩
  exact hu

theorem DirectiveLine.recipe?_eq (h : DirectiveLine keyword w) :
    recipe? (.directive keyword w) = none := by
  unfold recipe?
  split
  · next heq => cases heq
  · next keyword' v heq =>
    obtain ⟨rfl, rfl⟩ := RecipePart.directive.inj heq
    rcases h.ends with hphrase | ⟨-, hw | hw⟩
    · rw [if_neg]
      cases keyword <;> first | decide | cases hphrase
    · cases hw
    · cases hw
  · rfl

/-- **A line of a recipe in front of other lines**: it adds to the recipe what is behind a tab, and
to the statements the directive that it is. -/
theorem GoesOn.readsRecipe {p : RecipePart} (h : p.GoesOn)
    (ht : ∀ u ∈ (lex t).head?, u.kind ≠ .newline) :
    ∃ cs', ∀ {lines : Text} {d : Cursor},
      Cursor.ReadsRecipe ((Cursor.start t).moved (n + byteSize p.line)
        (ss ++ p.found.map (movedBy n)) cs') lines d →
      Cursor.ReadsRecipe ((Cursor.start (p.line ++ t)).moved n ss cs)
        ((p.recipe?.toList.flatMap fun l => l ++ ['\n']) ++ lines) d := by
  cases h with
  | tabbed hbreak hescape =>
    refine ⟨cs, fun hread => ?_⟩
    rw [found, List.map_nil, List.append_nil] at hread
    rw [recipe?, Option.toList_some, List.flatMap_singleton]
    exact Cursor.readsRecipe_tabbed hbreak hescape hread
  | directive h =>
    rw [h.recipe?_eq]
    exact h.readsRecipe ht
  | joined hbreak hescape hbare hkeyword =>
    refine ⟨cs, fun hread => ?_⟩
    rw [recipe?, if_pos hbare, Option.toList_some, List.flatMap_singleton]
    exact readsRecipe_joined hbreak hescape hbare hkeyword hread

/-- The directives in lines behind a text of `n` bytes. -/
def foundFrom : Nat → List RecipePart → List (Content × Span)
  | _, [] => []
  | n, p :: ps => p.found.map (movedBy n) ++ foundFrom (n + byteSize p.line) ps

/-- **The lines of a recipe in front of other text**, one after the other. -/
theorem readsRecipe_parts {parts : List RecipePart} (hparts : ∀ p ∈ parts, p.GoesOn)
    (ht : ∀ u ∈ (lex t).head?, u.kind ≠ .newline) :
    ∃ cs', ∀ {lines : Text} {d : Cursor},
      Cursor.ReadsRecipe ((Cursor.start t).moved (n + byteSize (parts.flatMap line))
        (ss ++ foundFrom n parts) cs') lines d →
      Cursor.ReadsRecipe ((Cursor.start (parts.flatMap line ++ t)).moved n ss cs)
        (((parts.filterMap recipe?).flatMap fun l => l ++ ['\n']) ++ lines) d := by
  induction parts generalizing n ss cs with
  | nil =>
    refine ⟨cs, fun hread => ?_⟩
    rw [foundFrom, List.append_nil] at hread
    exact hread
  | cons p parts ih =>
    obtain ⟨hp, hparts⟩ := List.forall_mem_cons.mp hparts
    have hnext : ∀ u ∈ (lex (parts.flatMap line ++ t)).head?, u.kind ≠ .newline := by
      cases parts with
      | nil => exact ht
      | cons q parts =>
        rw [List.flatMap_cons, List.append_assoc]
        exact (hparts q List.mem_cons_self).head _
    obtain ⟨cs₁, hfirst⟩ := @GoesOn.readsRecipe _ n ss cs p hp hnext
    obtain ⟨cs₂, hrest⟩ := @ih (n + byteSize p.line) (ss ++ p.found.map (movedBy n)) cs₁ hparts
    refine ⟨cs₂, fun hread => ?_⟩
    rw [List.flatMap_cons, Text.byteSize_append, ← Nat.add_assoc, foundFrom, ← List.append_assoc]
      at hread
    have hlines : (((p :: parts).filterMap recipe?).flatMap fun l => l ++ ['\n']) =
        (p.recipe?.toList.flatMap fun l => l ++ ['\n']) ++
          (parts.filterMap recipe?).flatMap fun l => l ++ ['\n'] := by
      rw [List.filterMap_cons]
      cases p.recipe? <;> simp
    rw [List.flatMap_cons, List.append_assoc, hlines, List.append_assoc]
    exact hfirst (hrest hread)

end RecipePart

end MakeBlueprint.Makefile
