import MakeBlueprint.Proofs.Reading.Followed
import MakeBlueprint.Proofs.Reading.Moved
import MakeBlueprint.Proofs.Reading.Reported

/-!
# Reading a text behind whole lines

A text behind whole lines that contain their faults is read as it is read by itself, if it does not
go on with a recipe.

* `lineAt_append`, `columnAt_append`: the lines and columns of positions behind another text.
* `interleave_append`: comments stay on their side.
* `readText_append_contained`: the cursor behind both texts; `parse_append` is the result for
  documents whose first part has no fault.
-/

namespace MakeBlueprint.Text

variable {s t : Text} {n : Nat}

/-- Lines are counted from the front. -/
theorem lineAt_append_of_le (h : n ≤ byteSize s) : lineAt n (s ++ t) = lineAt n s := by
  induction s generalizing n with
  | nil =>
    obtain rfl : n = 0 := Nat.le_zero.mp h
    cases t <;> rfl
  | cons c s ih =>
    rw [byteSize] at h
    rw [List.cons_append, lineAt, lineAt, ih (by omega)]

theorem lineAt_append (s t : Text) (n : Nat) :
    lineAt (byteSize s + n) (s ++ t) = s.count '\n' + lineAt n t := by
  induction s with
  | nil => simp [byteSize]
  | cons c s ih =>
    have hpos := Char.utf8Size_pos c
    have hrest : byteSize (c :: s) + n - c.utf8Size = byteSize s + n := by
      rw [byteSize]
      omega
    rw [List.cons_append, lineAt, if_neg (by rw [byteSize]; omega), hrest, ih, List.count_cons]
    by_cases hc : c = '\n'
    · simp [hc]
      omega
    · simp [hc]

theorem columnFrom_append (h : EndsWithBreak s) (column : Nat) :
    columnFrom column (byteSize s + n) (s ++ t) = columnFrom 1 n t := by
  induction s generalizing column with
  | nil => cases h
  | cons c s ih =>
    have hpos := Char.utf8Size_pos c
    have hrest : byteSize (c :: s) + n - c.utf8Size = byteSize s + n := by
      rw [byteSize]
      omega
    rw [List.cons_append, columnFrom, if_neg (by rw [byteSize]; omega), hrest]
    split
    · by_cases hs : s = []
      · subst hs
        rw [byteSize, Nat.zero_add, List.nil_append]
      · exact ih ((endsWithBreak_cons hs).mp h) 1
    · next hc => exact ih (h.tail hc) _

/-- Columns are counted from the last line break. -/
theorem columnAt_append (h : s = [] ∨ EndsWithBreak s) :
    columnAt (byteSize s + n) (s ++ t) = columnAt n t := by
  rcases h with rfl | h
  · simp [byteSize]
  · exact columnFrom_append h 1

end MakeBlueprint.Text

namespace MakeBlueprint.Makefile

open Text (byteSize)

variable {n : Nat} {ss ss' cs cs' : List (Content × Span)} {a b : Text}

/-! ## Comments between statements -/

/-- Comments between statements stay on their side of a position. -/
theorem interleave_append (h : ∀ s ∈ ss ++ cs, s.2.start < n)
    (h' : ∀ s ∈ ss' ++ cs', n ≤ s.2.start) :
    interleave (ss ++ ss') (cs ++ cs') = interleave ss cs ++ interleave ss' cs' := by
  induction ss generalizing cs with
  | nil =>
    cases ss' with
    | nil => rfl
    | cons s ss' =>
      have hbefore : ∀ k ∈ cs, decide (k.2.start < s.2.start) = true := by
        intro k hk
        exact decide_eq_true (Nat.lt_of_lt_of_le (h k hk) (h' s List.mem_cons_self))
      simp only [List.nil_append, interleave]
      rw [List.takeWhile_append_of_pos hbefore, List.dropWhile_append_of_pos hbefore,
        List.append_assoc]
  | cons s ss ih =>
    have hbehind : ∀ k ∈ cs'.head?, decide (k.2.start < s.2.start) = false := by
      intro k hk
      have hs := h s (List.mem_append_left _ List.mem_cons_self)
      have hk := h' k (List.mem_append_right _ (List.mem_of_mem_head? hk))
      exact decide_eq_false (by omega)
    have hsub : ∀ k ∈ ss ++ cs.dropWhile (fun k => decide (k.2.start < s.2.start)),
        k.2.start < n := by
      intro k hk
      refine h k ?_
      rcases List.mem_append.mp hk with hk | hk
      · exact List.mem_append_left _ (List.mem_cons_of_mem s hk)
      · exact List.mem_append_right _ ((List.dropWhile_sublist _).subset hk)
    rw [List.cons_append, interleave, interleave, takeWhile_append_of_head? hbehind,
      dropWhile_append_of_head? hbehind, ih hsub, List.append_assoc, List.cons_append]

theorem interleave_map_movedBy (n : Nat) (ss cs : List (Content × Span)) :
    interleave (ss.map (movedBy n)) (cs.map (movedBy n)) = (interleave ss cs).map (movedBy n) := by
  induction ss generalizing cs with
  | nil => rfl
  | cons s ss ih =>
    have hbefore :
        (fun k : Content × Span => decide (k.2.start < (movedBy n s).2.start)) ∘ movedBy n =
          fun k => decide (k.2.start < s.2.start) := by
      funext k
      exact decide_eq_decide.mpr (Nat.add_lt_add_iff_left)
    simp only [List.map_cons, interleave, List.map_append]
    rw [List.takeWhile_map, List.dropWhile_map, hbefore, ih]

/-! ## Whole texts -/

/-- The statement behind a text with so many bytes and so many line breaks. -/
def Statement.moved (bytes lines : Nat) (s : Statement) : Statement :=
  ⟨s.content.mapPos (bytes + ·), mapSpan (bytes + ·) s.span, mapSpan (lines + ·) s.lines⟩

/-- The report of a fault behind a text with so many bytes and so many line breaks. -/
def ParseError.moved (bytes lines : Nat) (e : ParseError) : ParseError :=
  { e with offset := bytes + e.offset, line := lines + e.line }

theorem locate_append (content : Content) {span : Span} (hlt : span.start < span.stop)
    (hle : span.stop ≤ byteSize a) : locate (a ++ b) content span = locate a content span := by
  unfold locate
  rw [Text.lineAt_append_of_le (by omega), Text.lineAt_append_of_le (by omega)]

theorem locate_movedBy (a b : Text) (s : Content × Span) :
    locate (a ++ b) (movedBy (byteSize a) s).1 (movedBy (byteSize a) s).2 =
      (locate b s.1 s.2).moved (byteSize a) (a.count '\n') := by
  obtain ⟨content, start, stop⟩ := s
  unfold locate Statement.moved movedBy mapSpan
  dsimp only
  rw [Text.lineAt_append]
  by_cases hlt : start < stop
  · have hlast : byteSize a + stop - 1 = byteSize a + (stop - 1) := by omega
    rw [if_pos hlt, if_pos (by omega), hlast, Text.lineAt_append]
  · rw [if_neg hlt, if_neg (by omega)]

theorem locate_mapPos (ha : a = [] ∨ Text.EndsWithBreak a) (f : Fault) :
    (f.mapPos (byteSize a + ·)).locate (a ++ b) =
      (f.locate b).moved (byteSize a) (a.count '\n') := by
  unfold Fault.locate ParseError.moved Fault.mapPos
  dsimp only
  rw [Cause.message_mapPos, Text.lineAt_append, Text.columnAt_append ha]

/-- **A text behind whole lines** that contain their faults is read as it is read by itself. -/
theorem readText_append_contained (ha : Token.WholeLines (Token.lex a))
    (hfaults : (readText a).Contained) (hb : Token.LeavesRecipe (Token.lex b))
    (hroom : Cursor.Room (readText a).faults (readText b)) :
    readText (a ++ b) =
      ((readText b).moved (byteSize a) (readText a).statements
        (readText a).comments).reported (readText a).faults := by
  have hlines := Cursor.readsLines_readText a
  have hlex : Token.lex (a ++ b) = Token.lex a ++ Token.lex b := by
    rcases ha with hnil | hend
    · rw [hnil, Token.lex_eq_nil_iff.mp hnil]
      rfl
    · exact Token.lex_append hend b
  have hstart : Cursor.start (a ++ b) = (Cursor.start a).followed (Token.lex b) (byteSize b) := by
    unfold Cursor.start Cursor.followed
    rw [hlex, Text.byteSize_append]
  -- Behind the first text, its reader stands where a reader of the second one starts.
  have hbetween : (readText a).followed (Token.lex b) (byteSize b) =
      ((Cursor.start b).moved (byteSize a) (readText a).statements
        (readText a).comments).reported (readText a).faults := by
    have hrest := hlines.rest_eq_nil
    have hread := read_readText_of_few hfaults.few
    have hsize : (readText a).size = byteSize a := hlines.ahead.size
    unfold Cursor.followed Cursor.reported Cursor.moved Cursor.start
    simp [hrest, hread, hsize]
  have hboth : Cursor.ReadsLines (Cursor.start (a ++ b))
      (((readText b).moved (byteSize a) (readText a).statements
        (readText a).comments).reported (readText a).faults) := by
    rw [hstart]
    refine hlines.followed (Cursor.standsIn_start a) ha hfaults hb ?_
    rw [hbetween]
    refine (Cursor.readsLines_readText b).moved.reported (hroom.imp_right fun hfew => ?_)
    unfold Cursor.moved
    rw [List.length_map]
    exact hfew
  exact hboth.eq_readAll (Nat.le_refl _)

/-- **A text behind whole lines without a fault** is read as it is read by itself. -/
theorem readText_append (ha : Token.WholeLines (Token.lex a)) (hfaults : (readText a).faults = [])
    (hb : Token.LeavesRecipe (Token.lex b)) :
    readText (a ++ b) =
      (readText b).moved (byteSize a) (readText a).statements (readText a).comments := by
  have hboth := readText_append_contained ha (Cursor.contained_of_nil hfaults) hb (.inl hfaults)
  rw [hfaults] at hboth
  exact hboth

/-- What is found in a text that is read to its end lies inside it. -/
theorem found_inside (hread : (readText a).read = byteSize a) :
    ∀ s ∈ (readText a).statements ++ (readText a).comments,
      s.2.start < s.2.stop ∧ s.2.stop ≤ byteSize a := by
  obtain ⟨ss, cs, hfinds, -⟩ :=
    (Cursor.readsLines_readText a).findsAll (Cursor.standsIn_start a)
  have hstatements : (readText a).statements = ss := hfinds.statements
  have hcomments : (readText a).comments = cs := hfinds.comments
  have hinside := hfinds.laid.inside
  rw [hread] at hinside
  rw [hstatements, hcomments]
  exact fun s hs => (hinside s hs).2

/-- **The statements of both texts** are those of the first and, moved, those of the second, if what
is found in the first lies inside it. -/
theorem statements_append (hread : (readText a).read = byteSize a) (b : Text) :
    let both := (readText b).moved (byteSize a) (readText a).statements (readText a).comments
    (interleave both.statements both.comments).map (fun s => locate (a ++ b) s.1 s.2) =
      (parse a).statements ++
        (parse b).statements.map (Statement.moved (byteSize a) (a.count '\n')) := by
  have hinside := found_inside hread
  have hleft : ∀ s ∈ (readText a).statements ++ (readText a).comments,
      s.2.start < byteSize a := by
    intro s hs
    have := hinside s hs
    omega
  have hright : ∀ s ∈ (readText b).statements.map (movedBy (byteSize a)) ++
      (readText b).comments.map (movedBy (byteSize a)), byteSize a ≤ s.2.start := by
    intro s hs
    rw [← List.map_append] at hs
    obtain ⟨s, -, rfl⟩ := List.mem_map.mp hs
    exact Nat.le_add_right _ _
  unfold parse Cursor.moved
  dsimp only
  rw [interleave_append hleft hright, interleave_map_movedBy, List.map_append, List.map_map,
    List.map_map]
  refine congrArg₂ (· ++ ·) (List.map_congr_left fun s hs => ?_)
    (List.map_congr_left fun s _ => locate_movedBy a b s)
  have hs := hinside s (List.mem_append.mpr (mem_interleave.mp hs))
  exact locate_append s.1 hs.1 hs.2

theorem leavesRecipe_lex (hb : b = [] ∨ ∃ t, (Token.lex b).head? = some t ∧ t.kind ≠ .tab ∧
    t.kind ≠ .newline ∧ ¬ (t.kind = .identifier ∧ (Keyword.ofText? t.text).isSome = true)) :
    Token.LeavesRecipe (Token.lex b) := by
  intro u hu
  rcases hb with rfl | ⟨t, ht, htab, hnewline, hkeyword⟩
  · cases hu
  · obtain rfl : t = u := Option.some.inj (ht.symm.trans hu)
    refine ⟨htab, hnewline, fun hidentifier => ?_⟩
    simpa using fun h => hkeyword ⟨hidentifier, h⟩

/-- **Reading is local at line ends.** When whole lines have no fault, and the text behind them
begins with neither a tab nor a line break nor a keyword, the statements of both texts together are
those of the first and those of the second, and the faults are those of the second; positions and
lines of the second are moved behind the first. -/
theorem parse_append (a b : Text)
    (ha : a = [] ∨ ∃ t, (Token.lex a).getLast? = some t ∧ t.kind = .newline)
    (herrors : (parse a).errors = [])
    (hb : b = [] ∨ ∃ t, (Token.lex b).head? = some t ∧ t.kind ≠ .tab ∧ t.kind ≠ .newline ∧
      ¬ (t.kind = .identifier ∧ (Keyword.ofText? t.text).isSome = true)) :
    (parse (a ++ b)).statements = (parse a).statements ++
        (parse b).statements.map (Statement.moved (byteSize a) (a.count '\n')) ∧
      (parse (a ++ b)).errors =
        (parse b).errors.map (ParseError.moved (byteSize a) (a.count '\n')) := by
  have hwhole : Token.WholeLines (Token.lex a) := ha.imp_left Token.lex_eq_nil_iff.mpr
  have hbreak : a = [] ∨ Text.EndsWithBreak a := by
    refine ha.imp_right fun hend => ?_
    rw [← Token.textOf_lex a]
    exact Token.endsWithBreak_textOf hend (Token.formed_of_mem_lex a)
  have hfaults : (readText a).faults = [] := List.map_eq_nil_iff.mp herrors
  have hboth := readText_append hwhole hfaults (leavesRecipe_lex hb)
  refine ⟨?_, ?_⟩
  · rw [← statements_append (read_readText hfaults) b, ← hboth]
    rfl
  · unfold parse
    dsimp only
    rw [hboth]
    unfold Cursor.moved
    dsimp only
    rw [List.map_map, List.map_map]
    exact List.map_congr_left fun f _ => locate_mapPos hbreak f

/-- A rule with a recipe, and an assignment behind it. -/
theorem parse_append_recipe :
    let a : Text := ['a', ':', '\n', '\t', 'b', '\n']
    let b : Text := ['x', '=', '$', '(', 'y', ')', '\n']
    (parse a).errors = [] ∧ (parse a).statements.length = 1 ∧ (parse b).statements.length = 1 ∧
      (parse (a ++ b)).statements = (parse a).statements ++
        (parse b).statements.map (Statement.moved (byteSize a) (a.count '\n')) ∧
      (parse (a ++ b)).errors =
        (parse b).errors.map (ParseError.moved (byteSize a) (a.count '\n')) := by
  intro a b
  have ha : ∃ t, (Token.lex a).getLast? = some t ∧ t.kind = .newline :=
    ⟨⟨.newline, ['\n']⟩, by decide⟩
  have hb : ∃ t, (Token.lex b).head? = some t ∧ t.kind ≠ .tab ∧ t.kind ≠ .newline ∧
      ¬ (t.kind = .identifier ∧ (Keyword.ofText? t.text).isSome = true) :=
    ⟨⟨.identifier, ['x']⟩, by decide⟩
  have herrors : (parse a).errors = [] := by decide
  exact ⟨herrors, by decide, by decide, parse_append a b (Or.inr ha) herrors (Or.inr hb)⟩

end MakeBlueprint.Makefile
