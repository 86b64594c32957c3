import Mathlib.Data.List.Basic
import MakeBlueprint.Proofs.Reading.Concatenation

/-!
# Recovery from a malformed line

A line with faults does not change how the text behind it is read, if its faults are contained in it.
They are, unless a comment stands in a reference that is not closed: the comment takes the line break
with it, and the phrase around the reference goes on in the next line.

* `endsLine_lex`: a line without backslashes is a whole line.
* `contained_of_errors`: the faults of a line are contained in it if their reports are on it.
* `parse_recovers`: **the statements behind a malformed line are those of the text behind it**.
* `not_recovers_commentInReference`: a comment in a reference takes the next line in.
-/

namespace MakeBlueprint.Makefile

open Text (byteSize)

variable {line rest : Text}

/-! ## One line -/

/-- A line feed outside of escapes is a line break. -/
theorem Token.Formed.kind_of_lineFeed {t : Token} (h : t.Formed) (hmem : '\n' ∈ t.text)
    (hbackslash : '\\' ∉ t.text) : t.kind = .newline := by
  obtain ⟨kind, text⟩ := t
  cases kind with
  | newline => rfl
  | identifier => exact absurd (h.2 _ hmem).1 (by decide)
  | escape => rcases h with htext | ⟨c, htext⟩ <;> simp_all
  | backslash => simp_all [Token.Formed]
  | whitespace | tab | dollar | leftParen | rightParen | leftBrace | rightBrace | colon | equals
  | plus | question | hash | semicolon | pipe =>
    obtain ⟨c, hsingle, rfl⟩ := h
    obtain rfl := List.mem_singleton.mp hmem
    cases hsingle

/-- **A line without backslashes is a whole line.** -/
theorem endsLine_lex (hbackslash : '\\' ∉ line) : Token.EndsLine (Token.lex (line ++ ['\n'])) := by
  have hne : Token.lex (line ++ ['\n']) ≠ [] :=
    mt Token.lex_eq_nil_iff.mp (List.append_ne_nil_of_right_ne_nil _ (List.cons_ne_nil _ _))
  obtain ⟨ts, t, hlast⟩ := (List.eq_nil_or_concat' _).resolve_left hne
  have hformed : t.Formed :=
    Token.formed_of_mem_lex _ t (hlast ▸ List.mem_append_right _ (List.mem_singleton_self t))
  have htext : Token.textOf ts ++ t.text = line ++ ['\n'] := by
    rw [← Token.textOf_lex (line ++ ['\n']), hlast]
    simp [Token.textOf]
  have hend : '\n' ∈ t.text := by
    have hget := congrArg List.getLast? htext
    rw [List.getLast?_append_of_ne_nil _ hformed.text_ne_nil, List.getLast?_concat] at hget
    exact List.mem_of_getLast? hget
  have hnone : '\\' ∉ t.text := by
    intro hmem
    have hboth : '\\' ∈ line ++ ['\n'] := htext ▸ List.mem_append_right _ hmem
    rcases List.mem_append.mp hboth with hin | hin
    · exact hbackslash hin
    · exact absurd hin (by decide)
  exact ⟨t, by rw [hlast, List.getLast?_concat]; rfl, hformed.kind_of_lineFeed hend hnone⟩

/-- A position whose line is the first one lies in the first line. -/
theorem lt_of_lineAt_eq_one (hline : '\n' ∉ line) {n : Nat}
    (h : Text.lineAt n (line ++ ['\n']) = 1) : n < byteSize (line ++ ['\n']) := by
  by_contra hle
  obtain ⟨k, rfl⟩ := Nat.exists_eq_add_of_le (Nat.not_lt.mp hle)
  have hlineAt := Text.lineAt_append (line ++ ['\n']) [] k
  rw [List.append_nil, h, List.count_append, List.count_eq_zero.mpr hline] at hlineAt
  cases k <;> simp [Text.lineAt] at hlineAt

/-- **The faults of a line are contained in it** if all of them are reported on it, and none of them
is a block without its end. -/
theorem contained_of_errors (hline : '\n' ∉ line)
    (hinside : ∀ e ∈ (parse (line ++ ['\n'])).errors, e.line = 1)
    (hended : ∀ e ∈ (parse (line ++ ['\n'])).errors, e.message ≠ Cause.endlessDefine.message)
    (hlimit : (parse (line ++ ['\n'])).errors.length < Fault.limit) :
    (readText (line ++ ['\n'])).Contained where
  few := by
    unfold parse at hlimit
    rwa [List.length_map] at hlimit
  inside f hf := by
    have hsize : (readText (line ++ ['\n'])).size = byteSize (line ++ ['\n']) :=
      (Cursor.readsLines_readText _).ahead.size
    rw [hsize]
    exact lt_of_lineAt_eq_one hline (hinside _ (List.mem_map_of_mem hf))
  ended f hf hcause := by
    refine hended _ (List.mem_map_of_mem hf) ?_
    unfold Fault.locate
    rw [hcause]

/-! ## The text behind a line -/

/-- **Recovery is local to the line.** Behind a line without backslashes, the statements are those of
the text behind it, moved, however malformed the line is, if

* the text behind it begins with neither a tab nor a line break nor a keyword,
* all errors of the line are reported on it, so no comment in an open reference took its end,
* no block of the line is without its end, and
* all errors together are fewer than allowed. -/
theorem parse_recovers (line rest : Text) (hline : '\n' ∉ line) (hbackslash : '\\' ∉ line)
    (hinside : ∀ e ∈ (parse (line ++ ['\n'])).errors, e.line = 1)
    (hended : ∀ e ∈ (parse (line ++ ['\n'])).errors, e.message ≠ Cause.endlessDefine.message)
    (hrest : rest = [] ∨ ∃ t, (Token.lex rest).head? = some t ∧ t.kind ≠ .tab ∧
      t.kind ≠ .newline ∧ ¬ (t.kind = .identifier ∧ (Keyword.ofText? t.text).isSome = true))
    (hlimit : (parse (line ++ ['\n'])).errors.length + (parse rest).errors.length < Fault.limit) :
    ((parse (line ++ ['\n'] ++ rest)).statements.filter fun s =>
        decide (byteSize (line ++ ['\n']) ≤ s.span.start)) =
      (parse rest).statements.map (Statement.moved (byteSize (line ++ ['\n'])) 1) := by
  have hfew : (parse (line ++ ['\n'])).errors.length < Fault.limit :=
    Nat.lt_of_le_of_lt (Nat.le_add_right _ _) hlimit
  have hcontained := contained_of_errors hline hinside hended hfew
  have hread := read_readText_of_few hcontained.few
  have hroom : Cursor.Room (readText (line ++ ['\n'])).faults (readText rest) := by
    unfold parse at hlimit
    rw [List.length_map, List.length_map] at hlimit
    exact .inr hlimit
  have hboth := readText_append_contained (.inr (endsLine_lex hbackslash)) hcontained
    (leavesRecipe_lex hrest) hroom
  have hstatements : (parse (line ++ ['\n'] ++ rest)).statements =
      (parse (line ++ ['\n'])).statements ++
        (parse rest).statements.map (Statement.moved (byteSize (line ++ ['\n'])) 1) := by
    have hcount : (line ++ ['\n']).count '\n' = 1 := by
      rw [List.count_append, List.count_eq_zero.mpr hline]
      rfl
    have happend := statements_append hread rest
    rw [hcount] at happend
    rw [← happend]
    unfold parse
    rw [hboth]
    rfl
  rw [hstatements, List.filter_append, List.filter_eq_nil_iff.mpr, List.nil_append,
    List.filter_eq_self.mpr]
  · intro s hs
    obtain ⟨s, -, rfl⟩ := List.mem_map.mp hs
    exact decide_eq_true (Nat.le_add_right _ _)
  · intro s hs
    obtain ⟨found, hfound, rfl⟩ := List.mem_map.mp hs
    have hinside := found_inside hread found (List.mem_append.mpr (mem_interleave.mp hfound))
    exact fun hle => absurd (of_decide_eq_true hle)
      (Nat.not_le.mpr (Nat.lt_of_lt_of_le hinside.1 hinside.2))

/-- Two references that are not closed, and an assignment behind them. -/
theorem parse_recovers_unclosed :
    let line : Text := "x=$(a $(b"
    let rest : Text := "y=1\n"
    (parse (line ++ ['\n'])).errors.length = 2 ∧ (parse rest).statements.length = 1 ∧
      ((parse (line ++ ['\n'] ++ rest)).statements.filter fun s =>
          decide (byteSize (line ++ ['\n']) ≤ s.span.start)) =
        (parse rest).statements.map (Statement.moved (byteSize (line ++ ['\n'])) 1) := by
  intro line rest
  have herrors : (parse (line ++ ['\n'])).errors.length = 2 := by decide
  have hrest : ∃ t, (Token.lex rest).head? = some t ∧ t.kind ≠ .tab ∧ t.kind ≠ .newline ∧
      ¬ (t.kind = .identifier ∧ (Keyword.ofText? t.text).isSome = true) :=
    ⟨⟨.identifier, ['y']⟩, by decide⟩
  exact ⟨herrors, by decide, parse_recovers line rest (by decide) (by decide) (by decide) (by decide)
    (.inr hrest) (by decide)⟩

/-- **A comment in an open reference takes the next line in.** The error is reported behind the line,
and the assignment of the next line is not found. -/
theorem not_recovers_commentInReference :
    let line : Text := "x=$(a # b"
    let rest : Text := "y=1\n"
    (parse (line ++ ['\n'])).errors.map ParseError.line = [2] ∧
      (parse rest).statements.length = 1 ∧
      (parse (line ++ ['\n'] ++ rest)).statements.filter (fun s =>
        decide (byteSize (line ++ ['\n']) ≤ s.span.start)) = [] := by
  decide

end MakeBlueprint.Makefile
