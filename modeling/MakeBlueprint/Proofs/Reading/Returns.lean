import MakeBlueprint.Proofs.Reading.Abreast.Documents
import Mathlib.Data.List.Induction

/-!
# Carriage returns

A text with a carriage return in front of every line feed (`Text.withReturns`) is read as the text
itself. `Text.returned` says where a position of the text is then.

* `Text.lineAt_returned`, `Text.columnAt_returned`: lines and columns stay the same.
* `paired_withReturns`: the tokens of the two texts are paired, if no backslash is behind a dollar
  sign.
* `parse_withReturns`: the statements and the errors of the two texts.
-/

namespace MakeBlueprint

namespace Text

/-- The text with a carriage return in front of every line feed. -/
def withReturns (t : Text) : Text := t.flatMap fun c => if c = '\n' then ['\r', '\n'] else [c]

/-- The position, in the text with carriage returns, for a position in a text. -/
def returned : Text → Nat → Nat
  | [], n => n
  | c :: t, n =>
    if n < c.utf8Size then n
    else (if c = '\n' then 2 else c.utf8Size) + returned t (n - c.utf8Size)

variable {c : Char} {s t w : Text} {n : Nat}

theorem withReturns_append (s t : Text) : withReturns (s ++ t) = withReturns s ++ withReturns t :=
  List.flatMap_append

theorem withReturns_newline (t : Text) : withReturns ('\n' :: t) = '\r' :: '\n' :: withReturns t :=
  rfl

theorem withReturns_cons (hc : c ≠ '\n') : withReturns (c :: t) = c :: withReturns t := by
  unfold withReturns
  rw [List.flatMap_cons, if_neg hc]
  rfl

theorem withReturns_of_not_mem (h : '\n' ∉ w) : withReturns w = w := by
  induction w with
  | nil => rfl
  | cons c w ih =>
    rw [List.mem_cons, not_or] at h
    rw [withReturns_cons (Ne.symm h.1), ih h.2]

/-! ## Positions -/

theorem returned_of_lt (h : n < c.utf8Size) : returned (c :: t) n = n := if_pos h

theorem returned_zero (t : Text) : returned t 0 = 0 := by
  cases t with
  | nil => rfl
  | cons c t => exact returned_of_lt (Char.utf8Size_pos c)

theorem returned_newline (t : Text) (n : Nat) :
    returned ('\n' :: t) ('\n'.utf8Size + n) = 2 + returned t n := by
  rw [returned, if_neg (Nat.not_lt.mpr (Nat.le_add_right _ _)), if_pos rfl, Nat.add_sub_cancel_left]

theorem returned_cons (hc : c ≠ '\n') (t : Text) (n : Nat) :
    returned (c :: t) (c.utf8Size + n) = c.utf8Size + returned t n := by
  rw [returned, if_neg (Nat.not_lt.mpr (Nat.le_add_right _ _)), if_neg hc, Nat.add_sub_cancel_left]

/-- **Positions behind the beginning of a text** move on by the carriage returns in it. -/
theorem returned_append (s t : Text) (n : Nat) :
    returned (s ++ t) (byteSize s + n) = byteSize (withReturns s) + returned t n := by
  induction s with
  | nil => simp [withReturns, byteSize]
  | cons c s ih =>
    rw [List.cons_append, byteSize, Nat.add_assoc]
    by_cases hc : c = '\n'
    · subst hc
      rw [returned_newline, ih, withReturns_newline, byteSize, byteSize, ← Nat.add_assoc,
        ← Nat.add_assoc]
      rfl
    · rw [returned_cons hc, ih, withReturns_cons hc, byteSize, Nat.add_assoc]

theorem returned_of_not_mem (h : '\n' ∉ w) (hn : n ≤ byteSize w) : returned (w ++ t) n = n := by
  induction w generalizing n with
  | nil =>
    rw [Nat.le_zero.mp hn]
    exact returned_zero _
  | cons c w ih =>
    rw [List.mem_cons, not_or] at h
    by_cases hlt : n < c.utf8Size
    · exact returned_of_lt hlt
    · obtain ⟨m, rfl⟩ := Nat.exists_eq_add_of_le (Nat.not_lt.mp hlt)
      rw [List.cons_append, returned_cons (Ne.symm h.1),
        ih h.2 (Nat.le_of_add_le_add_left (byteSize.eq_2 c w ▸ hn))]

theorem strictMono_returned (t : Text) : StrictMono (returned t) := by
  induction t with
  | nil => exact fun n m h => h
  | cons c t ih =>
    intro n m h
    rw [returned, returned]
    have hsize : c.utf8Size ≤ if c = '\n' then 2 else c.utf8Size := by
      split
      · next hc =>
        subst hc
        decide
      · exact Nat.le_refl _
    by_cases hm : m < c.utf8Size
    · rwa [if_pos hm, if_pos (Nat.lt_trans h hm)]
    · rw [if_neg hm]
      split
      · omega
      · next hn =>
        have := @ih (n - c.utf8Size) (m - c.utf8Size) (by omega)
        omega

/-! ## Lines and columns -/

/-- A position before, inside or behind the first character. -/
theorem position_cases (c : Char) (n : Nat) :
    n = 0 ∨ c ≠ '\n' ∧ n ≠ 0 ∧ n < c.utf8Size ∨ ∃ m, n = c.utf8Size + m := by
  rcases Nat.lt_or_ge n c.utf8Size with hlt | hle
  · by_cases hn : n = 0
    · exact .inl hn
    · refine .inr (.inl ⟨?_, hn, hlt⟩)
      rintro rfl
      exact hn (Nat.lt_one_iff.mp hlt)
  · exact .inr (.inr (Nat.exists_eq_add_of_le hle))

theorem lineAt_inside (hc : c ≠ '\n') (hn : n ≤ c.utf8Size) : lineAt n (c :: t) = 1 := by
  rw [lineAt]
  split
  · rfl
  · rw [Nat.zero_add, Nat.sub_eq_zero_of_le hn, lineAt_zero]

theorem lineAt_behind (c : Char) (t : Text) (n : Nat) :
    lineAt (c.utf8Size + n) (c :: t) = (if c = '\n' then 1 else 0) + lineAt n t := by
  have hpos := Char.utf8Size_pos c
  rw [lineAt, if_neg (by omega), Nat.add_sub_cancel_left]

theorem lineAt_behind_break (t : Text) (n : Nat) :
    lineAt (2 + n) ('\r' :: '\n' :: t) = 1 + lineAt n t := by
  have hreturn := lineAt_behind '\r' ('\n' :: t) (1 + n)
  rw [show '\r'.utf8Size = 1 from rfl, ← Nat.add_assoc] at hreturn
  rw [hreturn, if_neg (by decide), Nat.zero_add]
  exact lineAt_behind '\n' t n

/-- **The line of a position stays the same.** -/
theorem lineAt_returned (t : Text) (n : Nat) :
    lineAt (returned t n) (withReturns t) = lineAt n t := by
  induction t generalizing n with
  | nil => rfl
  | cons c t ih =>
    rcases position_cases c n with rfl | ⟨hc, hn, hlt⟩ | ⟨m, rfl⟩
    · rw [returned_zero, lineAt_zero, lineAt_zero]
    · rw [returned_of_lt hlt, withReturns_cons hc, lineAt_inside hc (Nat.le_of_lt hlt),
        lineAt_inside hc (Nat.le_of_lt hlt)]
    · rw [lineAt_behind]
      by_cases hc : c = '\n'
      · subst hc
        rw [returned_newline, withReturns_newline, lineAt_behind_break, ih, if_pos rfl]
      · rw [returned_cons hc, withReturns_cons hc, lineAt_behind, ih]

/-- The line of the last byte before a position stays the same. -/
theorem lineAt_returned_sub_one (t : Text) (hn : n ≠ 0) :
    lineAt (returned t n - 1) (withReturns t) = lineAt (n - 1) t := by
  induction t generalizing n with
  | nil => rfl
  | cons c t ih =>
    rcases position_cases c n with rfl | ⟨hc, -, hlt⟩ | ⟨m, rfl⟩
    · exact absurd rfl hn
    · rw [returned_of_lt hlt, withReturns_cons hc, lineAt_inside hc (by omega),
        lineAt_inside hc (by omega)]
    · have hpos := Char.utf8Size_pos c
      by_cases hm : m = 0
      · subst hm
        by_cases hc : c = '\n'
        · subst hc
          rw [returned_newline, returned_zero, withReturns_newline]
          rfl
        · rw [returned_cons hc, returned_zero, withReturns_cons hc, lineAt_inside hc (by omega),
            lineAt_inside hc (by omega)]
      · have hmono : returned t m ≠ 0 := by
          have := strictMono_returned t (Nat.pos_of_ne_zero hm)
          rw [returned_zero] at this
          omega
        rw [show c.utf8Size + m - 1 = c.utf8Size + (m - 1) by omega, lineAt_behind, ← ih hm]
        by_cases hc : c = '\n'
        · subst hc
          rw [returned_newline, withReturns_newline,
            show 2 + returned t m - 1 = 2 + (returned t m - 1) by omega, lineAt_behind_break,
            if_pos rfl]
        · rw [returned_cons hc, withReturns_cons hc,
            show c.utf8Size + returned t m - 1 = c.utf8Size + (returned t m - 1) by omega,
            lineAt_behind]

theorem columnFrom_inside (hc : c ≠ '\n') (column : Nat) (hn : n ≤ c.utf8Size) :
    columnFrom column n (c :: t) = column + n := by
  have hzero : ∀ k, columnFrom k 0 t = k := fun k => by cases t <;> rfl
  rw [columnFrom]
  split
  · next h => rw [h, Nat.add_zero]
  · rw [Nat.sub_eq_zero_of_le hn, hzero, Nat.min_eq_right hn]

theorem columnFrom_behind (hc : c ≠ '\n') (column : Nat) (t : Text) (n : Nat) :
    columnFrom column (c.utf8Size + n) (c :: t) = columnFrom (column + c.utf8Size) n t := by
  have hpos := Char.utf8Size_pos c
  rw [columnFrom, if_neg (by omega), if_neg hc, Nat.add_sub_cancel_left,
    Nat.min_eq_left (Nat.le_add_right _ _)]

theorem columnFrom_newline (column : Nat) (t : Text) (n : Nat) :
    columnFrom column ('\n'.utf8Size + n) ('\n' :: t) = columnFrom 1 n t := by
  rw [columnFrom, if_neg (Nat.ne_of_gt (Nat.lt_add_right n (Char.utf8Size_pos _))), if_pos rfl,
    Nat.add_sub_cancel_left]

/-- The column of a position stays the same, whatever the column of the first character is. -/
theorem columnFrom_returned (column : Nat) (t : Text) (n : Nat) :
    columnFrom column (returned t n) (withReturns t) = columnFrom column n t := by
  induction t generalizing n column with
  | nil => rfl
  | cons c t ih =>
    rcases position_cases c n with rfl | ⟨hc, hn, hlt⟩ | ⟨m, rfl⟩
    · rw [returned_zero]
      generalize withReturns (c :: t) = u
      cases u <;> rfl
    · rw [returned_of_lt hlt, withReturns_cons hc, columnFrom_inside hc _ (Nat.le_of_lt hlt),
        columnFrom_inside hc _ (Nat.le_of_lt hlt)]
    · by_cases hc : c = '\n'
      · subst hc
        rw [returned_newline, withReturns_newline, show 2 + returned t m = '\r'.utf8Size +
          ('\n'.utf8Size + returned t m) from Nat.add_assoc 1 1 _, columnFrom_behind (by decide),
          columnFrom_newline, columnFrom_newline, ih]
      · rw [returned_cons hc, withReturns_cons hc, columnFrom_behind hc, columnFrom_behind hc, ih]

/-- **The column of a position stays the same.** -/
theorem columnAt_returned (t : Text) (n : Nat) :
    columnAt (returned t n) (withReturns t) = columnAt n t :=
  columnFrom_returned 1 t n

/-! ## Quotes -/

theorem dropEndWhile_concat_of_neg {p : Char → Bool} (h : ¬ p c = true) :
    dropEndWhile p (t ++ [c]) = t ++ [c] := by
  unfold dropEndWhile
  rw [List.reverse_append, List.reverse_singleton, List.singleton_append, List.dropWhile_cons,
    if_neg h, List.reverse_cons, List.reverse_reverse]

/-- Line breaks are trimmed with or without a carriage return. -/
theorem trimEnd_withReturns (t : Text) : trimEnd (withReturns t) = withReturns (trimEnd t) := by
  unfold trimEnd
  induction t using List.reverseRecOn with
  | nil => rfl
  | append_singleton t c ih =>
    rw [withReturns_append]
    by_cases hc : isWhite c = true
    · have hwhite : ∀ x ∈ withReturns [c], isWhite x = true := by
        by_cases hnewline : c = '\n'
        · subst hnewline
          exact List.forall_mem_cons.mpr ⟨rfl, List.forall_mem_singleton.mpr rfl⟩
        · rw [withReturns_cons hnewline]
          exact List.forall_mem_singleton.mpr hc
      rw [dropEndWhile_append_of_all hwhite,
        dropEndWhile_append_of_all (List.forall_mem_singleton.mpr hc), ih]
    · have hnewline : c ≠ '\n' := by
        rintro rfl
        exact hc rfl
      have hsame : withReturns [c] = [c] := withReturns_cons hnewline
      rw [hsame, dropEndWhile_concat_of_neg hc, dropEndWhile_concat_of_neg hc, withReturns_append,
        hsame]

theorem lines_newline (t : Text) : lines ('\n' :: t) = [] :: lines t := rfl

/-- A line break with a carriage return ends a line as one without. -/
theorem lines_return (t : Text) : lines ('\r' :: '\n' :: t) = [] :: lines t := rfl

theorem withoutBreak_cons (hnewline : c ≠ '\n') (hreturn : c ≠ '\r') :
    withoutBreak (c :: t) = c :: withoutBreak t := by
  unfold withoutBreak
  rw [List.reverse_cons]
  cases t.reverse with
  | nil => simp [hnewline]
  | cons x r =>
    by_cases hx : x = '\n'
    · subst hx
      cases r with
      | nil => simp [hreturn]
      | cons y r =>
        by_cases hy : y = '\r'
        · subst hy
          simp
        · simp [hy]
    · simp [hx]

theorem lines_cons (hnewline : c ≠ '\n') (hreturn : c ≠ '\r') :
    lines (c :: t) = glue [c] (lines t) := by
  unfold lines
  rw [linesWithBreaks, if_neg hnewline]
  cases linesWithBreaks t with
  | nil => exact congrArg (fun l => [l]) (withoutBreak_cons hnewline hreturn)
  | cons l ls => exact congrArg (· :: ls.map withoutBreak) (withoutBreak_cons hnewline hreturn)

/-- **A text has the same lines with carriage returns**, if it has none of its own. -/
theorem lines_withReturns (h : '\r' ∉ t) : lines (withReturns t) = lines t := by
  induction t with
  | nil => rfl
  | cons c t ih =>
    rw [List.mem_cons, not_or] at h
    by_cases hc : c = '\n'
    · subst hc
      rw [withReturns_newline, lines_return, lines_newline, ih h.2]
    · rw [withReturns_cons hc, lines_cons hc (Ne.symm h.1), lines_cons hc (Ne.symm h.1), ih h.2]

end Text

namespace Makefile

open Text (byteSize withReturns returned)
open Token (lex textOf)

/-! ## Tokens -/

/-- The positions of a text, in the text with carriage returns. -/
def returning (t : Text) : Alignment where
  place := returned t
  strictMono := Text.strictMono_returned t
  returns := True
  joins _ := False
  bound _ := False
  apart _ _ := id

variable {t before s : Text} {n n' : Nat} {u : Token} {ts ts' : List Token}

/-- Two texts of which only line breaks differ have the same tokens between line breaks. -/
theorem paired_same (hplace : ∀ k ≤ byteSize u.text, returned t (n + k) = n' + k)
    (hlast : u.kind = .backslash → ts = [])
    (hdollar : u.kind = .dollar → ∀ v ∈ ts.head?, v.kind ≠ .newline → ts'.head? = some v)
    (hrest : Paired (returning t) (n + byteSize u.text) (n' + byteSize u.text) ts ts') :
    Paired (returning t) n n' (u :: ts) (u :: ts') :=
  .same hplace (fun _ _ => id) hlast hdollar (fun _ hawaits => hawaits.2.elim) hrest

/-- A character in front of paired tokens. -/
theorem paired_consIdentifier {c : Char} (hplace : ∀ k ≤ c.utf8Size, returned t (n + k) = n' + k)
    (h : Paired (returning t) (n + c.utf8Size) (n' + c.utf8Size) ts ts') :
    Paired (returning t) n n' (Token.consIdentifier c ts) (Token.consIdentifier c ts') := by
  have hsize : byteSize [c] = c.utf8Size := Nat.add_zero _
  have hnew : Paired (returning t) n n' (⟨.identifier, [c]⟩ :: ts) (⟨.identifier, [c]⟩ :: ts') :=
    paired_same (by rwa [hsize]) (by simp) (by simp) (by rwa [hsize])
  unfold Token.consIdentifier
  cases h with
  | nil | newline | escape => exact hnew
  | join _ _ _ hjoin => exact hjoin.elim
  | @same _ _ v us us' hinside hjoin hlast hdollar hword hrest =>
    obtain ⟨kind, w⟩ := v
    cases kind with
    | identifier =>
      have hwhole : ∀ m : Nat, m + byteSize (c :: w) = m + c.utf8Size + byteSize w :=
        fun m => (Nat.add_assoc _ _ _).symm
      refine paired_same (fun k hk => ?_) (by simp) (by simp) (by rwa [hwhole, hwhole])
      rcases Nat.lt_or_ge c.utf8Size k with hlt | hle
      · obtain ⟨i, rfl⟩ := Nat.exists_eq_add_of_le (Nat.le_of_lt hlt)
        rw [← Nat.add_assoc, ← Nat.add_assoc]
        exact hinside i (Nat.le_of_add_le_add_left hk)
      · exact hplace k hle
    | _ => exact hnew

/-- Inside a part of a text without line feeds, positions move on together. -/
theorem returned_inside {w : Text} (ht : t = before ++ (w ++ s)) (hw : '\n' ∉ w) {k : Nat}
    (hk : k ≤ byteSize w) :
    returned t (byteSize before + k) = byteSize (withReturns before) + k := by
  rw [ht, Text.returned_append, Text.returned_of_not_mem hw hk]

theorem returned_at_backslash (ht : t = before ++ '\\' :: s) {k : Nat} (hk : k ≤ 1) :
    returned t (byteSize before + k) = byteSize (withReturns before) + k :=
  @returned_inside t before s ['\\'] ht (by decide) k hk

/-- Behind a dollar sign is the same token or a line break. -/
theorem head?_of_paired (h : Paired (returning t) n n' (lex s) ts') (hs : ∀ r, s ≠ '\\' :: r) :
    ∀ v ∈ (lex s).head?, v.kind ≠ .newline → ts'.head? = some v := by
  have htext := Token.textOf_lex s
  generalize lex s = ts at h htext
  intro v hv hkind
  cases h with
  | nil => cases hv
  | same =>
    cases hv
    rfl
  | newline =>
    cases hv
    exact absurd rfl hkind
  | escape => exact absurd htext.symm (hs _)
  | join _ _ _ hjoin => exact hjoin.elim

/-- An escape in front of paired tokens. -/
theorem paired_escape {c : Char} (ht : t = before ++ '\\' :: c :: s) (hreturn : c ≠ '\r')
    (hrest : Paired (returning t) (byteSize before + byteSize ['\\', c])
      (byteSize (withReturns before) + byteSize (withReturns ['\\', c])) (lex s)
      (lex (withReturns s))) :
    Paired (returning t) (byteSize before) (byteSize (withReturns before))
      (⟨.escape, ['\\', c]⟩ :: lex s) (lex (withReturns ('\\' :: c :: s))) := by
  by_cases hc : c = '\n'
  · subst hc
    rw [Text.withReturns_cons (by decide), Text.withReturns_newline, lex]
    exact .escape trivial (returned_at_backslash ht (Nat.zero_le 1))
      (returned_at_backslash ht (Nat.le_refl 1)) hrest
  · have hinside : '\n' ∉ ['\\', c] := by simp [Ne.symm hc]
    rw [Text.withReturns_of_not_mem hinside] at hrest
    rw [Text.withReturns_cons (by decide), Text.withReturns_cons hc, lex]
    · exact paired_same (fun k hk => returned_inside ht hinside hk) (by simp) (by simp) hrest
    · exact fun r hr => absurd hr hreturn

/-- A character that is a token by itself in front of paired tokens. -/
theorem paired_single {c : Char} {kind : Token.Kind} (ht : t = before ++ c :: s) (hc : c ≠ '\n')
    (hkind : Token.single? c = some kind) (hdollar : ¬ ['$', '\\'] <:+: c :: s)
    (hrest : Paired (returning t) (byteSize before + byteSize [c])
      (byteSize (withReturns before) + byteSize [c]) (lex s) ts') :
    Paired (returning t) (byteSize before) (byteSize (withReturns before))
      (⟨kind, [c]⟩ :: lex s) (⟨kind, [c]⟩ :: ts') := by
  have hinside : '\n' ∉ [c] := by simp [Ne.symm hc]
  refine paired_same (fun k hk => returned_inside ht hinside hk) ?_ ?_ hrest
  · rintro rfl
    exact absurd hkind (Token.single?_ne (.inl rfl))
  · rintro rfl
    refine head?_of_paired hrest ?_
    rintro r rfl
    rw [Token.eq_dollar_of_single hkind] at hdollar
    exact hdollar (List.IsPrefix.isInfix ⟨r, rfl⟩)

/-- The tokens of two parts of the texts are paired. -/
theorem paired_from (ht : t = before ++ s) (hreturn : '\r' ∉ s)
    (hdollar : ¬ ['$', '\\'] <:+: s) :
    Paired (returning t) (byteSize before) (byteSize (withReturns before)) (lex s)
      (lex (withReturns s)) := by
  have htail : ∀ {c : Char} {r : Text}, ¬ ['$', '\\'] <:+: c :: r → ¬ ['$', '\\'] <:+: r :=
    fun h hr => h (hr.trans (List.suffix_cons _ _).isInfix)
  fun_induction lex s generalizing before with
  | case1 =>
    have hend : t = before ++ ([] ++ []) := by simpa using ht
    exact .nil (returned_inside hend List.not_mem_nil (Nat.le_refl 0))
  | case2 s ih => simp at hreturn
  | case3 =>
    exact paired_same (fun _ => returned_at_backslash ht) (fun _ => rfl) (by simp)
      (.nil (returned_at_backslash ht (Nat.le_refl 1)))
  | case4 s ih => simp at hreturn
  | case5 c s hbreak ih =>
    rw [List.mem_cons, List.mem_cons, not_or, not_or] at hreturn
    have hrest := @ih (before ++ ['\\', c]) (by simpa using ht) hreturn.2.2 (htail (htail hdollar))
    rw [Text.withReturns_append, Text.byteSize_append, Text.byteSize_append] at hrest
    exact paired_escape ht (Ne.symm hreturn.2.1) hrest
  | case6 c s hbreak hlast hescape hbackslash kind hkind ih =>
    have hc := Token.ne_backslash hlast hbackslash
    rw [List.mem_cons, not_or] at hreturn
    have hrest := @ih (before ++ [c]) (by simpa using ht) hreturn.2 (htail hdollar)
    rw [Text.withReturns_append, Text.byteSize_append, Text.byteSize_append] at hrest
    by_cases hnewline : c = '\n'
    · subst hnewline
      cases hkind
      rw [Text.withReturns_newline, lex]
      have hplace := @returned_inside t before ('\n' :: s) [] ht List.not_mem_nil 0 (Nat.le_refl 0)
      exact .newline trivial hplace hrest
    · have hinside : '\n' ∉ [c] := by simp [Ne.symm hnewline]
      rw [Text.withReturns_of_not_mem hinside] at hrest
      rw [Text.withReturns_cons hnewline,
        Token.lex_cons hc fun r hr => absurd hr.symm hreturn.1, hkind]
      exact paired_single ht hnewline hkind hdollar hrest
  | case7 c s hbreak hlast hescape hbackslash hsingle ih =>
    have hc := Token.ne_backslash hlast hbackslash
    have hnewline : c ≠ '\n' := by
      rintro rfl
      cases hsingle
    rw [List.mem_cons, not_or] at hreturn
    have hinside : '\n' ∉ [c] := by simp [Ne.symm hnewline]
    have hrest := @ih (before ++ [c]) (by simpa using ht) hreturn.2 (htail hdollar)
    rw [Text.withReturns_append, Text.byteSize_append, Text.byteSize_append,
      Text.withReturns_of_not_mem hinside] at hrest
    rw [Text.withReturns_cons hnewline,
      Token.lex_cons hc fun r hr => absurd hr.symm hreturn.1, hsingle]
    exact paired_consIdentifier (fun k hk => returned_inside ht hinside hk) hrest

/-- **The tokens of a text and of the text with carriage returns are paired.** -/
theorem paired_withReturns (hreturn : '\r' ∉ t) (hdollar : ¬ ['$', '\\'] <:+: t) :
    Paired (returning t) 0 0 (lex t) (lex (withReturns t)) :=
  @paired_from t [] t rfl hreturn hdollar

/-! ## Documents -/

/-- What a user sees of an error. -/
def ParseError.shown (e : ParseError) : Text × Nat × Nat := (e.message, e.line, e.column)

/-- **A statement of the text with carriage returns says the same**, on the same lines, and quotes
the same lines. -/
structure Statement.Echoes (t : Text) (st st' : Statement) : Prop where
  content : st.content.Alike (returning t) False st'.content
  lines : st'.lines = st.lines
  quote : Text.lines (st'.quote (withReturns t)) = Text.lines (st.quote t)

theorem eq_locate {st : Statement} (h : st ∈ (parse t).statements) :
    st = locate t st.content st.span := by
  obtain ⟨s, -, rfl⟩ := List.mem_map.mp h
  rfl

theorem lines_locate_returned (t : Text) (content content' : Content) (span : Span) :
    (locate (withReturns t) content' (mapSpan (returned t) span)).lines =
      (locate t content span).lines := by
  have hlt : returned t span.start < returned t span.stop ↔ span.start < span.stop :=
    (Text.strictMono_returned t).lt_iff_lt
  unfold locate mapSpan
  simp only [hlt, Text.lineAt_returned, Span.mk.injEq, true_and]
  split
  · next h => exact Text.lineAt_returned_sub_one t (Nat.ne_of_gt (Nat.zero_lt_of_lt h))
  · rfl

/-- A statement quotes the same lines of both texts. -/
theorem lines_quote_returned {st st' : Statement} (hreturn : '\r' ∉ t)
    (h : st ∈ (parse t).statements) (hspan : st'.span = mapSpan (returned t) st.span) :
    Text.lines (st'.quote (withReturns t)) = Text.lines (st.quote t) := by
  obtain ⟨l, hl, -, hbounds, -⟩ := exists_interleave t
  rw [hl] at h
  obtain ⟨⟨content, span⟩, hmem, rfl⟩ := List.mem_map.mp h
  obtain ⟨hlt, hstart, hstop⟩ := hbounds _ hmem
  obtain ⟨before, part, after, rfl, -, hlo, hhi⟩ := Text.exists_part hstart hstop hlt
  have hspan : st'.span = mapSpan (returned (before ++ part ++ after)) span := hspan
  have hplace : ∀ u v : Text, returned (u ++ v) (byteSize u) = byteSize (withReturns u) := by
    intro u v
    have happend := Text.returned_append u v 0
    rwa [Text.returned_zero] at happend
  have hstart' : returned (before ++ part ++ after) span.start = byteSize (withReturns before) := by
    rw [← hlo, List.append_assoc, hplace]
  have hstop' : returned (before ++ part ++ after) span.stop =
      byteSize (withReturns before ++ withReturns part) := by
    rw [← hhi, hplace, Text.withReturns_append]
  have hslice : Text.slice? (locate (before ++ part ++ after) content span).span
      (before ++ part ++ after) = some part := by
    change Text.slice? span _ = _
    rw [show span = ⟨byteSize before, byteSize (before ++ part)⟩ by rw [hlo, hhi],
      Text.slice?_append]
  have hslice' : Text.slice? st'.span (withReturns (before ++ part ++ after)) =
      some (withReturns part) := by
    rw [hspan, mapSpan, hstart', hstop', Text.withReturns_append, Text.withReturns_append,
      Text.slice?_append]
  unfold Statement.quote
  rw [hslice, hslice']
  dsimp only
  rw [Text.trimEnd_withReturns]
  refine Text.lines_withReturns fun hmem => hreturn ?_
  have htrim : Text.trimEnd part <+: part := by
    unfold Text.trimEnd Text.dropEndWhile
    rw [← List.reverse_suffix, List.reverse_reverse]
    exact List.dropWhile_suffix _
  exact List.mem_append_left _ (List.mem_append_right _ (htrim.subset hmem))

/-- **A text with carriage returns is read as the text without them.** -/
theorem parse_withReturns (hreturn : '\r' ∉ t) (hdollar : ¬ ['$', '\\'] <:+: t) :
    List.Forall₂ (Statement.Echoes t) (parse t).statements (parse (withReturns t)).statements ∧
    (parse (withReturns t)).errors.map ParseError.shown =
      (parse t).errors.map ParseError.shown := by
  have hclear : ∀ {lo hi : Nat}, ¬ (returning t).JoinsIn lo hi := fun ⟨_, h, _⟩ => h
  obtain ⟨hstatements, herrors⟩ := (paired_withReturns hreturn hdollar).parse
    (fun _ _ h => h) (fun s _ => by
      unfold Alignment.Spares
      split
      · exact ⟨id, fun _ _ h => h.elim⟩
      · exact id
      · exact fun _ h => h
      · trivial)
    (fun _ _ => hclear)
  constructor
  · refine (forall₂_mem hstatements).imp fun s s' ⟨hs, hs', hsame⟩ => ?_
    have hspan : s'.span = mapSpan (returned t) s.span := hsame.span
    refine ⟨?_, ?_, lines_quote_returned hreturn hs hspan⟩
    · have hcontent : Content.Alike (returning t) _ s.content s'.content := hsame.content
      generalize s.content = content, s'.content = content' at hcontent
      cases hcontent with
      | bare h => exact .bare h
      | comment hfree => exact absurd hfree hclear
      | rule hreturns htarget hprerequisites => exact .rule hreturns htarget hprerequisites
      | define hreturns => exact .define hreturns
    · rw [eq_locate hs', eq_locate hs, hspan]
      exact lines_locate_returned t _ _ _
  · have hlocated : ∀ {source : Text} {e : ParseError}, e ∈ (parse source).errors →
        e.line = Text.lineAt e.offset source ∧ e.column = Text.columnAt e.offset source := by
      intro source e he
      obtain ⟨f, -, rfl⟩ := List.mem_map.mp he
      exact ⟨rfl, rfl⟩
    have hshown : List.Forall₂ (fun e e' => ParseError.shown e = ParseError.shown e')
        (parse t).errors (parse (withReturns t)).errors := by
      refine (forall₂_mem herrors).imp fun e e' ⟨he, he', hmessage, hoffset⟩ => ?_
      have hoffset : e'.offset = returned t e.offset := hoffset
      unfold ParseError.shown
      rw [(hlocated he).1, (hlocated he).2, (hlocated he').1, (hlocated he').2, hmessage, hoffset,
        Text.lineAt_returned, Text.columnAt_returned]
    rw [← List.forall₂_map_right_iff, ← List.forall₂_map_left_iff, List.forall₂_eq_eq_eq] at hshown
    exact hshown.symm

end Makefile

end MakeBlueprint
