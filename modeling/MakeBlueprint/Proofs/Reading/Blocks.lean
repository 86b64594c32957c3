import MakeBlueprint.Makefile.Cursor.Define
import MakeBlueprint.Proofs.Reading.Tokens

/-!
# Lines and definition blocks

Where a definition block ends does not depend on what stands behind its last line.

* `linesWithBreaks_append`: lines of a text that ends with a line break are cut before what follows.
* `linesWithBreaks_flatten`: the first lines of a text, put together, are cut into the same lines.
* `flatMap_lines`: lines with their line breaks put back are the text.
* `blockEnd?_append`, `tokensBefore_append`: so are the lines of a block and its tokens.
-/

namespace MakeBlueprint.Text

variable {s t : Text} {c : Char}

/-- The text ends with a line feed. -/
def EndsWithBreak (t : Text) : Prop := t.getLast? = some '\n'

theorem EndsWithBreak.ne_nil (h : EndsWithBreak t) : t ≠ [] := by
  rintro rfl
  cases h

theorem endsWithBreak_cons (ht : t ≠ []) : EndsWithBreak (c :: t) ↔ EndsWithBreak t := by
  obtain ⟨d, t, rfl⟩ := List.exists_cons_of_ne_nil ht
  simp [EndsWithBreak]

theorem EndsWithBreak.tail (h : EndsWithBreak (c :: t)) (hc : c ≠ '\n') : EndsWithBreak t := by
  by_cases ht : t = []
  · subst ht
    exact absurd (Option.some.inj h) hc
  · exact (endsWithBreak_cons ht).mp h

theorem linesWithBreaks_ne_nil (ht : t ≠ []) : linesWithBreaks t ≠ [] := by
  obtain ⟨c, t, rfl⟩ := List.exists_cons_of_ne_nil ht
  rw [linesWithBreaks]
  split
  · exact List.cons_ne_nil _ _
  · exact glue_ne_nil _ _

theorem glue_append {ps qs : List Text} (hps : ps ≠ []) : glue s (ps ++ qs) = glue s ps ++ qs := by
  obtain ⟨p, ps, rfl⟩ := List.exists_cons_of_ne_nil hps
  rfl

/-- **Lines behind a line break** are lines of their own. -/
theorem linesWithBreaks_append (h : EndsWithBreak s) (t : Text) :
    linesWithBreaks (s ++ t) = linesWithBreaks s ++ linesWithBreaks t := by
  induction s with
  | nil => cases h
  | cons c s ih =>
    rw [List.cons_append, linesWithBreaks, linesWithBreaks]
    split
    · by_cases hs : s = []
      · rw [hs]
        rfl
      · rw [ih ((endsWithBreak_cons hs).mp h), List.cons_append]
    · next hc =>
      have hs := h.tail hc
      rw [ih hs, glue_append (linesWithBreaks_ne_nil hs.ne_nil)]

/-- A line that ends with a line break, in front of other lines. -/
theorem linesWithBreaks_line {l : Text} (h : '\n' ∉ l) (t : Text) :
    linesWithBreaks (l ++ '\n' :: t) = (l ++ ['\n']) :: linesWithBreaks t := by
  induction l with
  | nil => rfl
  | cons c l ih =>
    rw [List.mem_cons, not_or] at h
    rw [List.cons_append, linesWithBreaks, if_neg (Ne.symm h.1), ih h.2]
    rfl

theorem linesWithBreaks_of_not_mem (h : '\n' ∉ t) (ht : t ≠ []) : linesWithBreaks t = [t] := by
  induction t with
  | nil => exact absurd rfl ht
  | cons c t ih =>
    rw [List.mem_cons, not_or] at h
    rw [linesWithBreaks, if_neg (Ne.symm h.1)]
    by_cases hnil : t = []
    · subst hnil
      rfl
    · rw [ih h.2 hnil]
      rfl

/-- A line in front of others ends with a line break. -/
theorem exists_of_linesWithBreaks {l : Text} {ls : List Text} (h : linesWithBreaks t = l :: ls)
    (hls : ls ≠ []) : ∃ w u, '\n' ∉ w ∧ l = w ++ ['\n'] ∧ ls = linesWithBreaks u := by
  by_cases hbreak : '\n' ∈ t
  · obtain ⟨w, u, rfl, hw⟩ := List.eq_append_cons_of_mem hbreak
    rw [linesWithBreaks_line hw] at h
    obtain ⟨rfl, rfl⟩ := List.cons.inj h
    exact ⟨w, u, hw, rfl, rfl⟩
  · have ht : t ≠ [] := by
      rintro rfl
      cases h
    rw [linesWithBreaks_of_not_mem hbreak ht] at h
    exact absurd (List.cons.inj h).2.symm hls

/-- **The first lines of a text** are lines by themselves. -/
theorem linesWithBreaks_flatten {ls ms : List Text} (h : linesWithBreaks t = ls ++ ms)
    (hms : ms ≠ []) : linesWithBreaks ls.flatten = ls := by
  induction ls generalizing t with
  | nil => rfl
  | cons l ls ih =>
    obtain ⟨w, u, hw, rfl, hrest⟩ := exists_of_linesWithBreaks h
      (List.append_ne_nil_of_right_ne_nil ls hms)
    rw [List.flatten_cons, List.append_assoc, List.singleton_append, linesWithBreaks_line hw,
      ih hrest.symm]

theorem endsWithBreak_flatten {ls ms : List Text} (h : linesWithBreaks t = ls ++ ms)
    (hls : ls ≠ []) (hms : ms ≠ []) : EndsWithBreak ls.flatten := by
  induction ls generalizing t with
  | nil => exact absurd rfl hls
  | cons l ls ih =>
    obtain ⟨w, u, hw, rfl, hrest⟩ := exists_of_linesWithBreaks h
      (List.append_ne_nil_of_right_ne_nil ls hms)
    unfold EndsWithBreak
    rw [List.flatten_cons, List.getLast?_append]
    by_cases hnil : ls = []
    · subst hnil
      simp
    · rw [ih hrest.symm hnil]
      rfl

theorem withoutBreak_line {l : Text} (h : '\r' ∉ l) : withoutBreak (l ++ ['\n']) = l := by
  have hreverse : (l ++ ['\n']).reverse = '\n' :: l.reverse := by simp
  unfold withoutBreak
  rw [hreverse]
  split
  · next r heq =>
    refine absurd (List.mem_reverse.mp ?_) h
    rw [(List.cons.inj heq).2]
    exact List.mem_cons_self
  · next r hne heq =>
    rw [← (List.cons.inj heq).2]
    exact List.reverse_reverse l
  · next hne hne' => exact absurd rfl (hne' _)

theorem withoutBreak_of_not_mem (h : '\n' ∉ t) : withoutBreak t = t := by
  have hne : ∀ r, t.reverse ≠ '\n' :: r := by
    intro r hr
    refine absurd (List.mem_reverse.mp ?_) h
    rw [hr]
    exact List.mem_cons_self
  unfold withoutBreak
  split
  · next heq => exact absurd heq (hne _)
  · next heq => exact absurd heq (hne _)
  · rfl

/-- **Lines lose nothing but the line break at the end**, if there is no carriage return. -/
theorem flatMap_lines (hreturn : '\r' ∉ t) (hne : t ≠ []) (hlast : t.getLast? ≠ some '\n') :
    ((lines t).flatMap fun l => l ++ ['\n']) = t ++ ['\n'] ∧ ∀ l ∈ lines t, '\n' ∉ l := by
  induction hn : t.length using Nat.strongRecOn generalizing t with
  | ind n ih =>
    unfold lines
    by_cases hbreak : '\n' ∈ t
    · obtain ⟨w, u, rfl, hw⟩ := List.eq_append_cons_of_mem hbreak
      have hparts : '\r' ∉ w ∧ '\r' ∉ u := by simp_all
      have hu : u ≠ [] := by
        rintro rfl
        exact hlast (by simp)
      have hlastu : u.getLast? ≠ some '\n' := by
        intro hlu
        refine hlast ?_
        rw [List.getLast?_append, List.getLast?_cons, hlu]
        rfl
      obtain ⟨hflat, hmem⟩ := ih u.length (by simp at hn; omega) hparts.2 hu hlastu rfl
      rw [linesWithBreaks_line hw, List.map_cons, withoutBreak_line hparts.1, List.flatMap_cons]
      refine ⟨?_, List.forall_mem_cons.mpr ⟨hw, hmem⟩⟩
      have hrest : ((linesWithBreaks u).map withoutBreak).flatMap (fun l => l ++ ['\n']) =
          u ++ ['\n'] := hflat
      rw [hrest]
      simp
    · rw [linesWithBreaks_of_not_mem hbreak hne, List.map_singleton, withoutBreak_of_not_mem hbreak]
      exact ⟨List.append_nil _, List.forall_mem_singleton.mpr hbreak⟩

/-- What is dropped at the end of a text is of the class. -/
theorem exists_dropEndWhile_append (p : Char → Bool) (t : Text) :
    ∃ v, t = dropEndWhile p t ++ v ∧ ∀ c ∈ v, p c = true := by
  refine ⟨(t.reverse.takeWhile p).reverse, ?_, fun c hc => ?_⟩
  · unfold dropEndWhile
    rw [← List.reverse_append, List.takeWhile_append_dropWhile, List.reverse_reverse]
  · exact List.all_eq_true.mp List.all_takeWhile c (List.mem_reverse.mp hc)

theorem byteSize_dropEndWhile_le (p : Char → Bool) (t : Text) :
    byteSize (dropEndWhile p t) ≤ byteSize t := by
  obtain ⟨u, hu, -⟩ := exists_dropEndWhile_append p t
  have hsize := congrArg byteSize hu
  rw [byteSize_append] at hsize
  exact hsize ▸ Nat.le_add_right _ _

end MakeBlueprint.Text

namespace MakeBlueprint.Makefile

variable {s t : Text}

theorem splitAtEndLine?_append {ls ms : List Text} {r : List Text × Text}
    (h : splitAtEndLine? ls = some r) : splitAtEndLine? (ls ++ ms) = some r := by
  induction ls generalizing r with
  | nil => cases h
  | cons l ls ih =>
    rw [splitAtEndLine?] at h
    rw [List.cons_append, splitAtEndLine?]
    split at h
    · next hl => rw [if_pos hl, h]
    · next hl =>
      obtain ⟨r', hrest, heq⟩ := Option.map_eq_some_iff.mp h
      rw [if_neg hl, ih hrest, ← heq]
      rfl

/-- The lines before the end of a block, and the line that ends it. -/
theorem exists_of_splitAtEndLine? {ls before : List Text} {last : Text}
    (h : splitAtEndLine? ls = some (before, last)) : ∃ after, ls = before ++ last :: after := by
  induction ls generalizing before with
  | nil => cases h
  | cons l ls ih =>
    rw [splitAtEndLine?] at h
    split at h
    · cases h
      exact ⟨ls, rfl⟩
    · obtain ⟨⟨before, last⟩, hrest, heq⟩ := Option.map_eq_some_iff.mp h
      cases heq
      obtain ⟨after, rfl⟩ := ih hrest
      exact ⟨after, rfl⟩

theorem notEndLine_of_splitAtEndLine? {ls before : List Text} {last : Text}
    (h : splitAtEndLine? ls = some (before, last)) : ∀ l ∈ before, isEndLine l = false := by
  induction ls generalizing before with
  | nil => cases h
  | cons l ls ih =>
    rw [splitAtEndLine?] at h
    split at h
    · cases h
      exact fun l hl => absurd hl List.not_mem_nil
    · next hl =>
      obtain ⟨⟨before, last⟩, hrest, heq⟩ := Option.map_eq_some_iff.mp h
      cases heq
      exact List.forall_mem_cons.mpr ⟨Bool.eq_false_iff.mpr hl, ih hrest⟩

theorem isEndLine_of_splitAtEndLine? {ls before : List Text} {last : Text}
    (h : splitAtEndLine? ls = some (before, last)) : isEndLine last = true := by
  induction ls generalizing before with
  | nil => cases h
  | cons l ls ih =>
    rw [splitAtEndLine?] at h
    split at h
    · next hl =>
      cases h
      exact hl
    · obtain ⟨⟨before, last⟩, hrest, heq⟩ := Option.map_eq_some_iff.mp h
      cases heq
      exact ih hrest

theorem splitAtEndLine?_of_notEndLine {before after : List Text} {last : Text}
    (hbefore : ∀ l ∈ before, isEndLine l = false) (hlast : isEndLine last = true) :
    splitAtEndLine? (before ++ last :: after) = some (before, last) := by
  induction before with
  | nil => rw [List.nil_append, splitAtEndLine?, if_pos hlast]
  | cons l before ih =>
    obtain ⟨hl, hbefore⟩ := List.forall_mem_cons.mp hbefore
    rw [List.cons_append, splitAtEndLine?, hl, if_neg Bool.false_ne_true, ih hbefore]
    rfl

/-- **A block ends before what follows its last line.** -/
theorem blockEnd?_append {r : Text × Nat} (hs : Text.EndsWithBreak s) (h : blockEnd? s = some r) :
    blockEnd? (s ++ t) = some r := by
  unfold blockEnd? at h ⊢
  rw [Text.linesWithBreaks_append hs]
  cases hlines : Text.linesWithBreaks s with
  | nil =>
    rw [hlines] at h
    cases h
  | cons first lines =>
    rw [hlines] at h
    obtain ⟨⟨before, last⟩, hsplit, heq⟩ := Option.map_eq_some_iff.mp h
    rw [List.cons_append]
    dsimp only
    rw [splitAtEndLine?_append hsplit, ← heq]
    rfl

/-- A block is part of its text. -/
theorem le_of_blockEnd? {body : Text} {size : Nat} (h : blockEnd? s = some (body, size)) :
    size ≤ Text.byteSize s := by
  unfold blockEnd? at h
  split at h
  · cases h
  · next first lines hlines =>
    obtain ⟨⟨before, last⟩, hsplit, heq⟩ := Option.map_eq_some_iff.mp h
    obtain ⟨after, rfl⟩ := exists_of_splitAtEndLine? hsplit
    have hflat := Text.flatten_linesWithBreaks s
    have hlast := Text.byteSize_dropEndWhile_le (fun c => c == '\n' || c == '\r') last
    rw [hlines] at hflat
    cases heq
    rw [← hflat]
    simp only [List.flatten_cons, List.flatten_append, Text.byteSize_append]
    omega

theorem tokensBefore_append {ts us : List Token} {limit : Nat}
    (h : limit ≤ Text.byteSize (Token.textOf ts)) :
    tokensBefore limit (ts ++ us) = tokensBefore limit ts ∧ tokensBefore limit ts ≤ ts.length := by
  induction ts generalizing limit with
  | nil =>
    obtain rfl : limit = 0 := Nat.le_zero.mp h
    refine ⟨?_, Nat.le_refl _⟩
    cases us <;> rfl
  | cons t ts ih =>
    rw [Token.textOf, List.flatMap_cons, Text.byteSize_append] at h
    rw [List.cons_append, tokensBefore, tokensBefore]
    split
    · exact ⟨rfl, Nat.zero_le _⟩
    · have hrest : limit - Text.byteSize t.text ≤ Text.byteSize (Token.textOf ts) := by
        rw [Token.textOf]
        omega
      obtain ⟨heq, hle⟩ := ih hrest
      rw [heq, List.length_cons]
      exact ⟨rfl, by omega⟩

/-- Tokens that cover a text are counted to its end. -/
theorem tokensBefore_textOf {ts us : List Token} (hformed : ∀ t ∈ ts, t.Formed) :
    tokensBefore (Text.byteSize (Token.textOf ts)) (ts ++ us) = ts.length := by
  induction ts with
  | nil => cases us <;> rfl
  | cons t ts ih =>
    obtain ⟨ht, hts⟩ := List.forall_mem_cons.mp hformed
    have hpos := Text.byteSize_pos ht.text_ne_nil
    rw [List.cons_append, tokensBefore, Token.textOf, List.flatMap_cons, Text.byteSize_append,
      if_neg (by omega), Nat.add_sub_cancel_left, List.length_cons, Nat.add_comm]
    exact congrArg (· + 1) (ih hts)

namespace Token

/-- Tokens that end a line are a text that does. -/
theorem endsWithBreak_textOf {ts : List Token} (h : EndsLine ts) (hformed : ∀ t ∈ ts, t.Formed) :
    Text.EndsWithBreak (textOf ts) := by
  obtain ⟨⟨kind, text⟩, ht, hk⟩ := h
  cases hk
  obtain ⟨us, rfl⟩ := List.getLast?_eq_some_iff.mp ht
  have htext := hformed ⟨.newline, text⟩ (by simp)
  unfold Text.EndsWithBreak textOf
  rw [List.flatMap_append]
  rcases htext with htext | htext
  · rw [show text = ['\n'] from htext]
    simp
  · rw [show text = ['\r', '\n'] from htext]
    simp

end Token

end MakeBlueprint.Makefile
