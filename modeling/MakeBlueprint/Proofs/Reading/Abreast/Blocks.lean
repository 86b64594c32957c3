import MakeBlueprint.Proofs.Reading.Abreast.Phrases
import MakeBlueprint.Proofs.Reading.Blocks

/-!
# Definition blocks abreast

Definition blocks are read as lines of text, not as tokens. Texts of paired tokens are nearly the
same (`Twins`), up to the first escaped line break that is a blank in the first text, and so are
their lines (`TwinLines`).

* `TwinLine.isEndLine`: how a line is broken does not matter for the end of a block.
* `Twins.blockEnd?`: a block of the second text without such a line break is one in the first.
* `Abreast.defineArguments`: definitions are read abreast.
-/

namespace MakeBlueprint.Text

variable {s t w : Text}

theorem dropEndWhile_append_of_all {p : Char → Bool} (h : ∀ c ∈ w, p c = true) :
    dropEndWhile p (t ++ w) = dropEndWhile p t := by
  unfold dropEndWhile
  rw [List.reverse_append,
    List.dropWhile_append_of_pos fun c hc => h c (List.mem_reverse.mp hc)]

theorem dropEndWhile_cons {p : Char → Bool} {c : Char}
    (h : p c = false ∨ dropEndWhile p t ≠ []) :
    dropEndWhile p (c :: t) = c :: dropEndWhile p t := by
  unfold dropEndWhile at h ⊢
  rw [List.reverse_cons, List.dropWhile_append]
  split
  · next hnil =>
    have hc := h.resolve_right fun hne => hne (by simpa using hnil)
    have hnil : t.reverse.dropWhile p = [] := by simpa using hnil
    rw [hnil]
    simp [hc]
  · simp

/-- White characters at the end do not count when a text is trimmed. -/
theorem trim_append_white (h : ∀ c ∈ w, isWhite c = true) : trim (t ++ w) = trim t := by
  unfold trim trimStart trimEnd
  rw [List.dropWhile_append]
  split
  · next hnil =>
    have hnil : t.dropWhile isWhite = [] := by simpa using hnil
    have hw : w.dropWhile isWhite = [] := List.dropWhile_eq_nil_iff.mpr h
    rw [hnil, hw]
  · exact dropEndWhile_append_of_all h

theorem byteSize_le_withoutBreak (t : Text) : byteSize t ≤ byteSize (withoutBreak t) + 2 := by
  unfold withoutBreak
  split
  · next r heq =>
    have ht : t = r.reverse ++ ['\r', '\n'] := by simpa using congrArg List.reverse heq
    rw [ht, byteSize_append]
    exact Nat.le_refl _
  · next r _ heq =>
    have ht : t = r.reverse ++ ['\n'] := by simpa using congrArg List.reverse heq
    rw [ht, byteSize_append]
    exact Nat.le_succ _
  · exact Nat.le_add_right _ 2

end MakeBlueprint.Text

namespace MakeBlueprint.Makefile

open Text (byteSize dropEndWhile linesWithBreaks)
open Token (textOf)

/-- A character of a line break. -/
def isBreak (c : Char) : Bool := c == '\n' || c == '\r'

/-! ## Texts -/

/-- **Two texts that are nearly the same**, from two positions on and up to the first escaped line
break that is a blank in the first. -/
inductive Twins (A : Alignment) : Nat → Nat → Text → Text → Prop
  | nil {n n' : Nat} (hplace : A.place n = n') : Twins A n n' [] []
  | same {n n' : Nat} {c : Char} {s s' : Text} (hplace : A.place n = n')
      (hrest : Twins A (n + c.utf8Size) (n' + c.utf8Size) s s') : Twins A n n' (c :: s) (c :: s')
  | newline {n n' : Nat} {s s' : Text} (hreturns : A.returns) (hplace : A.place n = n')
      (hrest : Twins A (n + 1) (n' + 2) s s') : Twins A n n' ('\n' :: s) ('\r' :: '\n' :: s')
  | join {n n' : Nat} {s s' : Text} (hplace : A.place n = n') (hjoin : A.joins n') :
      Twins A n n' s ('\\' :: s')

variable {A : Alignment} {n n' : Nat} {s s' : Text} {ts ts' : List Token}

theorem Twins.place (h : Twins A n n' s s') : A.place n = n' := by
  cases h with
  | nil hplace => exact hplace
  | same hplace => exact hplace
  | newline hreturns hplace => exact hplace
  | join hplace => exact hplace

theorem twins_append {u : Text} (hplace : ∀ k ≤ byteSize u, A.place (n + k) = n' + k)
    (h : Twins A (n + byteSize u) (n' + byteSize u) s s') : Twins A n n' (u ++ s) (u ++ s') := by
  induction u generalizing n n' with
  | nil => exact h
  | cons c u ih =>
    rw [byteSize] at h hplace
    rw [← Nat.add_assoc, ← Nat.add_assoc] at h
    refine .same (hplace 0 (Nat.zero_le _)) (ih (fun k hk => ?_) h)
    rw [Nat.add_assoc, Nat.add_assoc]
    exact hplace _ (Nat.add_le_add_left hk _)

/-- **Paired tokens have texts that are nearly the same.** -/
theorem Paired.twins (h : Paired A n n' ts ts') : Twins A n n' (textOf ts) (textOf ts') := by
  induction h with
  | nil hplace => exact .nil hplace
  | same hplace _ _ _ _ _ ih => exact twins_append hplace ih
  | newline hreturns hplace _ ih => exact .newline hreturns hplace ih
  | escape hreturns hplace hbehind _ ih => exact .same hplace (.newline hreturns hbehind ih)
  | @join n n' t ts ts' hkind _ hformed hjoin hplace =>
    obtain ⟨kind, text⟩ := t
    cases hkind
    rcases hformed with htext | ⟨c, htext⟩
    all_goals
      cases htext
      exact .join hplace hjoin

/-! ## Lines -/

/-- **Two lines that are the same**, but for a carriage return before the line feed. -/
structure TwinLine (A : Alignment) (n n' : Nat) (l l' : Text) : Prop where
  parts : ∃ w b b', l = w ++ b ∧ l' = w ++ b' ∧
    (∀ u v, w = u ++ v → A.place (n + byteSize u) = n' + byteSize u) ∧
    (b = [] ∧ b' = [] ∨ A.returns ∧ b = ['\n'] ∧ b' = ['\r', '\n'])

/-- **Lines that are the same**, up to the first one with an escaped line break that is a blank in
the first text. -/
inductive TwinLines (A : Alignment) : Nat → Nat → List Text → List Text → Prop
  | nil {n n' : Nat} : TwinLines A n n' [] []
  | cons {n n' : Nat} {l l' : Text} {ls ls' : List Text} (hline : TwinLine A n n' l l')
      (hrest : TwinLines A (n + byteSize l) (n' + byteSize l') ls ls') :
      TwinLines A n n' (l :: ls) (l' :: ls')
  | join {n n' : Nat} {l' : Text} {ls ls' : List Text}
      (hjoin : A.JoinsIn n' (n' + byteSize (dropEndWhile isBreak l'))) :
      TwinLines A n n' ls (l' :: ls')

/-- How a line is broken does not matter for the end of a block. -/
theorem TwinLine.isEndLine {l l' : Text} (h : TwinLine A n n' l l') :
    isEndLine l' = isEndLine l := by
  obtain ⟨w, b, b', rfl, rfl, -, hbreak⟩ := h.parts
  have htrim : ∀ v, (v = [] ∨ v = ['\n'] ∨ v = ['\r', '\n']) →
      Text.trim (w ++ v) = Text.trim w := by
    rintro v (rfl | rfl | rfl)
    · rw [List.append_nil]
    · exact Text.trim_append_white (List.forall_mem_singleton.mpr rfl)
    · exact Text.trim_append_white
        (List.forall_mem_cons.mpr ⟨rfl, List.forall_mem_singleton.mpr rfl⟩)
  unfold Makefile.isEndLine
  rw [htrim b (by tauto), htrim b' (by tauto)]

/-- Lines correspond up to their breaks. -/
theorem TwinLine.place_dropEnd {l l' : Text} (h : TwinLine A n n' l l') :
    A.place (n + byteSize (dropEndWhile isBreak l)) =
      n' + byteSize (dropEndWhile isBreak l') := by
  obtain ⟨w, b, b', rfl, rfl, hplace, hbreak⟩ := h.parts
  have hdrop : ∀ v, (v = [] ∨ v = ['\n'] ∨ v = ['\r', '\n']) →
      dropEndWhile isBreak (w ++ v) = dropEndWhile isBreak w := by
    rintro v (rfl | rfl | rfl)
    · rw [List.append_nil]
    · exact Text.dropEndWhile_append_of_all (List.forall_mem_singleton.mpr rfl)
    · exact Text.dropEndWhile_append_of_all
        (List.forall_mem_cons.mpr ⟨rfl, List.forall_mem_singleton.mpr rfl⟩)
  obtain ⟨v, hv, -⟩ := Text.exists_dropEndWhile_append isBreak w
  rw [hdrop b (by tauto), hdrop b' (by tauto)]
  exact hplace _ v hv

theorem TwinLine.eq {l l' : Text} (h : TwinLine A n n' l l') : A.returns ∨ l' = l := by
  obtain ⟨w, b, b', rfl, rfl, -, ⟨rfl, rfl⟩ | ⟨hreturns, -⟩⟩ := h.parts
  · exact .inr rfl
  · exact .inl hreturns

theorem TwinLine.cons {l l' : Text} {c : Char} (hplace : A.place n = n')
    (h : TwinLine A (n + c.utf8Size) (n' + c.utf8Size) l l') :
    TwinLine A n n' (c :: l) (c :: l') := by
  obtain ⟨w, b, b', rfl, rfl, hinside, hbreak⟩ := h.parts
  refine ⟨c :: w, b, b', rfl, rfl, fun u v huv => ?_, hbreak⟩
  cases u with
  | nil => exact hplace
  | cons d u =>
    obtain ⟨rfl, rfl⟩ := List.cons.inj huv
    rw [byteSize, ← Nat.add_assoc, ← Nat.add_assoc]
    exact hinside u v rfl

/-- **Texts that are nearly the same have such lines.** -/
theorem Twins.lines (h : Twins A n n' s s') :
    TwinLines A n n' (linesWithBreaks s) (linesWithBreaks s') := by
  induction h with
  | nil => exact .nil
  | @same n n' c s s' hplace hrest ih =>
    rw [linesWithBreaks, linesWithBreaks]
    have hchar : ∀ u v, [c] = u ++ v → A.place (n + byteSize u) = n' + byteSize u := by
      intro u v huv
      rcases List.append_eq_singleton_iff.mp huv.symm with ⟨rfl, -⟩ | ⟨rfl, -⟩
      · exact hplace
      · exact hrest.place
    have hline : TwinLine A n n' [c] [c] := ⟨[c], [], [], rfl, rfl, hchar, .inl ⟨rfl, rfl⟩⟩
    split
    · exact .cons hline ih
    · generalize linesWithBreaks s = ls at ih
      generalize linesWithBreaks s' = ls' at ih
      cases ih with
      | nil => exact .cons hline .nil
      | @cons _ _ l l' ls ls' hline hlines =>
        rw [Nat.add_assoc, Nat.add_assoc] at hlines
        exact .cons (hline.cons hplace) hlines
      | @join _ _ l' ls ls' hjoin =>
        obtain ⟨m, hm, hle, hlt⟩ := hjoin
        have hne : dropEndWhile isBreak l' ≠ [] := by
          rintro hnil
          rw [hnil, byteSize] at hlt
          omega
        refine .join ⟨m, hm, Nat.le_trans (Nat.le_add_right _ _) hle, ?_⟩
        rwa [List.singleton_append, Text.dropEndWhile_cons (.inr hne), byteSize, ← Nat.add_assoc]
  | @newline n n' s s' hreturns hplace hrest ih =>
    have hnothing : ∀ u v : Text, [] = u ++ v → A.place (n + byteSize u) = n' + byteSize u := by
      intro u v huv
      rw [(List.append_eq_nil_iff.mp huv.symm).1]
      exact hplace
    have hline : TwinLine A n n' ['\n'] ['\r', '\n'] :=
      ⟨[], ['\n'], ['\r', '\n'], rfl, rfl, hnothing, .inr ⟨hreturns, rfl, rfl⟩⟩
    exact .cons hline ih
  | @join n n' s s' hplace hjoin =>
    -- The first line of the second text begins with the escaped line break.
    obtain ⟨l', ls', hlines⟩ : ∃ l' ls', linesWithBreaks ('\\' :: s') = ('\\' :: l') :: ls' := by
      rw [linesWithBreaks, if_neg (by decide)]
      cases linesWithBreaks s' with
      | nil => exact ⟨[], [], rfl⟩
      | cons l' ls' => exact ⟨l', ls', rfl⟩
    rw [hlines]
    refine .join ⟨n', hjoin, Nat.le_refl _, Nat.lt_add_of_pos_right ?_⟩
    rw [Text.dropEndWhile_cons (.inl rfl)]
    exact Text.byteSize_pos (List.cons_ne_nil _ _)

/-! ## Ends of blocks -/

/-- **A block ends at the same line in both texts**, if there is no escaped line break before its
end that is a blank in the first text. -/
theorem TwinLines.splitAtEndLine? {ls ls' before' : List Text} {last' : Text}
    (h : TwinLines A n n' ls ls') (hsplit : splitAtEndLine? ls' = some (before', last'))
    (hjoins : ¬ A.JoinsIn n'
      (n' + (byteSize before'.flatten + byteSize (dropEndWhile isBreak last')))) :
    ∃ before last, Makefile.splitAtEndLine? ls = some (before, last) ∧
      A.place (n + (byteSize before.flatten + byteSize (dropEndWhile isBreak last))) =
        n' + (byteSize before'.flatten + byteSize (dropEndWhile isBreak last')) ∧
      (A.returns ∨ before' = before) := by
  induction h generalizing before' with
  | nil => cases hsplit
  | @cons n n' l l' ls ls' hline hlines ih =>
    rw [Makefile.splitAtEndLine?] at hsplit ⊢
    rw [hline.isEndLine] at hsplit
    split at hsplit
    · next hend =>
      cases hsplit
      rw [if_pos hend]
      refine ⟨[], l, rfl, ?_, .inr rfl⟩
      simpa [byteSize] using hline.place_dropEnd
    · next hend =>
      obtain ⟨⟨before₁, last₁⟩, hrest, heq⟩ := Option.map_eq_some_iff.mp hsplit
      cases heq
      rw [List.flatten_cons, Text.byteSize_append, Nat.add_assoc, ← Nat.add_assoc] at hjoins
      obtain ⟨before, last, hsplit, hplace, hsame⟩ :=
        ih hrest (mt (·.mono (Nat.le_add_right _ _) (Nat.le_refl _)) hjoins)
      rw [if_neg hend, hsplit]
      refine ⟨l :: before, last, rfl, ?_, ?_⟩
      · rw [List.flatten_cons, List.flatten_cons, Text.byteSize_append, Text.byteSize_append,
          Nat.add_assoc, Nat.add_assoc, ← Nat.add_assoc n, ← Nat.add_assoc n']
        exact hplace
      · rcases hline.eq with hreturns | rfl
        · exact .inl hreturns
        · exact hsame.imp_right (congrArg _)
  | @join n n' l' ls ls' hjoin =>
    refine absurd (hjoin.mono (Nat.le_refl _) (Nat.add_le_add_left ?_ _)) hjoins
    rw [Makefile.splitAtEndLine?] at hsplit
    split at hsplit
    · cases hsplit
      simp [byteSize]
    · obtain ⟨⟨before₁, last₁⟩, hrest, heq⟩ := Option.map_eq_some_iff.mp hsplit
      cases heq
      have hle := Text.byteSize_dropEndWhile_le isBreak l'
      rw [List.flatten_cons, Text.byteSize_append]
      omega

/-- Where a block does not end in the second text, it does not end in the first. -/
theorem TwinLines.splitAtEndLine?_eq_none {ls ls' : List Text} (h : TwinLines A n n' ls ls')
    (hsplit : Makefile.splitAtEndLine? ls' = none)
    (hjoins : ¬ A.JoinsIn n' (n' + byteSize ls'.flatten)) :
    Makefile.splitAtEndLine? ls = none ∧ (A.returns ∨ ls'.flatten = ls.flatten) := by
  induction h with
  | nil => exact ⟨rfl, .inr rfl⟩
  | @cons n n' l l' ls ls' hline hlines ih =>
    rw [Makefile.splitAtEndLine?] at hsplit ⊢
    rw [hline.isEndLine] at hsplit
    split at hsplit
    · cases hsplit
    · next hend =>
      rw [List.flatten_cons, Text.byteSize_append, ← Nat.add_assoc] at hjoins
      obtain ⟨hnone, hsame⟩ := ih (Option.map_eq_none_iff.mp hsplit)
        (mt (·.mono (Nat.le_add_right _ _) (Nat.le_refl _)) hjoins)
      rw [if_neg hend, hnone]
      refine ⟨rfl, ?_⟩
      rcases hline.eq with hreturns | rfl
      · exact .inl hreturns
      · exact hsame.imp_right fun hflat => by rw [List.flatten_cons, List.flatten_cons, hflat]
  | @join n n' l' ls ls' hjoin =>
    refine absurd (hjoin.mono (Nat.le_refl _) (Nat.add_le_add_left ?_ _)) hjoins
    have hle := Text.byteSize_dropEndWhile_le isBreak l'
    rw [List.flatten_cons, Text.byteSize_append]
    omega

/-- **A block in the second text is one in the first.** -/
theorem Twins.blockEnd? {body' : Text} {size' : Nat} (h : Twins A n n' s s')
    (hblock : blockEnd? s' = some (body', size')) (hjoins : ¬ A.JoinsIn n' (n' + size')) :
    ∃ body size, Makefile.blockEnd? s = some (body, size) ∧ A.place (n + size) = n' + size' ∧
      (A.returns ∨ body' = body) := by
  have hlines := h.lines
  unfold Makefile.blockEnd? at hblock ⊢
  generalize linesWithBreaks s = ls at hlines
  generalize linesWithBreaks s' = ls' at hlines hblock
  cases hlines with
  | nil => cases hblock
  | @cons _ _ l l' ls ls' hline hlines =>
    obtain ⟨⟨before', last'⟩, hsplit, heq⟩ := Option.map_eq_some_iff.mp hblock
    cases heq
    rw [Text.byteSize_append, Nat.add_assoc, ← Nat.add_assoc] at hjoins
    obtain ⟨before, last, hsplit, hplace, hsame⟩ := hlines.splitAtEndLine? hsplit
      (mt (·.mono (Nat.le_add_right _ _) (Nat.le_refl _)) hjoins)
    dsimp only
    rw [hsplit]
    refine ⟨_, _, rfl, ?_, ?_⟩
    · rw [Text.byteSize_append, Text.byteSize_append, Nat.add_assoc, Nat.add_assoc,
        ← Nat.add_assoc n, ← Nat.add_assoc n']
      exact hplace
    · rcases hline.eq with hreturns | rfl
      · exact .inl hreturns
      · exact hsame.imp_right fun hbefore => by rw [hbefore]
  | @join _ _ l' ls ls' hjoin =>
    obtain ⟨⟨before', last'⟩, hsplit, heq⟩ := Option.map_eq_some_iff.mp hblock
    cases heq
    refine absurd (hjoin.mono (Nat.le_refl _) (Nat.add_le_add_left ?_ _)) hjoins
    have hle := Text.byteSize_dropEndWhile_le isBreak l'
    rw [Text.byteSize_append]
    omega

theorem Twins.blockEnd?_eq_none (h : Twins A n n' s s') (hblock : Makefile.blockEnd? s' = none)
    (hjoins : ¬ A.JoinsIn n' (n' + byteSize s')) :
    Makefile.blockEnd? s = none ∧ (A.returns ∨ s' = s) := by
  have hlines := h.lines
  have hflat := Text.flatten_linesWithBreaks s
  have hflat' := Text.flatten_linesWithBreaks s'
  unfold Makefile.blockEnd? at hblock ⊢
  generalize linesWithBreaks s = ls at hlines hflat
  generalize linesWithBreaks s' = ls' at hlines hflat' hblock
  subst hflat hflat'
  cases hlines with
  | nil => exact ⟨rfl, .inr rfl⟩
  | @cons _ _ l l' ls ls' hline hlines =>
    rw [List.flatten_cons, Text.byteSize_append, ← Nat.add_assoc] at hjoins
    obtain ⟨hnone, hsame⟩ := hlines.splitAtEndLine?_eq_none (Option.map_eq_none_iff.mp hblock)
      (mt (·.mono (Nat.le_add_right _ _) (Nat.le_refl _)) hjoins)
    dsimp only
    rw [hnone]
    refine ⟨rfl, ?_⟩
    rcases hline.eq with hreturns | rfl
    · exact .inl hreturns
    · exact hsame.imp_right fun hflat => by rw [List.flatten_cons, List.flatten_cons, hflat]
  | @join _ _ l' ls ls' hjoin =>
    refine absurd (hjoin.mono (Nat.le_refl _) (Nat.add_le_add_left ?_ _)) hjoins
    have hle := Text.byteSize_dropEndWhile_le isBreak l'
    rw [List.flatten_cons, Text.byteSize_append]
    omega

/-- What is left of the way to corresponding positions is in step behind other ones. -/
theorem Alignment.place_sub {m m' k k' : Nat} (hm : A.place (n + m) = n' + m')
    (hk : A.place (n + k) = n' + k') : A.place (n + m + (k - m)) = n' + m' + (k' - m') := by
  have hle : n + m ≤ n + k ↔ n' + m' ≤ n' + k' := by rw [← hm, ← hk, A.strictMono.le_iff_le]
  by_cases hmk : m ≤ k
  · rw [show n + m + (k - m) = n + k by omega, hk]
    omega
  · rw [show n + m + (k - m) = n + m by omega, hm]
    omega

theorem Alignment.eq_zero_iff {k k' : Nat} (hn : A.place n = n') (hk : A.place (n + k) = n' + k') :
    k = 0 ↔ k' = 0 := by
  have hinj : n + k = n ↔ n' + k' = n' := by rw [← hk, ← hn, A.strictMono.injective.eq_iff]
  omega

/-- **As many tokens start before corresponding positions.** -/
theorem Paired.tokensBefore {k k' : Nat} (h : Paired A n n' ts ts')
    (hk : A.place (n + k) = n' + k') :
    tokensBefore k ts = Makefile.tokensBefore k' ts' := by
  -- Partners either both start behind the position, or are both counted.
  have hcons : ∀ {m m' k k' : Nat} {t t' : Token} {us us' : List Token},
      (∀ {k k' : Nat}, A.place (m + byteSize t.text + k) = m' + byteSize t'.text + k' →
        Makefile.tokensBefore k us = Makefile.tokensBefore k' us') →
      A.place m = m' → A.place (m + byteSize t.text) = m' + byteSize t'.text →
      A.place (m + k) = m' + k' →
      Makefile.tokensBefore k (t :: us) = Makefile.tokensBefore k' (t' :: us') := by
    intro m m' k k' t t' us us' ih hm ht hk
    rw [Makefile.tokensBefore, Makefile.tokensBefore]
    simp only [Alignment.eq_zero_iff hm hk]
    split
    · rfl
    · rw [ih (Alignment.place_sub ht hk)]
  induction h generalizing k k' with
  | nil => rfl
  | same hplace _ _ _ _ hrest ih => exact hcons ih (hplace 0 (Nat.zero_le _)) hrest.place hk
  | newline _ hplace hrest ih => exact hcons ih hplace hrest.place hk
  | escape _ hplace _ hrest ih => exact hcons ih hplace hrest.place hk
  | join _ _ _ _ hplace hrest ih => exact hcons ih hplace hrest.place hk

/-- The tokens that start before a position reach up to it. -/
theorem le_byteSize_tokensBefore {ts : List Token} {k : Nat} (h : k ≤ byteSize (textOf ts)) :
    k ≤ byteSize (textOf (ts.take (tokensBefore k ts))) := by
  induction ts generalizing k with
  | nil => exact h
  | cons t ts ih =>
    rw [tokensBefore]
    split
    · next hzero =>
      rw [hzero]
      exact Nat.zero_le _
    · rw [textOf, List.flatMap_cons, Text.byteSize_append] at h
      rw [Nat.add_comm, List.take_succ_cons, textOf, List.flatMap_cons, Text.byteSize_append]
      have hrest : k - byteSize t.text ≤
          byteSize (textOf (ts.take (tokensBefore (k - byteSize t.text) ts))) :=
        ih (by rw [textOf]; omega)
      rw [textOf] at hrest
      omega

/-! ## Definitions -/

/-- **Definitions are read abreast**, unless a line of them has an escaped line break that is a
blank in the first text. -/
theorem Abreast.defineArguments {c c' : Cursor} (h : Abreast A c c')
    (hawaits : ¬ A.Awaits Token.Kind.isBlank c'.read c'.rest)
    (hjoins : ∀ m, A.joins m → c'.read ≤ m → c'.defineArguments.2.read ≤ m ∧
      c'.defineArguments.1.pos + byteSize c'.defineArguments.1.dump + 2 ≤ m) :
    Abreast A c.defineArguments.2 c'.defineArguments.2 ∧
      (A.returns ∨ c'.defineArguments.1.body = c.defineArguments.1.body) := by
  have hskip : Abreast A c.skipBlanks c'.skipBlanks := h.skipWhile (.inr ⟨rfl, hawaits⟩)
  have htwins := hskip.tokens.twins
  have hread : c'.read ≤ c'.skipBlanks.read := Nat.le_add_right _ _
  unfold Cursor.defineArguments at hjoins ⊢
  dsimp only at hjoins ⊢
  cases hblock : blockEnd? (textOf c'.skipBlanks.rest) with
  | some block =>
    obtain ⟨body', size'⟩ := block
    rw [hblock] at hjoins
    have hclear : ¬ A.JoinsIn c'.skipBlanks.read (c'.skipBlanks.read + size') := by
      rintro ⟨m, hm, hle, hlt⟩
      have hbehind : c'.skipBlanks.read +
          byteSize (textOf (c'.skipBlanks.rest.take (tokensBefore size' c'.skipBlanks.rest))) ≤ m :=
        (hjoins m hm (Nat.le_trans hread hle)).1
      have hreach := le_byteSize_tokensBefore (le_of_blockEnd? hblock)
      omega
    obtain ⟨body, size, hblock₁, hplace, hsame⟩ := htwins.blockEnd? hblock hclear
    rw [hblock₁]
    dsimp only
    rw [hskip.tokens.tokensBefore hplace]
    exact ⟨hskip.advance _, hsame.imp_right fun hbody => by rw [hbody]; rfl⟩
  | none =>
    rw [hblock] at hjoins
    have hclear : ¬ A.JoinsIn c'.skipBlanks.read
        (c'.skipBlanks.read + byteSize (textOf c'.skipBlanks.rest)) := by
      rintro ⟨m, hm, hle, hlt⟩
      have hbehind : c'.skipBlanks.offset + byteSize (Phrase.ofText c'.skipBlanks.offset
          (Text.withoutBreak (textOf c'.skipBlanks.rest))).dump + 2 ≤ m :=
        (hjoins m hm (Nat.le_trans hread hle)).2
      have hbreak := Text.byteSize_le_withoutBreak (textOf c'.skipBlanks.rest)
      have hoffset : c'.skipBlanks.offset = c'.skipBlanks.read := by
        unfold Cursor.offset
        split
        · next hnil =>
          rw [List.isEmpty_iff.mp hnil] at hlt
          exact absurd hle (Nat.not_le.mpr hlt)
        · rfl
      rw [Phrase.dump, Phrase.ofText, Phrase.Body.dump_ofText, hoffset] at hbehind
      omega
    obtain ⟨hblock₁, hsame⟩ := htwins.blockEnd?_eq_none hblock hclear
    rw [hblock₁]
    have hreported : Abreast A (c.skipBlanks.reportHere .endlessDefine)
        (c'.skipBlanks.reportHere .endlessDefine) := hskip.reportHere rfl
    dsimp only
    rw [hreported.tokens.length_eq]
    exact ⟨hreported.advance _, hsame.imp_right fun htext => by rw [htext]; rfl⟩

end MakeBlueprint.Makefile
