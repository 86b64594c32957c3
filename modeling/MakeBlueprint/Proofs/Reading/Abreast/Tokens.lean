import MakeBlueprint.Proofs.Reading.Grammar
import MakeBlueprint.Proofs.Reading.Layout
import MakeBlueprint.Proofs.Reading.Tokens
import Mathlib.Order.MinMax
import Mathlib.Data.List.Forall2

/-!
# Tokens side by side

Two texts that differ only in how they break lines have as many tokens, and each token of one is the
same as its partner in the other, or nearly so (`Paired`): a line break with or without a carriage
return, by itself or escaped, or a blank in place of an escaped line break. An `Alignment` says how
the positions correspond, and which of these differences there are.

* `Paired.drop`, `Paired.kindAt`: what is left of paired tokens is paired, and partners have the
  same kind, but for a blank whose partner is an escape.
* `Paired.length_takeWhile`: readers skip as many tokens in both texts, unless they skip blanks and
  come to a blank whose partner is an escape (`Awaits`).
* `Paired.flatMap_take`: the texts of tokens on a line, as far as a reader can tell them apart.
-/

namespace MakeBlueprint.Makefile

open Text (byteSize)
open Token (textOf)

theorem Token.byteSize_textOf_append (ts us : List Token) :
    byteSize (textOf (ts ++ us)) = byteSize (textOf ts) + byteSize (textOf us) := by
  rw [textOf_append, Text.byteSize_append]

/-- How the positions of two texts correspond, and how the texts differ. -/
structure Alignment where
  /-- The position in the second text for a position in the first. -/
  place : Nat → Nat
  strictMono : StrictMono place
  /-- Whether line breaks have a carriage return in the second text only. -/
  returns : Prop
  /-- Where an escaped line break of the second text is a blank in the first. -/
  joins : Nat → Prop
  /-- Where words of the second text end behind which, past blanks, such a line break stands. -/
  bound : Nat → Prop
  apart : returns → ∀ n, ¬ joins n

namespace Alignment

/-- An escaped line break that is a blank in the first text lies between two positions. -/
def JoinsIn (A : Alignment) (lo hi : Nat) : Prop := ∃ n, A.joins n ∧ lo ≤ n ∧ n < hi

/-- Past the tokens of a class, an escaped line break is next that is a blank in the first text. -/
def Awaits (A : Alignment) (p : Token.Kind → Bool) (n : Nat) (ts : List Token) : Prop :=
  ts.dropWhile (fun t => p t.kind) ≠ [] ∧
    A.joins (n + byteSize (textOf (ts.takeWhile fun t => p t.kind)))

theorem JoinsIn.mono {A : Alignment} {lo hi lo' hi' : Nat} (h : A.JoinsIn lo hi) (hlo : lo' ≤ lo)
    (hhi : hi ≤ hi') : A.JoinsIn lo' hi' := by
  obtain ⟨n, hn, hle, hlt⟩ := h
  exact ⟨n, hn, Nat.le_trans hlo hle, Nat.lt_of_lt_of_le hlt hhi⟩

end Alignment

/-- **Tokens of two texts, side by side**, from two positions on. A token that is alone in being
different from its partner is a line break, an escaped line break, or a blank for one. -/
inductive Paired (A : Alignment) : Nat → Nat → List Token → List Token → Prop
  | nil {n n' : Nat} (hplace : A.place n = n') : Paired A n n' [] []
  | same {n n' : Nat} {t : Token} {ts ts' : List Token}
      (hplace : ∀ k ≤ byteSize t.text, A.place (n + k) = n' + k)
      (hjoin : ∀ k ≤ byteSize t.text - 1, ¬ A.joins (n' + k))
      (hlast : t.kind = .backslash → ts = [])
      (hdollar : t.kind = .dollar → ∀ u ∈ ts.head?, u.kind ≠ .newline → ts'.head? = some u)
      (hword : t.kind = .identifier →
        A.Awaits Token.Kind.isBlank (n' + byteSize t.text) ts' → A.bound (n' + byteSize t.text))
      (hrest : Paired A (n + byteSize t.text) (n' + byteSize t.text) ts ts') :
      Paired A n n' (t :: ts) (t :: ts')
  | newline {n n' : Nat} {ts ts' : List Token} (hreturns : A.returns) (hplace : A.place n = n')
      (hrest : Paired A (n + 1) (n' + 2) ts ts') :
      Paired A n n' (⟨.newline, ['\n']⟩ :: ts) (⟨.newline, ['\r', '\n']⟩ :: ts')
  | escape {n n' : Nat} {ts ts' : List Token} (hreturns : A.returns) (hplace : A.place n = n')
      (hbehind : A.place (n + 1) = n' + 1) (hrest : Paired A (n + 2) (n' + 3) ts ts') :
      Paired A n n' (⟨.escape, ['\\', '\n']⟩ :: ts) (⟨.escape, ['\\', '\r', '\n']⟩ :: ts')
  | join {n n' : Nat} {t : Token} {ts ts' : List Token} (hkind : t.kind = .escape)
      (hbreak : t.escapesBreak = true) (hformed : t.Formed) (hjoin : A.joins n')
      (hplace : A.place n = n')
      (hrest : Paired A (n + 1) (n' + byteSize t.text) ts ts') :
      Paired A n n' (⟨.whitespace, [' ']⟩ :: ts) (t :: ts')

namespace Paired

variable {A : Alignment} {n n' : Nat} {ts ts' : List Token} {p : Token.Kind → Bool}

theorem place (h : Paired A n n' ts ts') : A.place n = n' := by
  cases h with
  | same hplace => exact hplace 0 (Nat.zero_le _)
  | nil hplace => exact hplace
  | newline hreturns hplace => exact hplace
  | escape hreturns hplace => exact hplace
  | join hkind hbreak hformed hjoin hplace => exact hplace

theorem length_eq (h : Paired A n n' ts ts') : ts.length = ts'.length := by
  induction h with
  | nil => rfl
  | same _ _ _ _ _ _ ih | newline _ _ _ ih | escape _ _ _ _ ih | join _ _ _ _ _ _ ih =>
    exact congrArg Nat.succ ih

theorem nil_iff (h : Paired A n n' ts ts') : ts = [] ↔ ts' = [] := by
  rw [← List.length_eq_zero_iff, ← List.length_eq_zero_iff, h.length_eq]

/-- **What is left of paired tokens is paired.** -/
theorem drop (h : Paired A n n' ts ts') (k : Nat) :
    Paired A (n + byteSize (textOf (ts.take k))) (n' + byteSize (textOf (ts'.take k))) (ts.drop k)
      (ts'.drop k) := by
  induction k generalizing n n' ts ts' with
  | zero => exact h
  | succ k ih =>
    cases h with
    | nil hplace => exact .nil hplace
    | same _ _ _ _ _ hrest | newline _ _ hrest | escape _ _ _ hrest | join _ _ _ _ _ hrest =>
      simp only [textOf, List.take_succ_cons, List.flatMap_cons, Text.byteSize_append,
        List.drop_succ_cons, ← Nat.add_assoc]
      exact ih hrest

/-- **Partners have the same kind**, but for a blank whose partner is an escape. -/
theorem kindAt (h : Paired A n n' ts ts') (k : Nat) :
    ts[k]?.map Token.kind = ts'[k]?.map Token.kind ∨
      ts[k]?.map Token.kind = some .whitespace ∧ ts'[k]?.map Token.kind = some .escape := by
  induction k generalizing n n' ts ts' with
  | zero =>
    cases h with
    | nil | same | newline | escape => exact .inl rfl
    | join hkind => exact .inr ⟨rfl, congrArg some hkind⟩
  | succ k ih =>
    cases h with
    | nil => exact .inl rfl
    | same _ _ _ _ _ hrest | newline _ _ hrest | escape _ _ _ hrest | join _ _ _ _ _ hrest =>
      exact ih hrest

/-! ## Skipping -/

theorem awaits_cons {t : Token} (hp : p t.kind = true)
    (h : A.Awaits p (n' + byteSize t.text) ts') : A.Awaits p n' (t :: ts') := by
  unfold Alignment.Awaits at h ⊢
  simpa [List.dropWhile_cons, List.takeWhile_cons, hp, textOf, ← Nat.add_assoc] using h

/-- **Readers skip as many tokens in both texts**: what they skip is the same, unless they skip
blanks and come to one whose partner is an escape. -/
theorem length_takeWhile (h : Paired A n n' ts ts')
    (hp : p .whitespace = p .escape ∨ p .escape = false ∧ ¬ A.Awaits p n' ts') :
    (ts.takeWhile fun t => p t.kind).length = (ts'.takeWhile fun t => p t.kind).length := by
  -- A token that is skipped on both sides leaves the condition as it is.
  have hbehind : ∀ {m : Nat} {t : Token} {us : List Token}, p t.kind = true →
      (p .whitespace = p .escape ∨ p .escape = false ∧ ¬ A.Awaits p m (t :: us)) →
      p .whitespace = p .escape ∨ p .escape = false ∧ ¬ A.Awaits p (m + byteSize t.text) us :=
    fun ht => Or.imp_right (And.imp_right (mt (awaits_cons ht)))
  induction h with
  | nil => rfl
  | @same n n' t ts ts' _ _ _ _ _ _ ih =>
    rw [List.takeWhile_cons, List.takeWhile_cons]
    split
    · next ht => exact congrArg Nat.succ (ih (hbehind ht hp))
    · rfl
  | newline _ _ _ ih =>
    rw [List.takeWhile_cons, List.takeWhile_cons]
    by_cases ht : p .newline = true
    · simpa [ht] using ih (hbehind ht hp)
    · simp [ht]
  | escape _ _ _ _ ih =>
    rw [List.takeWhile_cons, List.takeWhile_cons]
    by_cases ht : p .escape = true
    · simpa [ht] using ih (hbehind ht hp)
    · simp [ht]
  | @join n n' t ts ts' hkind _ _ hjoin _ _ ih =>
    rw [List.takeWhile_cons, List.takeWhile_cons, hkind]
    rcases hp with heq | ⟨hescape, hawaits⟩
    · rw [heq]
      split
      · exact congrArg Nat.succ (ih (.inl heq))
      · rfl
    · have hnot : p t.kind = false := hkind ▸ hescape
      refine absurd ⟨?_, ?_⟩ hawaits
      · simp [hnot]
      · simpa [hnot, textOf, byteSize] using hjoin

/-- Behind blanks, an escaped line break is next where a reader awaits one. -/
theorem kindAt_of_awaits (h : Paired A n n' ts ts') (hp : p .escape = false)
    (hawaits : A.Awaits p n' ts') :
    ∃ t ∈ (ts'.dropWhile fun t => p t.kind).head?, t.kind = .escape := by
  induction h with
  | nil => exact absurd rfl hawaits.1
  | @same n n' t ts ts' _ hjoin _ _ _ _ ih =>
    by_cases ht : p t.kind = true
    · rw [List.dropWhile_cons, if_pos ht]
      refine ih ?_
      unfold Alignment.Awaits at hawaits ⊢
      simpa [List.dropWhile_cons, List.takeWhile_cons, ht, textOf, ← Nat.add_assoc] using hawaits
    · refine absurd ?_ (hjoin 0 (Nat.zero_le _))
      simpa [List.takeWhile_cons, ht, textOf, byteSize] using hawaits.2
  | newline hreturns | escape hreturns => exact absurd hawaits.2 (A.apart hreturns _)
  | @join n n' t ts ts' hkind =>
    rw [List.dropWhile_cons, if_neg (by simp [hkind, hp])]
    exact ⟨t, rfl, hkind⟩

/-! ## Texts -/

/-- **The text that a reader makes of some tokens** is the same, unless the tokens differ in a way
that it can tell. -/
theorem flatMap_take (h : Paired A n n' ts ts') (f : Token → Text) (k : Nat)
    (hline : ∀ t ∈ ts.take k, t.kind ≠ .newline)
    (hf : A.returns → f ⟨.escape, ['\\', '\r', '\n']⟩ = f ⟨.escape, ['\\', '\n']⟩) :
    (ts'.take k).flatMap f = (ts.take k).flatMap f ∨
      A.JoinsIn n' (n' + byteSize (textOf (ts'.take k))) := by
  induction k generalizing n n' ts ts' with
  | zero => exact .inl rfl
  | succ k ih =>
    cases h with
    | nil => exact .inl rfl
    | same _ _ _ _ _ hrest =>
      rw [List.take_succ_cons, List.forall_mem_cons] at hline
      simp only [List.take_succ_cons, List.flatMap_cons, textOf, Text.byteSize_append,
        ← Nat.add_assoc]
      exact (ih hrest hline.2).imp (congrArg _) (·.mono (Nat.le_add_right _ _) (Nat.le_refl _))
    | newline => exact absurd rfl (hline _ List.mem_cons_self)
    | escape hreturns _ _ hrest =>
      rw [List.take_succ_cons, List.forall_mem_cons] at hline
      simp only [List.take_succ_cons, List.flatMap_cons, textOf, Text.byteSize_append,
        ← Nat.add_assoc, hf hreturns]
      exact (ih hrest hline.2).imp (congrArg _) (·.mono (Nat.le_add_right _ 3) (Nat.le_refl _))
    | @join _ _ t _ _ _ _ hformed hjoin =>
      have hpos := Text.byteSize_pos hformed.text_ne_nil
      refine .inr ⟨_, hjoin, Nat.le_refl _, ?_⟩
      simp only [List.take_succ_cons, textOf, List.flatMap_cons, Text.byteSize_append]
      omega

end Paired

end MakeBlueprint.Makefile
