import MakeBlueprint.Makefile.Phrase.Basic

/-!
# Splitting phrases

A phrase is split at literal characters of a class. A reference always stays whole in one piece.

* `Body.cut` finds the first separator; `append_of_cut` puts the two sides together again.
* `Body.splitAtMost` cuts a bounded number of times, `Body.split` at every separator:
  `length_split` counts the pieces.
-/

namespace MakeBlueprint.Makefile.Phrase

namespace Body

/-- The parts before and behind the first separator. -/
def cut (p : Char → Bool) : Body → Option (Body × Body)
  | .nil => none
  | .char c r => if p c then some (.nil, r) else (cut p r).map fun (a, b) => (.char c a, b)
  | .ref name namePos pos delimiter r =>
    (cut p r).map fun (a, b) => (.ref name namePos pos delimiter a, b)

/-- The number of separators. -/
def separators (p : Char → Bool) : Body → Nat
  | .nil => 0
  | .char c r => (if p c then 1 else 0) + separators p r
  | .ref _ _ _ _ r => separators p r

theorem append_of_cut {p : Char → Bool} {b x y : Body} (h : cut p b = some (x, y)) :
    ∃ c, p c = true ∧ b = x ++ .char c y := by
  induction b generalizing x with
  | nil => cases h
  | char c r ih =>
    rw [cut] at h
    split at h
    · next hc =>
      cases h
      exact ⟨c, hc, rfl⟩
    · obtain ⟨⟨u, v⟩, huv, he⟩ := Option.map_eq_some_iff.1 h
      cases he
      obtain ⟨d, hd, rfl⟩ := ih huv
      exact ⟨d, hd, rfl⟩
  | ref name m n d r _ ih =>
    obtain ⟨⟨u, v⟩, huv, he⟩ := Option.map_eq_some_iff.1 h
    cases he
    obtain ⟨e, he, rfl⟩ := ih huv
    exact ⟨e, he, rfl⟩

theorem separators_of_cut {p : Char → Bool} {b x y : Body} (h : cut p b = some (x, y)) :
    separators p x = 0 ∧ separators p b = separators p y + 1 := by
  induction b generalizing x with
  | nil => cases h
  | char c r ih =>
    rw [cut] at h
    split at h
    · next hc =>
      cases h
      exact ⟨rfl, by simp [separators, hc, Nat.add_comm]⟩
    · next hc =>
      obtain ⟨⟨u, v⟩, huv, he⟩ := Option.map_eq_some_iff.1 h
      cases he
      simpa [separators, hc] using ih huv
  | ref name m n d r _ ih =>
    obtain ⟨⟨u, v⟩, huv, he⟩ := Option.map_eq_some_iff.1 h
    cases he
    simpa [separators] using ih huv

theorem cut_eq_none_iff {p : Char → Bool} {b : Body} : cut p b = none ↔ separators p b = 0 := by
  induction b with
  | nil => simp [cut, separators]
  | char c r ih =>
    by_cases hc : p c = true
    · simp [cut, separators, hc]
    · simp [cut, separators, hc, ih]
  | ref name m n d r _ ih => simp [cut, separators, ih]

/-- The pieces of a body cut at its first separators, at most `cuts` of them. -/
def splitAtMost (p : Char → Bool) : Nat → Body → List Body
  | 0, b => [b]
  | cuts + 1, b =>
    match cut p b with
    | none => [b]
    | some (piece, rest) => piece :: splitAtMost p cuts rest

/-- The pieces of a body cut at every separator. -/
def split (p : Char → Bool) (b : Body) : List Body := splitAtMost p (separators p b) b

/-- There is one more piece than cuts, and there are no more cuts than separators. -/
theorem length_splitAtMost (p : Char → Bool) (cuts : Nat) (b : Body) :
    (splitAtMost p cuts b).length = min cuts (separators p b) + 1 := by
  induction cuts generalizing b with
  | zero => simp [splitAtMost]
  | succ cuts ih =>
    rw [splitAtMost]
    split
    · next h => simp [cut_eq_none_iff.1 h]
    · next piece rest h =>
      rw [List.length_cons, ih, (separators_of_cut h).2]
      omega

theorem length_split (p : Char → Bool) (b : Body) : (split p b).length = separators p b + 1 := by
  simp [split, length_splitAtMost]

end Body

/-- The pieces of a phrase, each at the position of the whole. With a bound there are at most
that many, the last of which is not cut any further. -/
def split (p : Char → Bool) (phrase : Phrase) (bound : Option Nat) : List Phrase :=
  let pieces := match bound with
    | none => phrase.body.split p
    | some n => phrase.body.splitAtMost p (n - 1)
  pieces.map fun piece => ⟨phrase.pos, piece⟩

end MakeBlueprint.Makefile.Phrase
