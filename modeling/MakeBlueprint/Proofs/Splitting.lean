import MakeBlueprint.Makefile.Phrase.Split

/-!
# Splitting and putting together again

The pieces of a phrase, with the separators put back between them, are the phrase (`rejoin`). A
bound on the number of pieces only leaves the last piece uncut.

* `rejoin_append`: whatever stands in front of the first piece stands in front of the whole.
* `rejoins_splitAtMost`: pieces and separators go together again.
* `take_splitAtMost`: two bounds agree on the pieces that both allow.
* `separators_of_mem_splitAtMost`: with enough cuts no separator is left.
* `separators_eq_countP`: separators are counted in the literal runs.

`split_rejoins` puts them together.
-/

namespace MakeBlueprint.Makefile.Phrase

variable {p : Char → Bool} {b piece : Body} {k m n : Nat}

/-! ## Putting together again -/

/-- **Pieces put together again**, each behind the separator in front of it. -/
def rejoin (first : Phrase) (rest : List (Char × Phrase)) : Phrase :=
  rest.foldl (fun whole next => (whole.append (.ofText [next.1])).append next.2.body) first

theorem rejoin_append (whole first : Phrase) (rest : List (Char × Phrase)) :
    rejoin (whole.append first.body) rest = whole.append (rejoin first rest).body := by
  induction rest generalizing first with
  | nil => rfl
  | cons next rest ih =>
    have hnext : ((whole.append first.body).append (.ofText [next.1])).append next.2.body =
        whole.append ((first.append (.ofText [next.1])).append next.2.body).body := by
      simp only [append, Body.append_assoc]
    unfold rejoin at ih ⊢
    rw [List.foldl_cons, List.foldl_cons, hnext]
    exact ih _

/-- **Some pieces go together again**: with separators between them they are the whole phrase. -/
def Rejoins (p : Char → Bool) (pieces : List Phrase) (whole : Phrase) : Prop :=
  ∃ (first : Phrase) (rest : List Phrase) (separators : Text), pieces = first :: rest ∧
    separators.length = rest.length ∧ (∀ c ∈ separators, p c = true) ∧
    rejoin first (separators.zip rest) = whole

/-- **Pieces of a body go together again**, wherever it is cut. -/
theorem rejoins_splitAtMost (p : Char → Bool) (pos cuts : Nat) (b : Body) :
    Rejoins p ((b.splitAtMost p cuts).map (Phrase.mk pos)) ⟨pos, b⟩ := by
  induction cuts generalizing b with
  | zero => exact ⟨⟨pos, b⟩, [], [], rfl, rfl, nofun, rfl⟩
  | succ cuts ih =>
    rw [Body.splitAtMost]
    split
    · exact ⟨⟨pos, b⟩, [], [], rfl, rfl, nofun, rfl⟩
    · next piece behind hcut =>
      obtain ⟨c, hc, rfl⟩ := Body.append_of_cut hcut
      obtain ⟨first, rest, separators, hpieces, hlength, hseparators, hwhole⟩ := ih behind
      refine ⟨⟨pos, piece⟩, first :: rest, c :: separators, ?_, ?_, ?_, ?_⟩
      · rw [List.map_cons, hpieces]
      · rw [List.length_cons, List.length_cons, hlength]
      · exact List.forall_mem_cons.mpr ⟨hc, hseparators⟩
      · rw [List.zip_cons_cons]
        refine (rejoin_append (append ⟨pos, piece⟩ (.ofText [c])) first _).trans ?_
        rw [hwhole]
        simp only [append, Body.append_assoc]
        rfl

/-! ## Bounds -/

namespace Body

/-- **Two bounds agree** on the pieces that both allow to be cut off. -/
theorem take_splitAtMost (hm : k ≤ m) (hn : k ≤ n) :
    (b.splitAtMost p m).take k = (b.splitAtMost p n).take k := by
  induction k generalizing m n b with
  | zero => rfl
  | succ k ih =>
    obtain ⟨m, rfl⟩ := Nat.exists_eq_add_of_lt (Nat.lt_of_succ_le hm)
    obtain ⟨n, rfl⟩ := Nat.exists_eq_add_of_lt (Nat.lt_of_succ_le hn)
    rw [splitAtMost, splitAtMost]
    split
    · rfl
    · rw [List.take_succ_cons, List.take_succ_cons,
        ih (Nat.le_add_right k m) (Nat.le_add_right k n)]

/-- With as many cuts as separators there is no separator in a piece. -/
theorem separators_of_mem_splitAtMost (h : b.separators p ≤ n)
    (hpiece : piece ∈ b.splitAtMost p n) : piece.separators p = 0 := by
  induction n generalizing b with
  | zero =>
    rw [List.mem_singleton.mp hpiece]
    exact Nat.le_zero.mp h
  | succ n ih =>
    rw [splitAtMost] at hpiece
    split at hpiece
    · next hcut =>
      rw [List.mem_singleton.mp hpiece]
      exact cut_eq_none_iff.mp hcut
    · next front behind hcut =>
      obtain ⟨hfront, hcount⟩ := separators_of_cut hcut
      rcases List.mem_cons.mp hpiece with rfl | hpiece
      · exact hfront
      · rw [hcount] at h
        exact ih (Nat.le_of_succ_le_succ h) hpiece

/-! ## Separators in literal runs -/

/-- **Separators are counted in the literal runs**, and nowhere else. -/
theorem separators_eq_countP (p : Char → Bool) (b : Body) :
    b.separators p = b.strings.flatten.countP p := by
  induction b with
  | nil => rfl
  | char c r ih =>
    rw [separators, ih, strings, Text.flatten_glue, List.singleton_append, List.countP_cons,
      Nat.add_comm]
  | ref name m n d r _ ih => rw [separators, ih, strings, List.flatten_cons, List.nil_append]

/-- A body without separators has none in its literal runs. -/
theorem eq_false_of_separators (h : b.separators p = 0) {run : Text} (hrun : run ∈ b.strings)
    {c : Char} (hc : c ∈ run) : p c = false := by
  rw [separators_eq_countP] at h
  exact Bool.eq_false_iff.mpr (List.countP_eq_zero.mp h c (List.mem_flatten_of_mem hrun hc))

end Body

/-! ## Phrases -/

/-- **Splitting only takes separators away.** For every class of separators and every phrase,

* with any bound or none, a piece has one more literal run than references, and the pieces go
  together again, with separators between them;
* without a bound, there is no separator in a literal run of a piece, and there is one more piece
  than separators in the literal runs of the phrase;
* with a bound that is not zero there are at most so many pieces, and if the phrase has so many,
  they are the same but for the last one;
* with the bound zero the phrase is its only piece. -/
theorem split_rejoins (p : Char → Bool) (phrase : Phrase) :
    (∀ bound, (∀ piece ∈ phrase.split p bound,
        piece.body.strings.length = piece.body.references.length + 1) ∧
      Rejoins p (phrase.split p bound) phrase) ∧
    (∀ piece ∈ phrase.split p none, ∀ run ∈ piece.body.strings, ∀ c ∈ run, p c = false) ∧
    (phrase.split p none).length = phrase.body.strings.flatten.countP p + 1 ∧
    (∀ n, 1 ≤ n → (phrase.split p (some n)).length ≤ n ∧
      (n ≤ (phrase.split p none).length →
        (phrase.split p (some n)).take (n - 1) = (phrase.split p none).take (n - 1))) ∧
    phrase.split p (some 0) = [phrase] := by
  have hlength : (phrase.split p none).length = phrase.body.separators p + 1 := by
    rw [split, List.length_map, Body.length_split]
  refine ⟨fun bound => ⟨fun piece _ => Body.length_strings _, ?_⟩, ?_, ?_, ?_, rfl⟩
  · cases bound with
    | none => exact rejoins_splitAtMost p phrase.pos _ phrase.body
    | some n => exact rejoins_splitAtMost p phrase.pos _ phrase.body
  · intro piece hpiece run hrun c hc
    obtain ⟨body, hbody, rfl⟩ := List.mem_map.mp hpiece
    exact Body.eq_false_of_separators
      (Body.separators_of_mem_splitAtMost (Nat.le_refl _) hbody) hrun hc
  · rw [hlength, Body.separators_eq_countP]
  · intro n hn
    constructor
    · rw [split, List.length_map, Body.length_splitAtMost]
      omega
    · intro hmany
      rw [hlength] at hmany
      rw [split, split, ← List.map_take, ← List.map_take, Body.split,
        Body.take_splitAtMost (Nat.le_refl _) (Nat.sub_le_of_le_add hmany)]

/-- The text `call  f,$(X) y`, with two blanks behind the first word. -/
def callText : Phrase :=
  ⟨5, .ofText "call  f," ++ .ref (.ofText ['X']) 15 13 .paren (.ofText [' ', 'y'])⟩

/-- Between two blanks stands an empty piece, so there are four pieces without a bound. With two at
most, the second one keeps its blanks. -/
theorem split_rejoins_callText :
    2 ≤ (callText.split Text.isBlank none).length ∧
    (callText.split Text.isBlank (some 2)).map dump = ["call".toList, " f,$(X) y".toList] ∧
    (callText.split Text.isBlank (some 2)).take 1 = (callText.split Text.isBlank none).take 1 ∧
    Rejoins Text.isBlank (callText.split Text.isBlank (some 2)) callText := by
  have hmany : 2 ≤ (callText.split Text.isBlank none).length := by decide
  obtain ⟨hrejoin, -, -, hbound, -⟩ := split_rejoins Text.isBlank callText
  exact ⟨hmany, by decide, (hbound 2 (by decide)).2 hmany, (hrejoin (some 2)).2⟩

end MakeBlueprint.Makefile.Phrase
