import MakeBlueprint.Text.Position

/-!
# The starts of lines

Lines and columns, looked up in a table of the positions where lines start (`lineStarts`).

* `lineAt_eq_length_takeWhile`: a line is the number of starts that are not behind the position.
* `exists_lineStart`: **the line of every position has a start in the table**, at the index one
  below it, and the column is counted from there.
-/

namespace MakeBlueprint.Text

/-- The positions behind the line feeds of a text that starts at a position. -/
def breaksFrom (n : Nat) : Text → List Nat
  | [] => []
  | c :: t => if c = '\n' then (n + 1) :: breaksFrom (n + 1) t else breaksFrom (n + c.utf8Size) t

/-- The positions where the lines of a text start. -/
def lineStarts (t : Text) : List Nat := 0 :: breaksFrom 0 t

variable {n start k : Nat} {t : Text}

theorem lt_of_mem_breaksFrom {m : Nat} (h : m ∈ breaksFrom n t) : n < m := by
  induction t generalizing n with
  | nil => cases h
  | cons c t ih =>
    rw [breaksFrom] at h
    split at h
    · rcases List.mem_cons.mp h with rfl | h
      · exact Nat.lt_succ_self n
      · exact Nat.lt_of_succ_lt (ih h)
    · exact Nat.lt_of_le_of_lt (Nat.le_add_right n _) (ih h)

theorem one_le_lineAt (k : Nat) (t : Text) : 1 ≤ lineAt k t := by
  induction t generalizing k with
  | nil => exact Nat.le_refl 1
  | cons c t ih =>
    rw [lineAt]
    split
    · exact Nat.le_refl 1
    · exact Nat.le_add_left_of_le (ih _)

theorem takeWhile_breaksFrom_eq_nil (h : k ≤ n) :
    (breaksFrom n t).takeWhile (fun m => decide (m ≤ k)) = [] := by
  cases hbreaks : breaksFrom n t with
  | nil => rfl
  | cons m ms =>
    have hlt := lt_of_mem_breaksFrom (hbreaks ▸ List.mem_cons_self)
    exact List.takeWhile_cons_of_neg (by simpa using Nat.lt_of_le_of_lt h hlt)

theorem lineAt_eq_of_breaksFrom (k : Nat) :
    lineAt k t = ((breaksFrom n t).takeWhile fun m => decide (m ≤ n + k)).length + 1 := by
  induction t generalizing n k with
  | nil => rfl
  | cons c t ih =>
    rw [lineAt]
    split
    · next hk =>
      rw [takeWhile_breaksFrom_eq_nil (by omega)]
      rfl
    · next hk =>
      rw [breaksFrom]
      split
      · next hc =>
        have hsize : c.utf8Size = 1 := by rw [hc]; rfl
        have hrest : n + 1 + (k - c.utf8Size) = n + k := by omega
        rw [List.takeWhile_cons_of_pos (by simpa using by omega), @ih (n + 1) (k - c.utf8Size),
          hrest, List.length_cons]
        omega
      · by_cases hle : c.utf8Size ≤ k
        · have hrest : n + c.utf8Size + (k - c.utf8Size) = n + k := by omega
          rw [@ih (n + c.utf8Size) (k - c.utf8Size), hrest, Nat.zero_add]
        · -- The position is inside of the character.
          have hzero : k - c.utf8Size = 0 := by omega
          rw [takeWhile_breaksFrom_eq_nil (by omega), hzero, lineAt_zero]
          rfl

/-- **A line is the number of the starts that are not behind the position.** -/
theorem lineAt_eq_length_takeWhile (k : Nat) (t : Text) :
    lineAt k t = ((lineStarts t).takeWhile fun m => decide (m ≤ k)).length := by
  have h := @lineAt_eq_of_breaksFrom 0 t k
  rw [Nat.zero_add] at h
  rw [lineStarts, List.takeWhile_cons_of_pos (by simp), List.length_cons, h]

theorem exists_lineStart_from (h : start ≤ n) (k : Nat) :
    ∃ s, (start :: breaksFrom n t)[lineAt k t - 1]? = some s ∧ s ≤ n + k ∧
      columnFrom (n - start + 1) k t = n + k - s + 1 := by
  induction t generalizing start n k with
  | nil =>
    refine ⟨start, rfl, by omega, ?_⟩
    rw [columnFrom]
    omega
  | cons c t ih =>
    rw [lineAt, columnFrom]
    split
    · next hk =>
      exact ⟨start, rfl, by omega, by omega⟩
    · next hk =>
      rw [breaksFrom]
      split
      · next hc =>
        have hsize : c.utf8Size = 1 := by rw [hc]; rfl
        obtain ⟨s, hs, hle, hcolumn⟩ := ih (Nat.le_refl (n + 1)) (k - c.utf8Size)
        have hindex : 1 + lineAt (k - c.utf8Size) t - 1 = lineAt (k - c.utf8Size) t - 1 + 1 := by
          have := one_le_lineAt (k - c.utf8Size) t
          omega
        rw [Nat.sub_self, Nat.zero_add] at hcolumn
        refine ⟨s, ?_, by omega, by omega⟩
        rw [hindex, List.getElem?_cons_succ]
        exact hs
      · by_cases hle : c.utf8Size ≤ k
        · obtain ⟨s, hs, hle', hcolumn⟩ :=
            ih (Nat.le_add_right_of_le h : start ≤ n + c.utf8Size) (k - c.utf8Size)
          have hstart : n - start + 1 + min c.utf8Size k = n + c.utf8Size - start + 1 := by omega
          refine ⟨s, ?_, by omega, ?_⟩
          · rw [Nat.zero_add]
            exact hs
          · rw [hstart, hcolumn]
            omega
        · -- The position is inside of the character.
          have hzero : k - c.utf8Size = 0 := by omega
          rw [hzero, lineAt_zero, columnFrom_zero]
          exact ⟨start, rfl, by omega, by omega⟩

/-- **A line is looked up in the table**: it is the number of the starts that are not behind the
position, and the last of these starts is found at the index one below it. -/
structure FindsLine (t : Text) (offset line start : Nat) : Prop where
  line_eq : line = ((lineStarts t).takeWhile fun m => decide (m ≤ offset)).length
  one_le : 1 ≤ line
  found : (lineStarts t)[line - 1]? = some start
  start_le : start ≤ offset

/-- **The line of every position has a start in the table**, and the column is counted from it. -/
theorem exists_lineStart (k : Nat) (t : Text) :
    ∃ s, FindsLine t k (lineAt k t) s ∧ columnAt k t = k - s + 1 := by
  obtain ⟨s, hs, hle, hcolumn⟩ := @exists_lineStart_from 0 0 t (Nat.le_refl 0) k
  rw [Nat.zero_add] at hle
  rw [Nat.sub_self, Nat.zero_add, Nat.zero_add] at hcolumn
  exact ⟨s, ⟨lineAt_eq_length_takeWhile k t, one_le_lineAt k t, hs, hle⟩, hcolumn⟩

end MakeBlueprint.Text
