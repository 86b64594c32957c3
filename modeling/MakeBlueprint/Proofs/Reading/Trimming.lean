import MakeBlueprint.Makefile.Statement

/-!
# Trimmed phrases

What trimming leaves of two phrases, one behind the other.

* `trimEnd_append`: the end of the second phrase is trimmed, and what is left of it is the end.
* `exists_append_trimEnd`: trimming leaves a beginning of the phrase,
  `leadingWhite_append_trimStart` says the same of the end.
* `trimEnd_trimEnd`, `leadingWhite_trimStart`, `leadingWhite_trimEnd`: a trimmed end stays trimmed.
-/

namespace MakeBlueprint.Makefile.Phrase.Body

variable {a b : Body} {c : Char}

theorem append_eq_nil_iff : a ++ b = .nil ↔ a = .nil ∧ b = .nil := by
  cases a with
  | nil => simp
  | char => simp
  | ref => simp

theorem trimEnd_append_of_nil (h : b.trimEnd = .nil) : (a ++ b).trimEnd = a.trimEnd := by
  induction a with
  | nil => exact h
  | char x r ih => simp only [char_append, trimEnd, ih]
  | ref name m n d r _ ih => simp only [ref_append, trimEnd, ih]

theorem trimEnd_append (h : b.trimEnd ≠ .nil) : (a ++ b).trimEnd = a ++ b.trimEnd := by
  induction a with
  | nil => rfl
  | char x r ih =>
    have hne : r ++ b.trimEnd ≠ .nil := fun hnil => h (append_eq_nil_iff.mp hnil).2
    simp only [char_append, trimEnd, ih]
  | ref name m n d r _ ih => simp only [ref_append, trimEnd, ih]

theorem trimStart_ofText_append {w : Text} (hw : ∀ c ∈ w, Text.isWhite c = true) (b : Body) :
    (ofText w ++ b).trimStart = b.trimStart := by
  induction w with
  | nil => rfl
  | cons c w ih =>
    obtain ⟨hc, hw⟩ := List.forall_mem_cons.mp hw
    rw [ofText, char_append, trimStart, if_pos hc, ih hw]

theorem trimEnd_ofText_white {w : Text} (hw : ∀ c ∈ w, Text.isWhite c = true) :
    (ofText w).trimEnd = .nil := by
  induction w with
  | nil => rfl
  | cons c w ih =>
    obtain ⟨hc, hw⟩ := List.forall_mem_cons.mp hw
    simp only [ofText, trimEnd, ih hw, hc, if_pos]

/-- A white character at the end is dropped. -/
theorem trimEnd_append_white (h : Text.isWhite c = true) :
    (b ++ .char c .nil).trimEnd = b.trimEnd :=
  trimEnd_append_of_nil (by simp [trimEnd, h])

/-- Any other character at the end stays. -/
theorem trimEnd_append_char (h : Text.isWhite c = false) :
    (b ++ .char c .nil).trimEnd = b ++ .char c .nil := by
  have hchar : (Body.char c .nil).trimEnd = .char c .nil := by simp [trimEnd, h]
  rw [trimEnd_append (by rw [hchar]; nofun), hchar]

theorem exists_append_trimEnd (b : Body) : ∃ w, b.trimEnd ++ w = b := by
  induction b with
  | nil => exact ⟨.nil, rfl⟩
  | char x r ih =>
    obtain ⟨w, hw⟩ := ih
    simp only [trimEnd]
    split
    · next heq =>
      rw [heq] at hw
      obtain rfl : w = r := hw
      split
      · exact ⟨.char x w, rfl⟩
      · exact ⟨w, rfl⟩
    · exact ⟨w, congrArg (Body.char x) hw⟩
  | ref name m n d r _ ih =>
    obtain ⟨w, hw⟩ := ih
    exact ⟨w, congrArg (Body.ref name m n d) hw⟩

theorem trimEnd_trimEnd (b : Body) : b.trimEnd.trimEnd = b.trimEnd := by
  induction b with
  | nil => rfl
  | char x r ih =>
    simp only [trimEnd]
    split
    · split
      · rfl
      · next hx => simp [trimEnd, hx]
    · next r' hne =>
      simp only [trimEnd, ih]
  | ref name m n d r _ ih => simp only [trimEnd, ih]

theorem trimStart_of_leadingWhite (h : b.leadingWhite = []) : b.trimStart = b := by
  have hsplit := leadingWhite_append_trimStart b
  rwa [h] at hsplit

theorem leadingWhite_trimStart (b : Body) : b.trimStart.leadingWhite = [] := by
  induction b with
  | nil => rfl
  | char x r ih =>
    by_cases hx : Text.isWhite x = true
    · rwa [trimStart, if_pos hx]
    · rw [trimStart, if_neg hx, leadingWhite, if_neg hx]
  | ref => rfl

/-- Trimming the end keeps the start trimmed. -/
theorem leadingWhite_trimEnd (h : b.leadingWhite = []) : b.trimEnd.leadingWhite = [] := by
  cases b with
  | nil => rfl
  | char x r =>
    have hx : ¬ Text.isWhite x = true := by
      intro hx
      rw [leadingWhite, if_pos hx] at h
      cases h
    rw [trimEnd]
    split
    · rw [if_neg hx, leadingWhite, if_neg hx]
    · rw [leadingWhite, if_neg hx]
  | ref => rfl

theorem endsWith_append_char (b : Body) (c d : Char) :
    (b ++ .char d .nil).endsWith c = (d == c) := by
  induction b with
  | nil => rfl
  | char x r ih =>
    cases r with
    | nil => rfl
    | char => exact ih
    | ref => exact ih
  | ref name m n d r _ ih => exact ih

theorem dropLast_append_char (b : Body) (d : Char) : (b ++ .char d .nil).dropLast = b := by
  induction b with
  | nil => rfl
  | char x r ih =>
    cases r with
    | nil => rfl
    | char => exact congrArg (Body.char x) ih
    | ref => exact congrArg (Body.char x) ih
  | ref name m n d r _ ih => exact congrArg (Body.ref name m n d) ih

theorem exists_append_dropLast (b : Body) : ∃ w, b.dropLast ++ w = b := by
  induction b with
  | nil => exact ⟨.nil, rfl⟩
  | char x r ih =>
    obtain ⟨w, hw⟩ := ih
    cases r with
    | nil => exact ⟨.char x .nil, rfl⟩
    | char => exact ⟨w, congrArg (Body.char x) hw⟩
    | ref => exact ⟨w, congrArg (Body.char x) hw⟩
  | ref name m n d r _ ih =>
    obtain ⟨w, hw⟩ := ih
    exact ⟨w, congrArg (Body.ref name m n d) hw⟩

end MakeBlueprint.Makefile.Phrase.Body
