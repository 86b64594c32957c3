import Mathlib.Data.List.Basic

/-!
# Results that may be refused

What is known of the parts of a computation in `Except` when the whole succeeds or is refused.
-/

namespace MakeBlueprint

variable {ε α β : Type}

theorem bind_eq_ok {x : Except ε α} {f : α → Except ε β} {b : β} (h : x >>= f = .ok b) :
    ∃ a, x = .ok a ∧ f a = .ok b := by
  cases x with
  | error e => cases h
  | ok a => exact ⟨a, rfl, h⟩

theorem bind_eq_error {x : Except ε α} {f : α → Except ε β} {e : ε} (h : x >>= f = .error e) :
    x = .error e ∨ ∃ a, x = .ok a ∧ f a = .error e := by
  cases x with
  | error e' =>
    cases h
    exact Or.inl rfl
  | ok a => exact Or.inr ⟨a, rfl, h⟩

theorem map_eq_error {f : α → β} {x : Except ε α} {e : ε} (h : x.map f = .error e) :
    x = .error e := by
  cases x with
  | error e' =>
    cases h
    rfl
  | ok a => cases h

/-- Two computations with the same image are both refused, or both give results that the image
does not tell apart. -/
theorem cases_of_map_eq_map {γ : Type} {f : α → γ} {g : β → γ} {x : Except ε α} {y : Except ε β}
    (h : x.map f = y.map g) :
    (∃ e, x = .error e ∧ y = .error e) ∨ ∃ a b, x = .ok a ∧ y = .ok b ∧ f a = g b := by
  cases x with
  | error e =>
    cases y with
    | error e' =>
      cases h
      exact Or.inl ⟨e, rfl, rfl⟩
    | ok b => cases h
  | ok a =>
    cases y with
    | error e' => cases h
    | ok b => exact Or.inr ⟨a, b, rfl, rfl, Except.ok.inj h⟩

/-- The first of a list of computations, and the others. -/
theorem mapM_cons_eq_ok {f : α → Except ε β} {a : α} {as : List α} {bs : List β}
    (h : (a :: as).mapM f = .ok bs) :
    ∃ b rest, f a = .ok b ∧ as.mapM f = .ok rest ∧ bs = b :: rest := by
  rw [List.mapM_cons] at h
  obtain ⟨b, hb, h⟩ := bind_eq_ok h
  obtain ⟨rest, hrest, h⟩ := bind_eq_ok h
  cases h
  exact ⟨b, rest, hb, hrest, rfl⟩

/-- Every result of a list of computations comes from one of them. -/
theorem mem_of_mapM_eq_ok {f : α → Except ε β} {as : List α} {bs : List β}
    (h : as.mapM f = .ok bs) : ∀ b ∈ bs, ∃ a ∈ as, f a = .ok b := by
  induction as generalizing bs with
  | nil =>
    cases h
    exact fun b hb => absurd hb List.not_mem_nil
  | cons a as ih =>
    obtain ⟨b, rest, hb, hrest, rfl⟩ := mapM_cons_eq_ok h
    intro c hc
    rcases List.mem_cons.mp hc with rfl | hc
    · exact ⟨a, List.mem_cons_self, hb⟩
    · obtain ⟨d, hd, hf⟩ := ih hrest c hc
      exact ⟨d, List.mem_cons_of_mem a hd, hf⟩

/-- A list of computations is refused because one of them is. -/
theorem exists_of_mapM_eq_error {f : α → Except ε β} {as : List α} {e : ε}
    (h : as.mapM f = .error e) : ∃ a ∈ as, f a = .error e := by
  induction as with
  | nil => cases h
  | cons a as ih =>
    rw [List.mapM_cons] at h
    rcases bind_eq_error h with ha | ⟨b, -, h⟩
    · exact ⟨a, List.mem_cons_self, ha⟩
    · rcases bind_eq_error h with hrest | ⟨rest, -, h⟩
      · obtain ⟨c, hc, hf⟩ := ih hrest
        exact ⟨c, List.mem_cons_of_mem a hc, hf⟩
      · cases h

/-- A list of computations is refused exactly when one of them is. -/
theorem mapM_eq_error_iff {f : α → Except ε β} {as : List α} :
    (∃ e, as.mapM f = .error e) ↔ ∃ a ∈ as, ∃ e, f a = .error e := by
  constructor
  · rintro ⟨e, h⟩
    obtain ⟨a, ha, hf⟩ := exists_of_mapM_eq_error h
    exact ⟨a, ha, e, hf⟩
  · rintro ⟨a, ha, e, hf⟩
    induction as with
    | nil => exact absurd ha List.not_mem_nil
    | cons first as ih =>
      rw [List.mapM_cons]
      cases hfirst : f first with
      | error e' => exact ⟨e', rfl⟩
      | ok b =>
        rcases List.mem_cons.mp ha with rfl | ha
        · rw [hf] at hfirst
          cases hfirst
        · obtain ⟨e', he⟩ := ih ha
          refine ⟨e', ?_⟩
          rw [he]
          rfl

/-- What is read off each result of a list of computations is read off all of them. -/
theorem mapM_of_mapM_eq_ok {γ : Type} {f : α → Except ε β} {g : β → Option γ} {k : α → γ}
    {as : List α} {bs : List β} (h : as.mapM f = .ok bs)
    (hread : ∀ a ∈ as, ∀ b, f a = .ok b → g b = some (k a)) : bs.mapM g = some (as.map k) := by
  induction as generalizing bs with
  | nil =>
    cases h
    rfl
  | cons a as ih =>
    obtain ⟨b, rest, hb, hrest, rfl⟩ := mapM_cons_eq_ok h
    rw [List.mapM_cons, hread a List.mem_cons_self b hb,
      ih hrest fun x hx => hread x (List.mem_cons_of_mem a hx)]
    rfl

/-- What each result of a list of computations tells, all of them tell. -/
theorem map_of_mapM_eq_ok {γ : Type} {f : α → Except ε β} {g : β → γ} {k : α → γ}
    {as : List α} {bs : List β} (h : as.mapM f = .ok bs)
    (hread : ∀ a ∈ as, ∀ b, f a = .ok b → g b = k a) : bs.map g = as.map k := by
  have hsome := mapM_of_mapM_eq_ok (g := fun b => some (g b)) (k := k) h
    fun a ha b hb => congrArg some (hread a ha b hb)
  exact Option.some.inj ((List.mapM_pure (m := Option)).symm.trans hsome)

/-- What every step of a fold keeps, the fold keeps. -/
theorem foldlM_keeps {P : β → Prop} {f : β → α → Except ε β} {as : List α} {b c : β}
    (hstep : ∀ a ∈ as, ∀ b c, P b → f b a = .ok c → P c) (hb : P b)
    (h : as.foldlM f b = .ok c) : P c := by
  induction as generalizing b with
  | nil =>
    cases h
    exact hb
  | cons a as ih =>
    rw [List.foldlM_cons] at h
    obtain ⟨d, hd, h⟩ := bind_eq_ok h
    exact ih (fun x hx => hstep x (List.mem_cons_of_mem a hx))
      (hstep a List.mem_cons_self b d hb hd) h

/-- A fold that keeps `P` is refused by one of its steps, in a place where `P` holds. -/
theorem exists_of_foldlM_eq_error {P : β → Prop} {f : β → α → Except ε β} {as : List α} {b : β}
    {e : ε} (hstep : ∀ a ∈ as, ∀ b c, P b → f b a = .ok c → P c) (hb : P b)
    (h : as.foldlM f b = .error e) : ∃ a ∈ as, ∃ c, P c ∧ f c a = .error e := by
  induction as generalizing b with
  | nil => cases h
  | cons a as ih =>
    rw [List.foldlM_cons] at h
    rcases bind_eq_error h with ha | ⟨d, hd, h⟩
    · exact ⟨a, List.mem_cons_self, b, hb, ha⟩
    · obtain ⟨x, hx, c, hc, hf⟩ := ih (fun x hx => hstep x (List.mem_cons_of_mem a hx))
        (hstep a List.mem_cons_self b d hb hd) h
      exact ⟨x, List.mem_cons_of_mem a hx, c, hc, hf⟩

end MakeBlueprint
