import Mathlib.Data.List.ReduceOption
import MakeBlueprint.Proofs.Conversion.Step

/-!
# Matching the beginnings and the ends of modules

The events of a run alone say which modules it builds. A statement that builds a module is matched
with the statement that begins one when no other event lies between them (`Extent.Matched`).

* `Pending`: the last event before a place begins a module. There is at most one such event
  (`Pending.unique`), and `pending_succ_of_none`, `pending_succ_of_opens` and
  `not_pending_succ_of_builds` say how it moves with the place.
* `abandoned`: the number of modules that are begun and never built, and how it grows with the
  events.
-/

namespace MakeBlueprint.Conversion

variable {es : List (Option ModuleEvent)} {i j n : Nat} {moduleType : Text}

/-! ## The last event before a place -/

/-- The last event before the place `n` is the one at `i`, which begins a module. -/
structure Pending (es : List (Option ModuleEvent)) (i n : Nat) : Prop where
  before : i < n
  opens : es[i]? = some (some .opens)
  quiet : ∀ k, i < k → k < n → es[k]? = some none

theorem Pending.not_lt (h : Pending es i n) (h' : Pending es j n) : ¬ i < j := by
  intro hlt
  have hquiet := h.quiet j hlt h'.before
  rw [h'.opens] at hquiet
  cases hquiet

theorem Pending.unique (h : Pending es i n) (h' : Pending es j n) : i = j := by
  have hij := h.not_lt h'
  have hji := h'.not_lt h
  omega

theorem not_pending_zero : ¬ Pending es i 0 := fun h => absurd h.before (Nat.not_lt_zero i)

/-- A place that is no event leaves the last event where it is. -/
theorem pending_succ_of_none (hn : es[n]? = some none) : Pending es i (n + 1) ↔ Pending es i n := by
  constructor
  · intro h
    have hne : i ≠ n := by
      rintro rfl
      have hopens := h.opens
      rw [hn] at hopens
      cases hopens
    have hbefore := h.before
    exact ⟨by omega, h.opens, fun k hk hkn => h.quiet k hk (by omega)⟩
  · intro h
    have hbefore := h.before
    refine ⟨by omega, h.opens, fun k hk hkn => ?_⟩
    by_cases he : k = n
    · rw [he]
      exact hn
    · exact h.quiet k hk (by omega)

/-- An event at the last place is the last event. -/
theorem eq_of_pending_succ {e : ModuleEvent} (hn : es[n]? = some (some e))
    (h : Pending es i (n + 1)) : i = n := by
  by_contra hne
  have hbefore := h.before
  have hquiet := h.quiet n (by omega) (by omega)
  rw [hn] at hquiet
  cases hquiet

theorem pending_succ_of_opens (hn : es[n]? = some (some .opens)) : Pending es n (n + 1) :=
  ⟨Nat.lt_succ_self n, hn, fun k hk hkn => by omega⟩

theorem not_pending_succ_of_builds (hn : es[n]? = some (some (.builds moduleType))) :
    ¬ Pending es i (n + 1) := by
  intro h
  have hopens := h.opens
  rw [eq_of_pending_succ hn h, hn] at hopens
  cases hopens

/-! ## Modules from their beginning to their end -/

/-- A module among the events of a run: the places where it is begun and built, and its type. -/
structure Extent where
  first : Nat
  last : Nat
  moduleType : Text

/-- **A module that is built**: no event lies between its beginning and its end. -/
structure Extent.Matched (es : List (Option ModuleEvent)) (x : Extent) : Prop where
  pending : Pending es x.first x.last
  builds : es[x.last]? = some (some (.builds x.moduleType))

/-- A module that ends at a place is the one that is open there. -/
theorem Extent.Matched.eq_of_pending {x : Extent} (h : x.Matched es) (hi : Pending es i x.last)
    (hb : es[x.last]? = some (some (.builds moduleType))) : x = ⟨i, x.last, moduleType⟩ := by
  obtain ⟨first, last, type⟩ := x
  have hfirst : first = i := h.pending.unique hi
  have hbuilds := h.builds
  rw [hb] at hbuilds
  cases hbuilds
  rw [hfirst]

/-- The matched modules that end before the place `n`, in order. -/
structure MatchedBefore (es : List (Option ModuleEvent)) (n : Nat) (extents : List Extent) :
    Prop where
  sorted : extents.Pairwise fun x y => x.last < y.last
  mem : ∀ x, x ∈ extents ↔ x.Matched es ∧ x.last < n

variable {extents : List Extent}

theorem matchedBefore_zero (es : List (Option ModuleEvent)) : MatchedBefore es 0 [] where
  sorted := List.Pairwise.nil
  mem x := by
    constructor
    · intro hx
      exact absurd hx List.not_mem_nil
    · rintro ⟨-, hlast⟩
      exact absurd hlast (Nat.not_lt_zero _)

/-- A place where no module ends adds none. -/
theorem MatchedBefore.succ (h : MatchedBefore es n extents)
    (hn : ∀ x : Extent, x.Matched es → x.last ≠ n) : MatchedBefore es (n + 1) extents where
  sorted := h.sorted
  mem x := by
    rw [h.mem]
    constructor
    · rintro ⟨hx, hlast⟩
      exact ⟨hx, by omega⟩
    · rintro ⟨hx, hlast⟩
      have hne := hn x hx
      exact ⟨hx, by omega⟩

theorem MatchedBefore.succ_of_not_builds (h : MatchedBefore es n extents)
    (hn : ∀ moduleType, es[n]? ≠ some (some (.builds moduleType))) :
    MatchedBefore es (n + 1) extents := by
  apply h.succ
  intro x hx he
  have hbuilds := hx.builds
  rw [he] at hbuilds
  exact hn _ hbuilds

theorem MatchedBefore.succ_of_not_pending (h : MatchedBefore es n extents)
    (hn : ∀ i, ¬ Pending es i n) : MatchedBefore es (n + 1) extents := by
  apply h.succ
  intro x hx he
  have hpending := hx.pending
  rw [he] at hpending
  exact hn _ hpending

/-- A place where the pending module is built adds that module. -/
theorem MatchedBefore.succ_of_builds (h : MatchedBefore es n extents) (hi : Pending es i n)
    (hb : es[n]? = some (some (.builds moduleType))) :
    MatchedBefore es (n + 1) (extents ++ [⟨i, n, moduleType⟩]) where
  sorted := by
    rw [List.pairwise_append]
    refine ⟨h.sorted, List.pairwise_singleton _ _, ?_⟩
    intro x hx y hy
    rw [List.mem_singleton.mp hy]
    exact ((h.mem x).mp hx).2
  mem x := by
    rw [List.mem_append, List.mem_singleton, h.mem]
    constructor
    · rintro (⟨hx, hlast⟩ | rfl)
      · exact ⟨hx, by omega⟩
      · exact ⟨⟨hi, hb⟩, Nat.lt_succ_self n⟩
    · rintro ⟨hx, hlast⟩
      by_cases he : x.last = n
      · right
        subst he
        exact hx.eq_of_pending hi hb
      · exact Or.inl ⟨hx, by omega⟩

/-! ## Modules that are never built -/

/-- The number of modules that are begun and not built before another is begun or the events
end. -/
def abandonedIn : List ModuleEvent → Nat
  | [] => 0
  | [.opens] => 1
  | .opens :: .opens :: es => abandonedIn (.opens :: es) + 1
  | .opens :: .builds _ :: es => abandonedIn es
  | .builds _ :: es => abandonedIn es

/-- **The number of modules that are begun and never built.** -/
def abandoned (es : List (Option ModuleEvent)) : Nat := abandonedIn es.reduceOption

/-- The first module is begun again, and the last one is left open. -/
example :
    abandoned [some .opens, none, some .opens, some (.builds []), none, some .opens] = 2 := rfl

/-- Whether the last event begins a module. -/
def lastOpens (es : List (Option ModuleEvent)) : Bool := es.reduceOption.getLast? == some .opens

theorem abandonedIn_append_opens (es : List ModuleEvent) :
    abandonedIn (es ++ [.opens]) = abandonedIn es + 1 := by
  fun_induction abandonedIn es with
  | case1 => rfl
  | case2 => rfl
  | case3 es ih =>
    simp only [List.cons_append, abandonedIn] at ih ⊢
    rw [ih]
  | case4 moduleType es ih => exact ih
  | case5 moduleType es ih => exact ih

/-- A module that is built is not abandoned after all. -/
theorem abandonedIn_append_builds (es : List ModuleEvent) (moduleType : Text) :
    abandonedIn (es ++ [.builds moduleType]) +
      (if es.getLast? == some .opens then 1 else 0) = abandonedIn es := by
  fun_induction abandonedIn es with
  | case1 => rfl
  | case2 => rfl
  | case3 es ih =>
    simp only [List.cons_append, abandonedIn, List.getLast?_cons_cons] at ih ⊢
    omega
  | case4 other es ih =>
    cases es with
    | nil => rfl
    | cons e es => exact ih
  | case5 other es ih =>
    cases es with
    | nil => rfl
    | cons e es => exact ih

theorem abandoned_append_none (es : List (Option ModuleEvent)) :
    abandoned (es ++ [none]) = abandoned es ∧ lastOpens (es ++ [none]) = lastOpens es := by
  unfold abandoned lastOpens
  rw [List.reduceOption_append, List.reduceOption_singleton, Option.toList_none, List.append_nil]
  exact ⟨rfl, rfl⟩

theorem abandoned_append_opens (es : List (Option ModuleEvent)) :
    abandoned (es ++ [some .opens]) = abandoned es + 1 ∧
      lastOpens (es ++ [some .opens]) = true := by
  unfold abandoned lastOpens
  rw [List.reduceOption_append, List.reduceOption_singleton, Option.toList_some]
  exact ⟨abandonedIn_append_opens _, by rw [List.getLast?_concat]; rfl⟩

theorem abandoned_append_builds (es : List (Option ModuleEvent)) (moduleType : Text) :
    abandoned (es ++ [some (.builds moduleType)]) + (if lastOpens es then 1 else 0) =
        abandoned es ∧
      lastOpens (es ++ [some (.builds moduleType)]) = false := by
  unfold abandoned lastOpens
  rw [List.reduceOption_append, List.reduceOption_singleton, Option.toList_some]
  exact ⟨abandonedIn_append_builds _ moduleType, by rw [List.getLast?_concat]; rfl⟩

end MakeBlueprint.Conversion
