import MakeBlueprint.Blueprint.Property
import MakeBlueprint.Proofs.Except

/-!
# What a change does to a property tree

`Property.alter` changes one property of a level and `Property.update` one behind a path of maps.
Everything that later files need of them is said here once:

* `altered_of_alter`: a change either replaces the value of the first property with the name and
  keeps all others, or adds a property at the end of a level that has none with the name.
* `lines_update`: a change adds at most one line to a level, at its end.
* `change_of_alter_error`: a level only refuses a change because the change itself is refused.
* `find?_update_self`: the changed property has its new value.
* `find?_update_of_disjoint`: a path that neither leads to the changed property nor through it
  finds what it found before.
* `sameOutside_update`: so a change only changes what is behind its own path.
* `update_of_find?`: a change that gives the value that is there changes nothing at all.
-/

namespace MakeBlueprint.Blueprint.Property

variable {ε : Type} {name level : Text} {line : Nat} {notAMap : Text → ε}
  {change : Option Value → Except ε Value} {ps qs : List Property} {path q : Path}

/-! ## One level -/

/-- **What a change of one name does to a level.** -/
inductive Altered (name : Text) (line : Nat) (change : Option Value → Except ε Value) :
    List Property → List Property → Prop
  /-- The first property with the name gets a new value and keeps its place and its line. -/
  | changed (before after : List Property) (p : Property) (value : Value)
      (hbefore : ∀ b ∈ before, b.name ≠ name) (hname : p.name = name)
      (hvalue : change (some p.value) = .ok value) :
      Altered name line change (before ++ p :: after) (before ++ ⟨name, value, p.line⟩ :: after)
  /-- A level without the name gets a property at its end. -/
  | added (ps : List Property) (value : Value) (hnone : ∀ p ∈ ps, p.name ≠ name)
      (hvalue : change none = .ok value) :
      Altered name line change ps (ps ++ [⟨name, value, line⟩])

theorem Altered.cons {p : Property} (hp : p.name ≠ name) (h : Altered name line change ps qs) :
    Altered name line change (p :: ps) (p :: qs) := by
  cases h with
  | changed before after r value hbefore hname hvalue =>
    refine Altered.changed (p :: before) after r value ?_ hname hvalue
    intro b hb
    rcases List.mem_cons.mp hb with rfl | hb
    · exact hp
    · exact hbefore b hb
  | added ps value hnone hvalue =>
    refine Altered.added (p :: ps) value ?_ hvalue
    intro r hr
    rcases List.mem_cons.mp hr with rfl | hr
    · exact hp
    · exact hnone r hr

/-- **`alter` changes a level as `Altered` says.** -/
theorem altered_of_alter (h : alter name line change ps = .ok qs) :
    Altered name line change ps qs := by
  induction ps generalizing qs with
  | nil =>
    obtain ⟨value, hv, rfl⟩ := map_eq_ok h
    exact Altered.added [] value (fun _ hp => absurd hp List.not_mem_nil) hv
  | cons p ps ih =>
    rw [alter] at h
    split at h
    · next hp =>
      obtain ⟨value, hv, rfl⟩ := map_eq_ok h
      rw [hp]
      exact Altered.changed [] ps p value (fun _ hb => absurd hb List.not_mem_nil) hp hv
    · next hp =>
      obtain ⟨rs, hrs, rfl⟩ := map_eq_ok h
      exact (ih hrs).cons hp

/-- A change keeps the lines of a level, or adds its own at the end. -/
theorem Altered.lines (h : Altered name line change ps qs) :
    qs.map Property.line = ps.map Property.line ∨
      qs.map Property.line = ps.map Property.line ++ [line] := by
  cases h with
  | changed before after p value =>
    left
    rw [List.map_append, List.map_append]
    rfl
  | added ps value => exact .inr List.map_append

/-- **A change behind a path** keeps the lines of the outer level, or adds its own at the end. -/
theorem lines_update {notAMap : Text → ε} (h : update line notAMap name change path ps = .ok qs) :
    qs.map Property.line = ps.map Property.line ∨
      qs.map Property.line = ps.map Property.line ++ [line] := by
  cases path with
  | nil => exact (altered_of_alter h).lines
  | cons level path => exact (altered_of_alter h).lines

/-- A level refuses a change only because the change refuses what is found on it. -/
theorem change_named?_of_alter_error {e : ε} (h : alter name line change ps = .error e) :
    change ((named? name ps).map Property.value) = .error e := by
  induction ps with
  | nil => exact map_eq_error h
  | cons p ps ih =>
    rw [alter] at h
    split at h
    · next hp => simpa [named?, hp] using map_eq_error h
    · next hp => simpa [named?, hp] using ih (map_eq_error h)

/-- A level refuses a change only where the change refuses the value that is there. -/
theorem change_of_alter_error {e : ε} (h : alter name line change ps = .error e) :
    (∃ p ∈ ps, p.name = name ∧ change (some p.value) = .error e) ∨ change none = .error e := by
  have hrefused := change_named?_of_alter_error h
  cases hp : named? name ps with
  | none =>
    rw [hp] at hrefused
    exact Or.inr hrefused
  | some p =>
    rw [hp] at hrefused
    have hname : p.name = name := by simpa using List.find?_some hp
    exact Or.inl ⟨p, List.mem_of_find?_eq_some hp, hname, hrefused⟩

/-! ## Lookups in other places -/

@[simp] theorem find?_nil (q : Path) : find? q [] = none := by
  match q with
  | [] => rfl
  | [_] => rfl
  | _ :: _ :: _ => rfl

theorem find?_cons_cons (n : Text) : find? (name :: n :: q) ps =
    match (named? name ps).map Property.value with
    | some (.map inner) => find? (n :: q) inner
    | _ => none := rfl

/-- A lookup only depends on the property that its first name finds. -/
theorem find?_congr (h : named? name ps = named? name qs) :
    find? (name :: q) ps = find? (name :: q) qs := by
  cases q with
  | nil => exact h
  | cons n q => rw [find?_cons_cons, find?_cons_cons, h]

/-- A lookup through a map that is found is a lookup in that map. -/
theorem find?_cons_of_map {p : Property} {inner : List Property} (hp : named? name ps = some p)
    (hv : p.value = .map inner) (hq : q ≠ []) : find? (name :: q) ps = find? q inner := by
  obtain ⟨n, q, rfl⟩ := List.exists_cons_of_ne_nil hq
  rw [find?_cons_cons, hp, Option.map_some, hv]

theorem find?_cons_of_none (hp : named? name ps = none) : find? (name :: q) ps = none := by
  cases q with
  | nil => exact hp
  | cons n q => rw [find?_cons_cons, hp, Option.map_none]

/-- A change behind a level is one of the map that stands there, or of a new one. -/
theorem level_of_update (h : update line notAMap name change (level :: path) ps = .ok qs) :
    ∃ old inner at', update line notAMap name change path old = .ok inner ∧
      named? level qs = some ⟨level, .map inner, at'⟩ ∧
      (named? level ps = none ∧ old = [] ∨
        ∃ p, named? level ps = some p ∧ p.value = .map old) := by
  obtain ⟨value, hv, hnamed⟩ := named?_alter_self h
  cases hold : named? level ps with
  | none =>
    rw [hold] at hv
    obtain ⟨inner, hinner, rfl⟩ := map_eq_ok hv
    exact ⟨[], inner, _, hinner, hnamed, Or.inl ⟨rfl, rfl⟩⟩
  | some p =>
    rw [hold, Option.map_some] at hv
    cases hp : p.value with
    | map old =>
      rw [hp] at hv
      obtain ⟨inner, hinner, rfl⟩ := map_eq_ok hv
      exact ⟨old, inner, _, hinner, hnamed, Or.inr ⟨p, rfl, hp⟩⟩
    | _ =>
      rw [hp] at hv
      cases hv

/-- A changed property has the value that the change gave. -/
theorem find?_update_self (h : update line notAMap name change path ps = .ok qs) :
    ∃ old value at', change old = .ok value ∧
      find? (path ++ [name]) qs = some ⟨name, value, at'⟩ := by
  induction path generalizing ps qs with
  | nil =>
    obtain ⟨value, hvalue, hfind⟩ := named?_alter_self h
    exact ⟨_, value, _, hvalue, hfind⟩
  | cons level path ih =>
    obtain ⟨old, inner, at', hinner, hnamed, -⟩ := level_of_update h
    obtain ⟨before, value, line', hvalue, hfind⟩ := ih hinner
    refine ⟨before, value, line', hvalue, ?_⟩
    rw [List.cons_append, find?_cons_of_map hnamed rfl (by simp), hfind]

/-- **A change is only seen on the way to it and behind it.** -/
theorem find?_update_of_disjoint (h : update line notAMap name change path ps = .ok qs)
    (hto : ¬ q <+: path ++ [name]) (hfrom : ¬ path ++ [name] <+: q) :
    find? q qs = find? q ps := by
  induction path generalizing ps qs q with
  | nil =>
    cases q with
    | nil => exact absurd List.nil_prefix hto
    | cons n q =>
      have hn : n ≠ name := by
        rintro rfl
        exact hfrom (List.cons_prefix_cons.mpr ⟨rfl, List.nil_prefix⟩)
      exact find?_congr (named?_alter_of_ne hn h)
  | cons level path ih =>
    cases q with
    | nil => exact absurd List.nil_prefix hto
    | cons n q =>
      by_cases hn : n = level
      · subst hn
        have hto' : ¬ q <+: path ++ [name] := fun hq =>
          hto (List.cons_prefix_cons.mpr ⟨rfl, hq⟩)
        have hfrom' : ¬ path ++ [name] <+: q := fun hq =>
          hfrom (List.cons_prefix_cons.mpr ⟨rfl, hq⟩)
        have hq : q ≠ [] := by
          rintro rfl
          exact hto' List.nil_prefix
        obtain ⟨old, inner, at', hinner, hnamed, hold⟩ := level_of_update h
        rw [find?_cons_of_map hnamed rfl hq, ih hinner hto' hfrom']
        rcases hold with ⟨hnone, rfl⟩ | ⟨p, hp, hv⟩
        · rw [find?_nil, find?_cons_of_none hnone]
        · rw [find?_cons_of_map hp hv hq]
      · exact find?_congr (named?_alter_of_ne hn h)

/-- On the way to a change there are only maps, before it and after it. -/
theorem isMap_of_update (h : update line notAMap name change path ps = .ok qs) (hq : q <+: path)
    {p : Property} (hp : find? q qs = some p ∨ find? q ps = some p) :
    ∃ inner, p.value = .map inner := by
  induction path generalizing ps qs q with
  | nil =>
    rw [List.prefix_nil.mp hq] at hp
    rcases hp with hp | hp <;> cases hp
  | cons level path ih =>
    cases q with
    | nil => rcases hp with hp | hp <;> cases hp
    | cons n q =>
      obtain ⟨rfl, hrest⟩ := List.cons_prefix_cons.mp hq
      obtain ⟨old, inner, at', hinner, hnamed, hold⟩ := level_of_update h
      by_cases hnil : q = []
      · subst hnil
        rcases hp with hp | hp
        · cases hnamed.symm.trans hp
          exact ⟨inner, rfl⟩
        · rcases hold with ⟨hnone, -⟩ | ⟨r, hr, hv⟩
          · cases hnone.symm.trans hp
          · cases hr.symm.trans hp
            exact ⟨old, hv⟩
      · refine ih hinner hrest ?_
        rcases hp with hp | hp
        · rw [find?_cons_of_map hnamed rfl hnil] at hp
          exact Or.inl hp
        · rcases hold with ⟨hnone, -⟩ | ⟨r, hr, hv⟩
          · rw [find?_cons_of_none hnone] at hp
            cases hp
          · rw [find?_cons_of_map hr hv hnil] at hp
            exact Or.inr hp

/-! ## Changes that change nothing -/

theorem alter_of_named? {p : Property} (hp : named? name ps = some p)
    (hchange : change (some p.value) = .ok p.value) : alter name line change ps = .ok ps := by
  induction ps with
  | nil => cases hp
  | cons first ps ih =>
    rw [alter]
    by_cases hname : first.name = name
    · have hfirst : first = p := by simpa [named?, hname] using hp
      rw [if_pos hname, hfirst, hchange]
      cases p
      rfl
    · have hrest : named? name ps = some p := by simpa [named?, hname] using hp
      rw [if_neg hname, ih hrest]
      rfl

/-- A change that gives the value that is there leaves the tree as it is. -/
theorem update_of_find? {p : Property} (hp : find? (path ++ [name]) ps = some p)
    (hchange : change (some p.value) = .ok p.value) :
    update line notAMap name change path ps = .ok ps := by
  induction path generalizing ps with
  | nil => exact alter_of_named? hp hchange
  | cons level path ih =>
    obtain ⟨next, rest, hrest⟩ : ∃ next rest, path ++ [name] = next :: rest :=
      List.exists_cons_of_ne_nil (by simp)
    rw [List.cons_append, hrest, find?_cons_cons, ← hrest] at hp
    split at hp
    · next inner hinner =>
      obtain ⟨r, hr, hvalue⟩ := Option.map_eq_some_iff.mp hinner
      refine alter_of_named? hr ?_
      rw [hvalue]
      simp only
      rw [ih hp]
      rfl
    · cases hp

/-! ## Changes in one place -/

/-- **Two trees are the same outside some places.** -/
structure SameOutside (places : List Path) (ps qs : List Property) : Prop where
  /-- What stands beside the places is the same. -/
  beside : ∀ q, (∀ place ∈ places, ¬ place <+: q ∧ ¬ q <+: place) → find? q qs = find? q ps
  /-- On the way to a place there may be new maps, and nothing else is new or gone. -/
  above : ∀ q, (∀ place ∈ places, ¬ place <+: q) → ∀ p, p.value.asMap? = none →
    (find? q qs = some p ↔ find? q ps = some p)

theorem SameOutside.refl (places : List Path) (ps : List Property) : SameOutside places ps ps where
  beside _ _ := rfl
  above _ _ _ _ := Iff.rfl

theorem SameOutside.trans {places : List Path} {rs : List Property}
    (h : SameOutside places ps qs) (h' : SameOutside places qs rs) : SameOutside places ps rs where
  beside q hq := (h'.beside q hq).trans (h.beside q hq)
  above q hq p hp := (h'.above q hq p hp).trans (h.above q hq p hp)

/-- **A change behind a path only changes what is behind that path.** -/
theorem sameOutside_update {places : List Path} {place : Path} (hplace : place ∈ places)
    (hpath : place <+: path ++ [name]) (h : update line notAMap name change path ps = .ok qs) :
    SameOutside places ps qs := by
  have hbelow : ∀ {q}, (∀ place ∈ places, ¬ place <+: q) → ¬ path ++ [name] <+: q :=
    fun hq hpre => hq place hplace (hpath.trans hpre)
  constructor
  · intro q hq
    obtain ⟨hfrom, hto⟩ := hq place hplace
    apply find?_update_of_disjoint h
    · intro hpre
      rcases List.prefix_or_prefix_of_prefix hpre hpath with hqp | hpq
      · exact hto hqp
      · exact hfrom hpq
    · exact hbelow fun r hr => (hq r hr).1
  · intro q hq p hp
    have hfrom := hbelow hq
    by_cases hto : q <+: path ++ [name]
    · -- A path on the way to the change leads to maps only, in both trees.
      have hpre : q <+: path := by
        rcases List.prefix_concat_iff.mp hto with he | hpre
        · exact absurd (he ▸ List.prefix_rfl) hfrom
        · exact hpre
      have hmap : ∀ {r : Property}, find? q qs = some r ∨ find? q ps = some r →
          r.value.asMap? ≠ none := by
        intro r hr
        obtain ⟨inner, hinner⟩ := isMap_of_update h hpre hr
        rw [hinner]
        exact Option.some_ne_none inner
      constructor
      · intro hfind
        exact absurd hp (hmap (.inl hfind))
      · intro hfind
        exact absurd hp (hmap (.inr hfind))
    · rw [find?_update_of_disjoint h hto hfrom]

end MakeBlueprint.Blueprint.Property
