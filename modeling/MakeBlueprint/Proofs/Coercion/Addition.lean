import MakeBlueprint.Proofs.Coercion.Evaluation

/-!
# The law of addition

Literals are folded, strings beside lists become items, and everything else becomes an expression.
What comes out only depends on the kinds and the meanings of the two sides.

* `Value.Uniform`: the two sides of an expression have its kind, and the items of a list are
  strings.
* `adds_iff`: the four sums that there are.
* `Adds.uniform`, `Adds.kind_eq`: a sum is uniform again, of a known kind.
* `Adds.text?`, `Adds.items?`: a sum means the meanings of its sides, one behind the other.

`add_law` puts them together.
-/

namespace MakeBlueprint.Blueprint.Value

/-- **A value whose parts fit together.** Any character may be the operator of an expression. -/
inductive Uniform : Value → Prop
  | string (text : Text) : Uniform (.string text)
  | list (items : List Value) (hitems : ∀ v ∈ items, Uniform v)
      (hkinds : ∀ v ∈ items, v.kind = .string) : Uniform (.list items)
  | bool (b : Bool) : Uniform (.bool b)
  | binary (operator : Char) (left right : Value) (kind : Kind) (hleft : Uniform left)
      (hright : Uniform right) (hleftKind : left.kind = kind) (hrightKind : right.kind = kind) :
      Uniform (.binary operator left right kind)
  | var (name : Text) (kind : Kind) : Uniform (.var name kind)

theorem WellTyped.uniform {v : Value} (h : v.WellTyped) : v.Uniform := by
  induction h with
  | string text => exact .string text
  | list items _ hkinds ih => exact .list items ih hkinds
  | bool b => exact .bool b
  | binary left right kind _ _ hleftKind hrightKind _ ihleft ihright =>
    exact .binary '+' left right kind ihleft ihright hleftKind hrightKind
  | var name kind => exact .var name kind

variable {strings : Text → Text} {lists : Text → List Text} {v : Value}

/-- Every well-typed string has a text. -/
theorem WellTyped.exists_text? (h : v.WellTyped) (hk : v.kind = .string) :
    ∃ t, v.text? strings = some t := by
  induction h with
  | string text => exact ⟨text, rfl⟩
  | list | bool => cases hk
  | binary left right kind _ _ hleftKind hrightKind _ ihleft ihright =>
    obtain rfl : kind = .string := hk
    obtain ⟨a, ha⟩ := ihleft hleftKind
    obtain ⟨b, hb⟩ := ihright hrightKind
    exact ⟨a ++ b, by rw [Value.text?, ha, hb]; rfl⟩
  | var name kind =>
    obtain rfl : kind = .string := hk
    exact ⟨strings name, rfl⟩

theorem exists_mapM {α β : Type} {f : α → Option β} {l : List α}
    (h : ∀ a ∈ l, ∃ b, f a = some b) : ∃ bs, l.mapM f = some bs := by
  induction l with
  | nil => exact ⟨[], rfl⟩
  | cons a l ih =>
    obtain ⟨b, hb⟩ := h a List.mem_cons_self
    obtain ⟨bs, hbs⟩ := ih fun x hx => h x (List.mem_cons_of_mem a hx)
    exact ⟨b :: bs, by rw [List.mapM_cons, hb, hbs]; rfl⟩

/-- Every well-typed list has items. -/
theorem WellTyped.exists_items? (h : v.WellTyped) (hk : v.kind = .list) :
    ∃ ts, v.items? strings lists = some ts := by
  induction h with
  | string | bool => cases hk
  | list items hitems hkinds =>
    exact exists_mapM fun v hv => (hitems v hv).exists_text? (hkinds v hv)
  | binary left right kind _ _ hleftKind hrightKind _ ihleft ihright =>
    obtain rfl : kind = .list := hk
    obtain ⟨a, ha⟩ := ihleft hleftKind
    obtain ⟨b, hb⟩ := ihright hrightKind
    exact ⟨a ++ b, by rw [Value.items?, ha, hb]; rfl⟩
  | var name kind =>
    obtain rfl : kind = .list := hk
    exact ⟨lists name, rfl⟩

variable (strings lists) in
/-- The items of a value beside a list: a string stands for its one item. -/
def asItems? (v : Value) : Option (List Text) :=
  if v.kind = .string then (v.text? strings).map fun t => [t] else v.items? strings lists

end MakeBlueprint.Blueprint.Value

namespace MakeBlueprint.Conversion

open Blueprint (Kind Value)

variable {left right v : Value} {kind : Kind} {strings : Text → Text} {lists : Text → List Text}

/-! ## The sums that there are -/

/-- **What a sum is**, by the kinds of its sides. -/
inductive Adds (left right : Value) : Value → Prop
  | strings (hleft : left.kind = .string) (hright : right.kind = .string) :
      Adds left right (addSameKind .string left right)
  | lists (hleft : left.kind = .list) (hright : right.kind = .list) :
      Adds left right (addSameKind .list left right)
  | inFront (hleft : left.kind = .string) (hright : right.kind = .list) :
      Adds left right (addSameKind .list (promote left) right)
  | behind (hleft : left.kind = .list) (hright : right.kind = .string) :
      Adds left right (addSameKind .list left (promote right))

/-- **Addition makes these sums and no others**, maps left aside. -/
theorem adds_iff (hmap : left.kind ≠ .map) : add left right = .ok v ↔ Adds left right v := by
  constructor
  · intro h
    unfold add at h
    split at h
    · next hleft hright =>
      obtain ⟨-, -, rfl⟩ := addPromoted_iff.mp h
      rw [kind_promote]
      exact .inFront hleft hright
    · next hleft hright =>
      obtain ⟨-, -, rfl⟩ := addPromoted_iff.mp h
      rw [hleft]
      exact .behind hleft hright
    · obtain ⟨hkinds, hbool, rfl⟩ := addPromoted_iff.mp h
      cases hleft : left.kind with
      | string => exact .strings hleft (hkinds.symm.trans hleft)
      | list => exact .lists hleft (hkinds.symm.trans hleft)
      | bool => exact absurd hleft hbool
      | map => exact absurd hleft hmap
  · intro h
    unfold add
    cases h with
    | strings hleft hright =>
      rw [hleft, hright]
      exact addPromoted_of_kinds hleft hright nofun
    | lists hleft hright =>
      rw [hleft, hright]
      exact addPromoted_of_kinds hleft hright nofun
    | inFront hleft hright =>
      rw [hleft, hright]
      exact addPromoted_of_kinds (kind_promote left) hright nofun
    | behind hleft hright =>
      rw [hleft, hright]
      exact addPromoted_of_kinds hleft (kind_promote right) nofun

/-! ## What sums are -/

theorem uniform_promote (h : v.Uniform) (hk : v.kind = .string) : (promote v).Uniform := by
  have hitem : (Value.list [v]).Uniform :=
    .list [v] (List.forall_mem_singleton.mpr h) (List.forall_mem_singleton.mpr hk)
  cases v with
  | list items => exact h
  | _ => exact hitem

theorem uniform_addSameKind (hleft : left.Uniform) (hright : right.Uniform)
    (hleftKind : left.kind = kind) (hrightKind : right.kind = kind) :
    (addSameKind kind left right).Uniform := by
  unfold addSameKind
  split
  · exact .string _
  · next a b =>
    cases hleft with
    | list _ ha hak =>
      cases hright with
      | list _ hb hbk =>
        exact .list (a ++ b) (List.forall_mem_append.mpr ⟨ha, hb⟩)
          (List.forall_mem_append.mpr ⟨hak, hbk⟩)
  · exact .binary '+' left right kind hleft hright hleftKind hrightKind

/-- **A sum of uniform values is uniform.** -/
theorem Adds.uniform (h : Adds left right v) (hleft : left.Uniform) (hright : right.Uniform) :
    v.Uniform := by
  cases h with
  | strings hl hr => exact uniform_addSameKind hleft hright hl hr
  | lists hl hr => exact uniform_addSameKind hleft hright hl hr
  | inFront hl hr =>
    exact uniform_addSameKind (uniform_promote hleft hl) hright (kind_promote left) hr
  | behind hl hr =>
    exact uniform_addSameKind hleft (uniform_promote hright hr) hl (kind_promote right)

theorem kind_addSameKind_of (h : left.kind = kind) : (addSameKind kind left right).kind = kind := by
  rw [← h, kind_addSameKind]

/-- A sum with a list on one side is a list, and a string otherwise. -/
theorem Adds.kind_eq (h : Adds left right v) :
    v.kind = if left.kind = .list ∨ right.kind = .list then .list else .string := by
  cases h with
  | strings hl hr => rw [kind_addSameKind_of hl, hl, hr]; rfl
  | lists hl hr => rw [kind_addSameKind_of hl, hl, hr]; rfl
  | inFront hl hr => rw [kind_addSameKind_of (kind_promote left), hl, hr]; rfl
  | behind hl hr => rw [kind_addSameKind_of hl, hl, hr]; rfl

/-! ## What sums mean -/

theorem items?_promote (hk : v.kind = .string) :
    (promote v).items? strings lists = v.asItems? strings lists := by
  have hitem : (Value.list [v]).items? strings lists = (v.text? strings).map fun t => [t] := by
    rw [Value.items?, List.mapM_cons]
    cases v.text? strings <;> rfl
  unfold Value.asItems?
  rw [if_pos hk, ← hitem]
  cases v with
  | list items => cases hk
  | _ => rfl

theorem asItems?_of_list (hk : v.kind = .list) :
    v.asItems? strings lists = v.items? strings lists := by
  unfold Value.asItems?
  rw [hk]
  rfl

/-- **A sum that is a string** means the texts of its sides, one behind the other. -/
theorem Adds.text? (h : Adds left right v) (hk : v.kind = .string) :
    v.text? strings = concat? (left.text? strings) (right.text? strings) := by
  rw [h.kind_eq] at hk
  cases h with
  | strings hl hr => exact text?_addSameKind hl
  | lists hl hr | behind hl hr => simp [hl] at hk
  | inFront hl hr => simp [hr] at hk

/-- **A sum that is a list** means the items of its sides, one behind the other. -/
theorem Adds.items? (h : Adds left right v) (hk : v.kind = .list) :
    v.items? strings lists =
      concat? (left.asItems? strings lists) (right.asItems? strings lists) := by
  rw [h.kind_eq] at hk
  cases h with
  | strings hl hr => simp [hl, hr] at hk
  | lists hl hr => rw [items?_addSameKind hl, asItems?_of_list hl, asItems?_of_list hr]
  | inFront hl hr =>
    rw [items?_addSameKind (kind_promote left), items?_promote hl, asItems?_of_list hr]
  | behind hl hr => rw [items?_addSameKind hl, items?_promote hr, asItems?_of_list hl]

/-- Well-typed sides that have a sum have a well-typed one. -/
theorem Adds.wellTyped (h : Adds left right v) (hleft : left.WellTyped)
    (hright : right.WellTyped) : v.WellTyped := by
  have hhas : ∀ {kind}, kind.HasSum → ∀ {first second : Value}, first.Has kind → second.Has kind →
      (addSameKind kind first second).WellTyped := fun hk _ _ hl hr => (has_addSameKind hl hr hk).1
  cases h with
  | strings hl hr => exact hhas (.inl rfl) ⟨hleft, hl⟩ ⟨hright, hr⟩
  | lists hl hr => exact hhas (.inr rfl) ⟨hleft, hl⟩ ⟨hright, hr⟩
  | inFront hl hr => exact hhas (.inr rfl) (has_promote ⟨hleft, hl⟩) ⟨hright, hr⟩
  | behind hl hr => exact hhas (.inr rfl) ⟨hleft, hl⟩ (has_promote ⟨hright, hr⟩)

/-! ## The law -/

/-- **A value means what two others mean**, one behind the other. -/
structure MeansSum (strings : Text → Text) (lists : Text → List Text) (left right v : Value) :
    Prop where
  /-- A string means the texts of both. -/
  text : v.kind = .string → v.text? strings = concat? (left.text? strings) (right.text? strings)
  /-- A list means the items of both, of which a string has one. -/
  items : v.kind = .list → v.items? strings lists =
    concat? (left.asItems? strings lists) (right.asItems? strings lists)
  /-- There is such a meaning when the plus sign is the only operator. -/
  exists_text : left.WellTyped → right.WellTyped → v.kind = .string →
    ∃ t, v.text? strings = some t
  exists_items : left.WellTyped → right.WellTyped → v.kind = .list →
    ∃ ts, v.items? strings lists = some ts

/-- **The law of addition.** For two uniform values that are strings, lists or booleans, there is a
sum if and only if both are strings, both are lists, or one is a string and the other one a list.
The sum is uniform, a list if one side is a list, and a string otherwise. Whatever texts and lists
the variables stand for, it means what its sides mean, one behind the other. -/
theorem add_law (hleft : left.Uniform) (hright : right.Uniform) (hmap : left.kind ≠ .map) :
    ((∃ v, add left right = .ok v) ↔
      (left.kind = .string ∧ right.kind = .string) ∨ (left.kind = .list ∧ right.kind = .list) ∨
      (left.kind = .string ∧ right.kind = .list) ∨ (left.kind = .list ∧ right.kind = .string)) ∧
    ∀ v, add left right = .ok v →
      v.Uniform ∧ v.kind = (if left.kind = .list ∨ right.kind = .list then .list else .string) ∧
      ∀ strings lists, MeansSum strings lists left right v := by
  constructor
  · constructor
    · rintro ⟨v, h⟩
      cases (adds_iff hmap).mp h with
      | strings hl hr => exact .inl ⟨hl, hr⟩
      | lists hl hr => exact .inr (.inl ⟨hl, hr⟩)
      | inFront hl hr => exact .inr (.inr (.inl ⟨hl, hr⟩))
      | behind hl hr => exact .inr (.inr (.inr ⟨hl, hr⟩))
    · rintro (⟨hl, hr⟩ | ⟨hl, hr⟩ | ⟨hl, hr⟩ | ⟨hl, hr⟩)
      · exact ⟨_, (adds_iff hmap).mpr (.strings hl hr)⟩
      · exact ⟨_, (adds_iff hmap).mpr (.lists hl hr)⟩
      · exact ⟨_, (adds_iff hmap).mpr (.inFront hl hr)⟩
      · exact ⟨_, (adds_iff hmap).mpr (.behind hl hr)⟩
  · intro v h
    have hadds := (adds_iff hmap).mp h
    refine ⟨hadds.uniform hleft hright, hadds.kind_eq, fun strings lists => ?_⟩
    exact
      { text := hadds.text?
        items := hadds.items?
        exists_text := fun hl hr hk => (hadds.wellTyped hl hr).exists_text? hk
        exists_items := fun hl hr hk => (hadds.wellTyped hl hr).exists_items? hk }

/-- The sum `A + ["a"]` of a list variable and a literal list. -/
def listSum : Value := .binary '+' (.var "A" .list) (.list [.string "a"]) .list

/-- The sum `B + "b"` of a string variable and a literal string. -/
def stringSum : Value := .binary '+' (.var "B" .string) (.string "b") .string

/-- A string that is no literal becomes one item behind a list that is no literal. -/
theorem add_law_behind : listSum.kind = .list ∧ stringSum.kind = .string ∧
    ∃ v, add listSum stringSum = .ok v ∧ v.kind = .list ∧
      v.items? (fun _ => "x") (fun _ => ["y".toList, "z".toList]) =
        some ["y".toList, "z".toList, "a".toList, "xb".toList] := by
  have hlist : listSum.WellTyped := by
    refine .binary _ _ _ (.var _ _) (.list _ ?_ ?_) rfl rfl (.inr rfl)
    · exact List.forall_mem_singleton.mpr (.string _)
    · exact List.forall_mem_singleton.mpr rfl
  have hstring : stringSum.WellTyped := .binary _ _ _ (.var _ _) (.string _) rfl rfl (.inl rfl)
  obtain ⟨hexists, hall⟩ := add_law hlist.uniform hstring.uniform nofun
  obtain ⟨v, hv⟩ := hexists.mpr (.inr (.inr (.inr ⟨rfl, rfl⟩)))
  obtain ⟨-, hkind, hmeans⟩ := hall v hv
  exact ⟨rfl, rfl, v, hv, hkind, (hmeans _ _).items hkind⟩

end MakeBlueprint.Conversion
