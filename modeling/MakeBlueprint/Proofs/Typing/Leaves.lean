import MakeBlueprint.Proofs.Conditionals.Switches
import MakeBlueprint.Proofs.Property.Leaves

/-!
# What typed writes do to leaves

In a well-typed tree nothing is found behind a property, so a typed write changes exactly one leaf.
All that assignments do to a module is said of its leaves here, once for all variables.

* `alike_of_leaves`: such trees are alike when their leaves are.
* `leaf?_into`, `exists_into`: one write. It is made unless it adds up booleans.
* `leaf?_intoAll`: after several writes, a leaf only depends on those in its place. In a tree that
  was empty they settle it (`Settles`).
* `foldlM_write`: the writes of an assignment are writes into the tree of the open module.
-/

namespace MakeBlueprint.Conversion

open Blueprint (Kind Path Property Value)
open Blueprint.Property (AlikeUpTo change_of_update find? isSome_eq_of_rel isSome_find?_of_leaf?
  leaf? leaf?_nil leaf?_of_find? leaf?_of_maps leaf?_update_of_ne)

/-- The place of a write. -/
def Write.target (w : Write) : Path := w.path ++ [w.name]

/-- Writes into a property tree, one after the other. -/
def intoAll (line : Nat) (ws : List Write) (ps : List Property) : Except Refusal (List Property) :=
  ws.foldlM (fun ps w => w.into line ps) ps

variable {w : Write} {ws : List Write} {line : Nat} {ps qs : List Property} {q r : Path}
  {name : Text} {kind : Kind}

/-! ## One write -/

/-- A property that is found in a typed tree has the kind of its name. -/
theorem TypedLevel.has_of_find? (hps : TypedLevel q ps) (hkind : propertyKind? name = some kind)
    {p : Property} (hp : find? (r ++ [name]) ps = some p) : p.value.Has kind := by
  induction r generalizing q ps with
  | nil =>
    have hname : p.name = name := by simpa using List.find?_some hp
    exact (hps.typed p (List.mem_of_find?_eq_some hp)).has hname hkind
  | cons level r ih =>
    obtain ⟨n, rest, hrest⟩ : ∃ n rest, r ++ [name] = n :: rest :=
      List.exists_cons_of_ne_nil (by simp)
    rw [List.cons_append, hrest, Property.find?_cons_cons] at hp
    split at hp
    · next inner hinner =>
      obtain ⟨p', hp', hvalue⟩ := Option.map_eq_some_iff.mp hinner
      rw [← hrest] at hp
      exact ih ((hps.typed p' (List.mem_of_find?_eq_some hp')).level_of_map hvalue).2 hp
    · cases hp

/-- What stands in the place of a property is its leaf. -/
theorem TypedLevel.leaf?_eq (hps : TypedLevel q ps) (hkind : propertyKind? name = some kind) :
    leaf? (r ++ [name]) ps = (find? (r ++ [name]) ps).map Property.value := by
  cases hp : find? (r ++ [name]) ps with
  | none => exact leaf?_of_maps fun p hp' => by cases hp.symm.trans hp'
  | some p =>
    have hh := hps.has_of_find? hkind hp
    refine leaf?_of_find? hp ?_
    cases hv : p.value with
    | map inner =>
      rw [hv] at hh
      exact absurd hh.2.symm (kind_ne_map_of_propertyKind? hkind)
    | _ => rfl

/-- Every map leads to a leaf. -/
theorem TypedAt.exists_leaf {p : Property} (h : TypedAt q p) {inner : List Property}
    (hp : p.value = .map inner) : ∃ r, (leaf? r inner).isSome = true := by
  induction h generalizing inner with
  | leaf path name value at' hpath hkind hvalue =>
    change value = .map inner at hp
    rw [hp] at hkind
    exact absurd rfl (kind_ne_map_of_propertyKind? hkind)
  | level path name below at' hpath hne hnodup hinner ih =>
    cases hp
    obtain ⟨first, rest, rfl⟩ := List.exists_cons_of_ne_nil hne
    have hfirst : Property.named? first.name (first :: rest) = some first :=
      List.find?_cons_of_pos (beq_self_eq_true _)
    have hfind : find? [first.name] (first :: rest) = some first := hfirst
    cases hv : first.value with
    | map deeper =>
      obtain ⟨r, hr⟩ := ih first List.mem_cons_self hv
      have hne : r ≠ [] := by
        rintro rfl
        cases hr
      refine ⟨first.name :: r, ?_⟩
      unfold leaf? at hr ⊢
      rw [Property.find?_cons_of_map hfirst hv hne]
      exact hr
    | _ =>
      refine ⟨[first.name], ?_⟩
      rw [leaf?_of_find? hfind (by rw [hv]; rfl)]
      rfl

/-- At or behind every property there is a leaf. -/
theorem TypedLevel.exists_leaf (hps : TypedLevel q ps) {p : Property} (hp : find? r ps = some p) :
    ∃ rest, (leaf? (r ++ rest) ps).isSome = true := by
  induction r generalizing q ps with
  | nil => cases hp
  | cons level r ih =>
    cases r with
    | nil =>
      have hnamed : Property.named? level ps = some p := hp
      have htyped := hps.typed p (List.mem_of_find?_eq_some hnamed)
      cases hv : p.value with
      | map inner =>
        obtain ⟨rest, hrest⟩ := htyped.exists_leaf hv
        have hne : rest ≠ [] := by
          rintro rfl
          cases hrest
        refine ⟨rest, ?_⟩
        unfold leaf? at hrest ⊢
        rw [List.singleton_append, Property.find?_cons_of_map hnamed hv hne]
        exact hrest
      | _ =>
        refine ⟨[], ?_⟩
        rw [List.append_nil, leaf?_of_find? hp (by rw [hv]; rfl)]
        rfl
    | cons next r =>
      rw [Property.find?_cons_cons] at hp
      split at hp
      · next inner hinner =>
        obtain ⟨p', hp', hvalue⟩ := Option.map_eq_some_iff.mp hinner
        have hlevel := ((hps.typed p' (List.mem_of_find?_eq_some hp')).level_of_map hvalue).2
        obtain ⟨rest, hrest⟩ := ih hlevel hp
        refine ⟨rest, ?_⟩
        unfold leaf? at hrest ⊢
        rw [List.cons_append, Property.find?_cons_of_map hp' hvalue (by simp)]
        exact hrest
      · cases hp

/-- **Typed trees with related leaves are alike**: there are no maps but those that lead to them. -/
theorem alike_of_leaves {R : Value → Value → Prop} (hps : TypedLevel [] ps) (hqs : TypedLevel [] qs)
    (h : ∀ q, Option.Rel R (leaf? q ps) (leaf? q qs)) : AlikeUpTo R ps qs := by
  have hsome : ∀ q, (leaf? q ps).isSome = (leaf? q qs).isSome := fun q => isSome_eq_of_rel (h q)
  have hto : ∀ {ps qs}, TypedLevel [] ps → (∀ q, (leaf? q ps).isSome = (leaf? q qs).isSome) →
      ∀ {q}, (find? q ps).isSome = true → (find? q qs).isSome = true := by
    intro ps qs hps hsome q hfound
    obtain ⟨p, hp⟩ := Option.isSome_iff_exists.mp hfound
    obtain ⟨rest, hrest⟩ := hps.exists_leaf hp
    rw [hsome] at hrest
    refine isSome_find?_of_leaf? ?_ hrest
    rintro rfl
    cases hp
  refine ⟨fun q => ?_, h⟩
  rw [Bool.eq_iff_iff]
  exact ⟨hto hps hsome, hto hqs fun q => (hsome q).symm⟩

theorem typedLevel_into (hps : TypedLevel [] ps) (hw : w.Typed) (h : w.into line ps = .ok qs) :
    TypedLevel [] qs :=
  State.typedLevel_of_write (s := { State.start with line := line }) (d := ⟨ps, 0, []⟩) hps hw h

/-- **A typed write changes one leaf**, and no other. -/
theorem leaf?_into (hps : TypedLevel [] ps) (hw : w.Typed) (h : w.into line ps = .ok qs) :
    ∃ v, State.changed w.append w.value (leaf? w.target ps) = .ok v ∧
      ∀ q, leaf? q qs = if q = w.target then some v else leaf? q ps := by
  have hqs := typedLevel_into hps hw h
  obtain ⟨v, at', hv, hfind⟩ := change_of_update h
  refine ⟨v, ?_, fun q => ?_⟩
  · unfold Write.target
    rw [hps.leaf?_eq hw.kind, hv]
  · by_cases hq : q = w.target
    · subst hq
      unfold Write.target
      rw [if_pos rfl, hqs.leaf?_eq hw.kind, hfind]
      rfl
    · rw [if_neg hq]
      refine leaf?_update_of_ne h hq ?_
      rintro ⟨rest, rfl⟩
      have hrest : rest ≠ [] := by
        rintro rfl
        exact hq (List.append_nil _)
      obtain ⟨init, last, rfl⟩ := List.eq_nil_or_concat rest |>.resolve_left hrest
      have hmem : w.name ∈ w.path ++ [w.name] ++ init := by simp
      rw [List.concat_eq_append, ← List.append_assoc]
      exact ⟨find?_behind_property hqs hmem hw.kind last,
        find?_behind_property hps hmem hw.kind last⟩

/-- A value is changed unless booleans are added. -/
theorem exists_changed {append : Bool} {value old : Value} (hk : kind ≠ .map)
    (hv : value.Has kind) (ho : old.Has kind) (hsum : append = true → value.kind ≠ .bool) :
    ∃ v, State.changed append value (some old) = .ok v := by
  cases append with
  | false => exact ⟨value, rfl⟩
  | true =>
    rcases hasSum_or_bool hk with hs | hb
    · obtain ⟨v, hadd, -⟩ := exists_add_same ho hv hs
      exact ⟨v, changed_append_iff.mpr hadd⟩
    · exact absurd (hv.2.trans hb) (hsum rfl)

/-- **A typed write is made** unless it adds up booleans. -/
theorem exists_into (line : Nat) (hps : TypedLevel [] ps) (hw : w.Typed)
    (hsum : w.append = true → w.value.kind ≠ .bool) : ∃ qs, w.into line ps = .ok qs := by
  cases h : w.into line ps with
  | ok qs => exact ⟨qs, rfl⟩
  | error cause =>
    have hk := kind_ne_map_of_propertyKind? hw.kind
    rcases change_of_update_error hps hw.place hw.kind h with ⟨old, ho, hc⟩ | hc
    · obtain ⟨v, hv⟩ := exists_changed hk ⟨hw.value, rfl⟩ ho hsum
      rw [hv] at hc
      cases hc
    · cases hc

/-! ## Several writes -/

/-- What a write makes of the leaf in its place. -/
def settle (old : Option Value) (w : Write) : Except Refusal (Option Value) :=
  (State.changed w.append w.value old).map some

/-- The writes in a place. -/
def writesAt (q : Path) (ws : List Write) : List Write := ws.filter fun w => w.target == q

theorem writesAt_append (q : Path) (ws ws' : List Write) :
    writesAt q (ws ++ ws') = writesAt q ws ++ writesAt q ws' :=
  List.filter_append ..

theorem writesAt_eq_nil_iff : writesAt q ws = [] ↔ q ∉ ws.map Write.target := by
  unfold writesAt
  rw [List.filter_eq_nil_iff]
  simp

theorem target_of_mem_writesAt (h : w ∈ writesAt q ws) : w.target = q :=
  beq_iff_eq.mp (List.mem_filter.mp h).2

theorem intoAll_singleton (line : Nat) (w : Write) (ps : List Property) :
    intoAll line [w] ps = w.into line ps := by
  unfold intoAll
  rw [List.foldlM_cons]
  cases w.into line ps <;> rfl

theorem typedLevel_intoAll (hps : TypedLevel [] ps) (hws : ∀ w ∈ ws, w.Typed)
    (h : intoAll line ws ps = .ok qs) : TypedLevel [] qs :=
  foldlM_keeps (P := TypedLevel []) (fun w hw _ _ hb hc => typedLevel_into hb (hws w hw) hc) hps h

/-- **Typed writes are made** unless they add up booleans. -/
theorem exists_intoAll (line : Nat) (hps : TypedLevel [] ps) (hws : ∀ w ∈ ws, w.Typed)
    (hsum : ∀ w ∈ ws, w.append = true → w.value.kind ≠ .bool) :
    ∃ qs, intoAll line ws ps = .ok qs := by
  induction ws generalizing ps with
  | nil => exact ⟨ps, rfl⟩
  | cons w ws ih =>
    have hw := hws w List.mem_cons_self
    obtain ⟨rs, hrs⟩ := exists_into line hps hw (hsum w List.mem_cons_self)
    obtain ⟨qs, hqs⟩ := ih (typedLevel_into hps hw hrs)
      (fun x hx => hws x (List.mem_cons_of_mem w hx))
      fun x hx => hsum x (List.mem_cons_of_mem w hx)
    refine ⟨qs, ?_⟩
    unfold intoAll
    rw [List.foldlM_cons, hrs]
    exact hqs

/-- **A leaf only depends on the writes in its place**, which settle it one after the other. -/
theorem leaf?_intoAll (hps : TypedLevel [] ps) (hws : ∀ w ∈ ws, w.Typed)
    (h : intoAll line ws ps = .ok qs) (q : Path) :
    (writesAt q ws).foldlM settle (leaf? q ps) = .ok (leaf? q qs) := by
  induction ws generalizing ps with
  | nil =>
    cases h
    rfl
  | cons w ws ih =>
    obtain ⟨rs, hrs, hrest⟩ := bind_eq_ok ((List.foldlM_cons ..).symm.trans h)
    have hw := hws w List.mem_cons_self
    obtain ⟨v, hv, hleaf⟩ := leaf?_into hps hw hrs
    have ih := ih (typedLevel_into hps hw hrs) (fun x hx => hws x (List.mem_cons_of_mem w hx)) hrest
    rw [hleaf q] at ih
    unfold writesAt at ih ⊢
    by_cases hq : q = w.target
    · rw [if_pos hq] at ih
      rw [List.filter_cons_of_pos (by simp [hq]), List.foldlM_cons, settle, hq, hv]
      rw [hq] at ih
      exact ih
    · rw [if_neg hq] at ih
      rw [List.filter_cons_of_neg (by simp [Ne.symm hq])]
      exact ih

/-! ## Writes into an empty tree -/

/-- **What writes make of a leaf that is not there**. -/
def Settles (ws : List Write) (q : Path) (leaf : Option Value) : Prop :=
  (writesAt q ws).foldlM settle none = .ok leaf

/-- Writes into an empty tree settle its leaves. -/
theorem settles_intoAll (hws : ∀ w ∈ ws, w.Typed) (h : intoAll line ws [] = .ok qs) (q : Path) :
    Settles ws q (leaf? q qs) := by
  have hq := leaf?_intoAll (typedLevel_nil []) hws h q
  rwa [leaf?_nil] at hq

/-- Writes into a tree that others made settle its leaves together with them. -/
theorem settles_intoAll_intoAll {ws' : List Write} {line' : Nat} {rs : List Property}
    (hws : ∀ w ∈ ws, w.Typed) (hws' : ∀ w ∈ ws', w.Typed) (h : intoAll line ws [] = .ok qs)
    (h' : intoAll line' ws' qs = .ok rs) (q : Path) : Settles (ws ++ ws') q (leaf? q rs) := by
  have hfirst : (writesAt q ws).foldlM settle none = .ok (leaf? q qs) := settles_intoAll hws h q
  have hlevel := typedLevel_intoAll (typedLevel_nil []) hws h
  unfold Settles
  rw [writesAt_append, List.foldlM_append, hfirst]
  exact leaf?_intoAll hlevel hws' h' q

/-- A write leaves a leaf in its place. -/
theorem isSome_of_settle {old new : Option Value} (h : settle old w = .ok new) :
    new.isSome = true := by
  obtain ⟨v, -, rfl⟩ := Property.map_eq_ok h
  rfl

theorem isSome_of_foldlM_settle {old new : Option Value}
    (h : (w :: ws).foldlM settle old = .ok new) : new.isSome = true := by
  rw [List.foldlM_cons] at h
  obtain ⟨first, hfirst, h⟩ := bind_eq_ok h
  exact foldlM_keeps (P := fun new => new.isSome = true) (fun _ _ _ _ _ hs => isSome_of_settle hs)
    (isSome_of_settle hfirst) h

/-- **There are leaves where something is written**, and nowhere else. -/
theorem Settles.isSome_iff {leaf : Option Value} (h : Settles ws q leaf) :
    leaf.isSome = true ↔ q ∈ ws.map Write.target := by
  unfold Settles at h
  rw [← not_iff_not, ← writesAt_eq_nil_iff]
  cases hat : writesAt q ws with
  | nil =>
    rw [hat] at h
    cases h
    simp
  | cons first rest =>
    rw [hat] at h
    simp [isSome_of_foldlM_settle h]

theorem Settles.eq {leaf leaf' : Option Value} (h : Settles ws q leaf) (h' : Settles ws q leaf') :
    leaf = leaf' :=
  Except.ok.inj (h.symm.trans h')

/-! ## Writes into the open module -/

/-- The writes of an assignment are writes into the tree of the open module. -/
theorem State.foldlM_write {s : State} {d : Draft} (hd : s.draft = some d) (ws : List Write) :
    ws.foldlM State.write s = (intoAll s.line ws d.properties).map fun properties =>
      { s with draft := some { d with properties } } := by
  induction ws generalizing s d with
  | nil =>
    change Except.ok s = .ok { s with draft := some d }
    rw [← hd]
  | cons w ws ih =>
    have hwrite : s.write w = (w.into s.line d.properties).map fun properties =>
        { s with draft := some { d with properties } } := by
      unfold State.write setProperty
      rw [hd]
      rfl
    unfold intoAll
    rw [List.foldlM_cons, List.foldlM_cons, hwrite]
    cases w.into s.line d.properties with
    | error cause => rfl
    | ok properties =>
      exact @ih { s with draft := some { d with properties } } { d with properties } rfl

end MakeBlueprint.Conversion
