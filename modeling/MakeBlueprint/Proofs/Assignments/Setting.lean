import Mathlib.Data.List.TakeWhile
import MakeBlueprint.Proofs.Assignments.InPlace
import MakeBlueprint.Proofs.Names
import MakeBlueprint.Proofs.Property.Levels

/-!
# Setting a property

A property is read behind a dotted path that is cut from the left, at every point, and it is set
behind one that is cut from the right, at its last point, and then at the points in front of it. The
two agree on the paths of properties (`ofDotted_dotted`, `cutLast_dotted`).

Setting goes down the tree in place (`State.setInPlace`). What it leaves behind obeys the laws of a
store: the new value is found behind its path (`Sets.get`), the rest is found as before
(`Sets.frame`), and every level keeps the order and the lines of what it has (`Sets.levels`,
`Sets.created`).

* `OpenTree`: the trees that a makefile leads to. They are well typed, so that no level is replaced
  by a property (`level?_behind_property`), and there are maps all the way to a property
  (`change_find?_of_update_error`).
* `Refuses`: the one thing that a value is refused for.
* `setProperty_laws`: **a property is set by the laws of a store, or the state is as it was**.
-/

namespace MakeBlueprint.Text

theorem split_of_forall_not {p : Char → Bool} {t : Text} (h : ∀ c ∈ t, p c = false) :
    split p t = [t] := by
  induction t with
  | nil => rfl
  | cons c t ih =>
    obtain ⟨hc, ht⟩ := List.forall_mem_cons.mp h
    rw [split, hc, ih ht]
    rfl

end MakeBlueprint.Text

namespace MakeBlueprint.Blueprint.Path

open Text (split_append_cons split_of_forall_not)

variable {name parents : Text} {path : Path}

/-! ## Dotted paths -/

/-- Where a dotted path is cut to set a property: into the names in front of its last point and the
name behind it. Without a point there is only a name. -/
def cutLast (t : Text) : Path × Text :=
  let name := (t.reverse.takeWhile fun c => c != '.').reverse
  match t.reverse.dropWhile fun c => c != '.' with
  | [] => ([], name)
  | _ :: parents => (ofDotted parents.reverse, name)

theorem dotted_singleton (name : Text) : dotted [name] = name := by
  unfold dotted Text.join
  exact List.intercalate_singleton

theorem dotted_cons_cons (first next : Text) (path : Path) :
    dotted (first :: next :: path) = first ++ '.' :: dotted (next :: path) := by
  unfold dotted Text.join
  rw [List.intercalate_cons_cons, List.append_assoc, List.singleton_append]

theorem dotted_concat (hpath : path ≠ []) (name : Text) :
    dotted (path ++ [name]) = dotted path ++ '.' :: name := by
  induction path with
  | nil => exact absurd rfl hpath
  | cons first path ih =>
    cases path with
    | nil =>
      rw [List.singleton_append, dotted_cons_cons, dotted_singleton, dotted_singleton]
    | cons next path =>
      have hrest : dotted (next :: (path ++ [name])) = dotted (next :: path) ++ '.' :: name :=
        ih (List.cons_ne_nil next path)
      rw [List.cons_append, List.cons_append, dotted_cons_cons, dotted_cons_cons, hrest,
        List.append_assoc, List.cons_append]

/-- **A dotted path is read back**, if there are no points in its names. -/
theorem ofDotted_dotted (hpath : path ≠ []) (h : ∀ name ∈ path, '.' ∉ name) :
    ofDotted (dotted path) = path := by
  have hsingle : ∀ {name : Text}, '.' ∉ name → ofDotted name = [name] := fun hname =>
    split_of_forall_not fun c hc => beq_eq_false_iff_ne.mpr (ne_of_mem_of_not_mem hc hname)
  induction path with
  | nil => exact absurd rfl hpath
  | cons first path ih =>
    obtain ⟨hfirst, hrest⟩ := List.forall_mem_cons.mp h
    cases path with
    | nil => rw [dotted_singleton, hsingle hfirst]
    | cons next path =>
      have hcut : ofDotted (first ++ '.' :: dotted (next :: path)) =
          ofDotted first ++ ofDotted (dotted (next :: path)) := split_append_cons rfl _ _
      rw [dotted_cons_cons, hcut, hsingle hfirst, ih (List.cons_ne_nil next path) hrest]
      rfl

theorem cutLast_append (hname : '.' ∉ name) (parents : Text) :
    cutLast (parents ++ '.' :: name) = (ofDotted parents, name) := by
  have hall : ∀ c ∈ name.reverse, (c != '.') = true := fun c hc =>
    bne_iff_ne.mpr (ne_of_mem_of_not_mem (List.mem_reverse.mp hc) hname)
  unfold cutLast
  rw [List.reverse_append, List.reverse_cons, List.append_assoc, List.singleton_append,
    List.takeWhile_append_of_pos hall, List.dropWhile_append_of_pos hall]
  simp

theorem cutLast_of_not_mem (hname : '.' ∉ name) : cutLast name = ([], name) := by
  have hall : ∀ c ∈ name.reverse, (c != '.') = true := fun c hc =>
    bne_iff_ne.mpr (ne_of_mem_of_not_mem (List.mem_reverse.mp hc) hname)
  unfold cutLast
  rw [List.takeWhile_eq_self_iff.mpr hall, List.dropWhile_eq_nil_iff.mpr hall,
    List.reverse_reverse]

/-- **A dotted path is cut where it was put together**, if there are no points in its names. -/
theorem cutLast_dotted (hname : '.' ∉ name) (hpath : ∀ level ∈ path, '.' ∉ level) :
    cutLast (dotted (path ++ [name])) = (path, name) := by
  by_cases hnil : path = []
  · have hdotted : dotted [name] = name := by simp [dotted, Text.join]
    rw [hnil, List.nil_append, hdotted, cutLast_of_not_mem hname]
  · rw [dotted_concat hnil, cutLast_append hname, ofDotted_dotted hnil hpath]

end MakeBlueprint.Blueprint.Path

namespace MakeBlueprint.Conversion

open Blueprint (Kind Path Property Value isIdentifier)
open Blueprint.Property (Extends change_named?_of_alter_error change_of_update find?
  find?_cons_of_map find?_cons_of_none find?_nil find?_update_of_disjoint keepsLevel_update level?
  level?_of_ne_nil settled)

variable {name : Text} {kind : Kind} {path q : Path} {value : Value} {append : Bool} {line : Nat}
  {ps qs : List Property} {options : Options} {source : Text}

theorem not_mem_of_isIdentifier (h : isIdentifier name = true) : '.' ∉ name := by
  intro hmem
  cases name with
  | nil => cases hmem
  | cons c t =>
    obtain ⟨hfirst, hrest⟩ := Bool.and_eq_true_iff.mp h
    rcases List.mem_cons.mp hmem with rfl | hmem
    · cases hfirst
    · cases List.all_eq_true.mp hrest '.' hmem

/-- There are no points in the names of properties, nor in those on the way to them. -/
theorem not_mem_of_mem_place (hpath : path ∈ propertyPaths)
    (hkind : propertyKind? name = some kind) : ∀ level ∈ path ++ [name], '.' ∉ level := by
  intro level hlevel
  apply not_mem_of_isIdentifier
  rcases List.mem_append.mp hlevel with hlevel | hlevel
  · exact isIdentifier_of_mem_path path hpath level hlevel
  · rw [List.mem_singleton.mp hlevel]
    exact isIdentifier_of_mem_propertyKinds _ (mem_of_lookup hkind)

/-! ## The trees of open modules -/

/-- **The property trees that a makefile leads to**, between two statements and between two writes
of one statement. -/
inductive OpenTree (options : Options) (source : Text) : List Property → Prop
  | between {s : State} {d : Draft} (hs : s.Reachable options source) (hd : s.draft = some d) :
      OpenTree options source d.properties
  | write {w : Write} {line : Nat} {ps qs : List Property} (h : OpenTree options source ps)
      (hw : w.Typed) (hqs : w.into line ps = .ok qs) : OpenTree options source qs

theorem OpenTree.typed (h : OpenTree options source ps) : TypedLevel [] ps := by
  induction h with
  | between hs hd =>
    obtain ⟨sts, rfl⟩ := hs
    exact (State.sound_run (State.sound_start sts)).draft _ hd
  | write h hw hqs ih => exact typedLevel_into ih hw hqs

/-- There are no levels at a property and behind it. -/
theorem level?_behind_property (hps : TypedLevel [] ps) (hkind : propertyKind? name = some kind)
    (hq : path ++ [name] <+: q) : level? q ps = none := by
  obtain ⟨rest, rfl⟩ := hq
  have hnone : ∀ p, find? (path ++ [name] ++ rest) ps = some p → p.value.asMap? = none := by
    intro p hp
    rcases List.eq_nil_or_concat rest with rfl | ⟨init, last, rfl⟩
    · rw [List.append_nil] at hp
      have hh := hps.has_of_find? hkind hp
      cases hv : p.value with
      | map inner =>
        rw [hv] at hh
        exact absurd hh.2.symm (kind_ne_map_of_propertyKind? hkind)
      | _ => rfl
    · have hmem : name ∈ path ++ [name] ++ init := by simp
      rw [List.concat_eq_append, ← List.append_assoc,
        find?_behind_property hps hmem hkind last] at hp
      cases hp
  rw [level?_of_ne_nil (by simp)]
  exact Option.bind_eq_none_iff.mpr hnone

/-! ## Setting -/

/-- **The laws of a store**: a tree after a value was set behind a dotted path, from some line. -/
structure Sets (line : Nat) (p : Text) (value : Value) (append : Bool) (old new : List Property) :
    Prop where
  /-- The value is found that was set. -/
  get : append = false ∨ find? (Path.ofDotted p) old = none →
    ∃ property, find? (Path.ofDotted p) new = some property ∧ property.value = value
  /-- When the value is appended to another, their sum is found. -/
  getSum : ∀ before, append = true → find? (Path.ofDotted p) old = some before →
    ∃ property, find? (Path.ofDotted p) new = some property ∧
      add before.value value = .ok property.value
  /-- What is neither at the path nor on the way to it nor behind it is found as before. -/
  frame : ∀ q, ¬ q <+: Path.ofDotted p → ¬ Path.ofDotted p <+: q → find? q new = find? q old
  /-- Every level is still there, with the order and the lines of its properties. -/
  levels : ∀ q before, level? q old = some before →
    ∃ after, level? q new = some after ∧ Extends line before after
  /-- A new level has nothing but a new property, if it is not a level of the value. -/
  created : ∀ q after, ¬ Path.ofDotted p <+: q → level? q old = none → level? q new = some after →
    Extends line [] after

theorem ofDotted_place (hpath : path ∈ propertyPaths) (hkind : propertyKind? name = some kind) :
    Path.ofDotted (Path.dotted (path ++ [name])) = path ++ [name] :=
  Path.ofDotted_dotted (by simp) (not_mem_of_mem_place hpath hkind)

theorem eq_of_changed {old : Option Value} {v : Value}
    (h : State.changed append value old = .ok v) (hnew : append = false ∨ old = none) :
    v = value := by
  rcases hnew with rfl | rfl
  · cases old <;> exact (Except.ok.inj h).symm
  · exact (Except.ok.inj h).symm

/-- **A change of a well-typed tree obeys the laws of a store**, whatever the value is. -/
theorem sets_update {notAMap : Text → Refusal} (hps : TypedLevel [] ps)
    (hpath : path ∈ propertyPaths) (hkind : propertyKind? name = some kind)
    (h : Property.update line notAMap name (State.changed append value) path ps = .ok qs) :
    Sets line (Path.dotted (path ++ [name])) value append ps qs := by
  have hread := ofDotted_place hpath hkind
  obtain ⟨v, at', hv, hfind⟩ := change_of_update h
  constructor
  · intro hnew
    rw [hread] at hnew ⊢
    exact ⟨_, hfind, eq_of_changed hv (hnew.imp_right fun hnone => by rw [hnone, Option.map_none])⟩
  · rintro before rfl hbefore
    rw [hread] at hbefore ⊢
    rw [hbefore] at hv
    exact ⟨_, hfind, changed_append_iff.mp hv⟩
  · intro q hto hfrom
    rw [hread] at hto hfrom
    exact find?_update_of_disjoint h hto hfrom
  · intro q before hbefore
    have hbeside : ¬ path ++ [name] <+: q := fun hq => by
      rw [level?_behind_property hps hkind hq] at hbefore
      cases hbefore
    have hkeeps := keepsLevel_update h hbeside
    rw [hbefore] at hkeeps
    obtain ⟨after, hafter⟩ := Option.isSome_iff_exists.mp (hkeeps.isSome rfl)
    exact ⟨after, hafter, hkeeps.order after hafter⟩
  · intro q after hbeside hnone hafter
    rw [hread] at hbeside
    have hkeeps := keepsLevel_update h hbeside
    rw [hnone] at hkeeps
    exact hkeeps.order after hafter

/-- A change of a well-typed tree is only refused because the change refuses what is found there:
there are maps all the way to it. -/
theorem change_find?_of_update_error {change : Option Value → Except Refusal Value}
    {cause : Refusal} (hps : TypedLevel q ps) (hpath : q ++ path ∈ propertyPaths)
    (h : Property.update line .notAMap name change path ps = .error cause) :
    change ((find? (path ++ [name]) ps).map Property.value) = .error cause := by
  induction path generalizing q ps with
  | nil => exact change_named?_of_alter_error h
  | cons level path ih =>
    have hto : ∃ r ∈ propertyPaths, q ++ [level] <+: r :=
      ⟨_, hpath, path, List.append_cons q level path ▸ rfl⟩
    rw [List.append_cons] at hpath
    have hrefused := change_named?_of_alter_error h
    rw [List.cons_append]
    cases hp : Property.named? level ps with
    | none =>
      rw [hp] at hrefused
      have hinner := ih (typedLevel_nil _) hpath (map_eq_error hrefused)
      rw [find?_nil] at hinner
      rwa [find?_cons_of_none hp]
    | some p =>
      obtain rfl : p.name = level := by simpa using List.find?_some hp
      obtain ⟨inner, hinner, htyped⟩ :=
        (hps.typed p (List.mem_of_find?_eq_some hp)).level_of_path hto
      rw [hp, Option.map_some, hinner] at hrefused
      rw [find?_cons_of_map hp hinner (by simp)]
      exact ih htyped hpath (map_eq_error hrefused)

/-- **What a value is refused for**: it is appended to another one, and they have no sum. -/
structure Refuses (p : Text) (value : Value) (append : Bool) (old : List Property)
    (cause : Refusal) : Prop where
  append_eq : append = true
  noSum : ∃ before refusal, find? (Path.ofDotted p) old = some before ∧
    add before.value value = .error refusal ∧ cause = .unsupportedAddition refusal

theorem refuses_of_changed {old : List Property} {p : Text} {cause : Refusal}
    (h : State.changed append value ((find? (Path.ofDotted p) old).map Property.value) =
      .error cause) : Refuses p value append old cause := by
  cases hp : find? (Path.ofDotted p) old with
  | none =>
    rw [hp] at h
    cases h
  | some before =>
    rw [hp] at h
    cases append with
    | false => cases h
    | true =>
      change (add before.value value).mapError Refusal.unsupportedAddition = .error cause at h
      cases hadd : add before.value value with
      | ok sum =>
        rw [hadd] at h
        cases h
      | error refusal =>
        rw [hadd] at h
        exact ⟨rfl, before, refusal, hp, hadd, (Except.error.inj h).symm⟩

namespace State

variable {s : State} {d : Draft}

/-- Sets a property of the open module in place, behind a dotted path. -/
def setInPlace (s : State) (p : Text) (value : Value) (append : Bool) : State × Option Refusal :=
  s.writeInPlace ⟨(Path.cutLast p).1, (Path.cutLast p).2, value, append⟩

theorem setInPlace_dotted (hpath : path ∈ propertyPaths) (hkind : propertyKind? name = some kind)
    (s : State) (value : Value) (append : Bool) :
    s.setInPlace (Path.dotted (path ++ [name])) value append =
      settled s (s.setProperty path name value append) := by
  obtain ⟨hlevels, hname⟩ := List.forall_mem_append.mp (not_mem_of_mem_place hpath hkind)
  have hcut : Path.cutLast (Path.dotted (path ++ [name])) = (path, name) :=
    Path.cutLast_dotted (hname name (List.mem_singleton_self name)) hlevels
  unfold setInPlace
  rw [hcut]
  exact writeInPlace_eq s ⟨path, name, value, append⟩

/-- **A property is set by the laws of a store, or the state is as it was**, and then the old value
and the new one have no sum. The tree is one that a makefile leads to, the path is one of a
property, and the value and the current line are arbitrary. -/
theorem setProperty_laws (hd : s.draft = some d) (htree : OpenTree options source d.properties)
    (hpath : path ∈ propertyPaths) (hkind : propertyKind? name = some kind) (value : Value)
    (append : Bool) :
    (∃ properties,
      s.setProperty path name value append =
        .ok { s with draft := some { d with properties } } ∧
      s.setInPlace (Path.dotted (path ++ [name])) value append =
        ({ s with draft := some { d with properties } }, none) ∧
      Sets s.line (Path.dotted (path ++ [name])) value append d.properties properties) ∨
    ∃ cause,
      s.setProperty path name value append = .error cause ∧
      s.setInPlace (Path.dotted (path ++ [name])) value append = (s, some cause) ∧
      Refuses (Path.dotted (path ++ [name])) value append d.properties cause := by
  rw [setInPlace_dotted hpath hkind]
  cases h : s.setProperty path name value append with
  | error cause =>
    refine .inr ⟨cause, rfl, rfl, refuses_of_changed ?_⟩
    unfold setProperty at h
    rw [hd] at h
    rw [ofDotted_place hpath hkind]
    exact change_find?_of_update_error htree.typed hpath (map_eq_error h)
  | ok t =>
    obtain ⟨e, properties, he, hproperties, rfl⟩ := setProperty_eq_ok h
    obtain rfl : d = e := Option.some.inj (hd.symm.trans he)
    exact .inl ⟨properties, rfl, rfl, sets_update htree.typed hpath hkind hproperties⟩

/-- A flag is added to those of one architecture. -/
theorem setProperty_laws_cflags :
    let path : Path := ["arch", "arm"]
    let s := justBegun.step {} [] (assigned "LOCAL_CFLAGS_arm" .simple (.ofText "-a"))
    let value := Value.list [.string "-b"]
    ∃ d properties, s.draft = some d ∧ OpenTree {} [] d.properties ∧ path ∈ propertyPaths ∧
      propertyKind? ("cflags" : String) = some .list ∧
      s.setProperty path ("cflags" : String) value true =
        .ok { s with draft := some { d with properties } } ∧
      s.setInPlace ("arch.arm.cflags" : String) value true =
        ({ s with draft := some { d with properties } }, none) ∧
      Sets s.line ("arch.arm.cflags" : String) value true d.properties properties := by
  intro path s value
  have hs : Reachable {} [] s :=
    ⟨[beginning, assigned "LOCAL_CFLAGS_arm" .simple (.ofText "-a")], rfl⟩
  have hd : s.draft = some _ := rfl
  have hpath : path ∈ propertyPaths := by decide
  have hkind : propertyKind? ("cflags" : String) = some .list := by decide
  rcases setProperty_laws hd (.between hs hd) hpath hkind value true with
    ⟨properties, hset, hplace, hlaws⟩ | ⟨cause, hrefused, -, -⟩
  · exact ⟨_, properties, hd, .between hs hd, hpath, hkind, hset, hplace, hlaws⟩
  · cases hrefused

end State

end MakeBlueprint.Conversion
