import MakeBlueprint.Proofs.Assignments.Gathering

/-!
# When appending is like assigning at once

In make a variable that is set to one text and added to has the joined text as its value. The module
then says the same as after the one assignment of the joined text, up to the nesting of sums and the
order of list items, for all variables whose places do not depend on their values.

* `rel_stem_iff`: the name of an output may become a suffix by itself and not with the rest, or the
  other way round.
* `rel_hostOs_iff`: host systems are always assigned and never appended.
* `added_to_assigned`: the whole, for assignments in a module that has just begun.
-/

namespace MakeBlueprint.Conversion

open Blueprint (Path Property Value)
open Blueprint.Property (AlikeUpTo isSome_eq_of_rel leaf? rel_refl)
open Blueprint.Value (SameContent sameContent_refl)
open Makefile (Phrase Scope Statement)

variable {scope : Scope} {name : Text} {path q : Path} {ws ws' ws'' : List Write}
  {v v' v'' : Value} {a b : Phrase.Body} {leaves leaves' : Path → Option Value}

/-! ## Names of outputs -/

section Stems

/-- A name that becomes a suffix loses the name of the module. -/
theorem stemProperty_cases (v : Value) :
    State.stemProperty v = ("stem".toList, v) ∨
      (State.stemProperty v).1 = "suffix".toList ∧
        v.content.length = (State.stemProperty v).2.content.length + 1 := by
  unfold State.stemProperty
  split
  · next var varKind right sumKind =>
    split
    · exact Or.inr ⟨rfl, by simp [Value.content]⟩
    · exact Or.inl rfl
  · exact Or.inl rfl

theorem stemProperty_of_name (h : (State.stemProperty v).1 = "stem".toList) :
    State.stemProperty v = ("stem".toList, v) := by
  rcases stemProperty_cases v with hv | ⟨hname, -⟩
  · exact hv
  · rw [h] at hname
    exact absurd hname (by decide)

/-- The write of the name of an output. -/
def stemWrite (path : Path) (v : Value) (append : Bool) : Write :=
  ⟨path, (State.stemProperty v).1, (State.stemProperty v).2, append⟩

/-- **The name of an output is gathered** exactly when neither part of it nor the whole becomes a
suffix. -/
theorem rel_stem_iff (hws : ∀ w ∈ [stemWrite path v false, stemWrite path v' true], w.Typed)
    (hws'' : ∀ w ∈ [stemWrite path v'' false], w.Typed)
    (hcontent : v''.content = v.content ++ v'.content)
    (h : ∀ q, Settles [stemWrite path v false, stemWrite path v' true] q (leaves q))
    (h'' : ∀ q, Settles [stemWrite path v'' false] q (leaves' q)) :
    (∀ q, Option.Rel SameContent (leaves q) (leaves' q)) ↔
      ∀ x ∈ [v, v', v''], (State.stemProperty x).1 = "stem".toList := by
  constructor
  · intro hrel
    have hplaces : ∀ q, q ∈ [stemWrite path v false, stemWrite path v' true].map Write.target ↔
        q ∈ [stemWrite path v'' false].map Write.target := by
      intro q
      rw [← (h q).isSome_iff, ← (h'' q).isSome_iff, isSome_eq_of_rel (hrel q)]
    have hname : (State.stemProperty v).1 = (State.stemProperty v'').1 := by
      have hplace := (hplaces (stemWrite path v false).target).mp (by simp)
      simpa [stemWrite, Write.target] using hplace
    have hname' : (State.stemProperty v').1 = (State.stemProperty v'').1 := by
      have hplace := (hplaces (stemWrite path v' true).target).mp (by simp)
      simpa [stemWrite, Write.target] using hplace
    rcases stemProperty_cases v'' with hstem | ⟨hsuffix, hlength⟩
    · intro x hx
      have hx : x = v ∨ x = v' ∨ x = v'' := by simpa using hx
      rcases hx with rfl | rfl | rfl
      · rw [hname, hstem]
      · rw [hname', hstem]
      · rw [hstem]
    · -- Two suffixes were gathered, but the whole has the name of the module in its middle.
      exfalso
      have hne : "stem".toList ≠ "suffix".toList := by decide
      have hparts : ∀ x, (State.stemProperty x).1 = (State.stemProperty v'').1 →
          x.content.length = (State.stemProperty x).2.content.length + 1 := by
        intro x hx
        rcases stemProperty_cases x with hstem | ⟨-, hx⟩
        · rw [hstem, hsuffix] at hx
          exact absurd hx hne
        · exact hx
      have hq := h (path ++ [(State.stemProperty v'').1])
      unfold stemWrite at hws hq
      rw [hname, hname'] at hws hq
      have hgathered := length_of_rel_single hws hws'' hq (h'' _) (hrel _)
      have hall := congrArg List.length hcontent
      rw [List.length_append, hlength, hparts v hname, hparts v' hname'] at hall
      omega
  · intro hstems q
    have hv := stemProperty_of_name (hstems v (by simp))
    have hv' := stemProperty_of_name (hstems v' (by simp))
    have hv'' := stemProperty_of_name (hstems v'' (by simp))
    unfold stemWrite at hws hws'' h h''
    rw [hv, hv'] at hws
    rw [hv''] at hws''
    have hq := h q
    have hq'' := h'' q
    rw [hv, hv'] at hq
    rw [hv''] at hq''
    exact rel_of_single hws hws'' hcontent hq hq''

end Stems

/-! ## Host systems -/

section HostSystems

variable {items items' : List Value}

/-- The place of the switch for a host system. -/
def switchPlace (system : Text) : Path := ["target", system, State.enabledName]

/-- **The switch of a module that is for some host systems.** -/
def hostSwitch (items : List Value) (q : Path) : Option Value :=
  if q = switchPlace "windows" then
    if State.lists items "windows" then some (.bool true) else none
  else if q = switchPlace "linux" then
    if State.lists items "linux" then none else some (.bool false)
  else if q = switchPlace "darwin" then
    if State.lists items "darwin" then none else some (.bool false)
  else none

theorem writesAt_enabledWrite (system : Text) (on : Bool) :
    writesAt q [enabledWrite system on] =
      if q = switchPlace system then [enabledWrite system on] else [] := by
  have htarget : (enabledWrite system on).target = switchPlace system := rfl
  unfold writesAt
  by_cases hq : q = switchPlace system
  · rw [if_pos hq, List.filter_cons_of_pos (by rw [htarget, hq]; exact beq_self_eq_true _)]
    rfl
  · rw [if_neg hq, List.filter_cons_of_neg (by rw [htarget, beq_iff_eq]; exact Ne.symm hq)]
    rfl

theorem settles_hostWrites (items : List Value) (q : Path) :
    Settles (hostWrites items) q (hostSwitch items q) := by
  have hlinux : switchPlace "linux" ≠ switchPlace "windows" := by decide
  have hdarwin : switchPlace "darwin" ≠ switchPlace "windows" := by decide
  have hother : switchPlace "darwin" ≠ switchPlace "linux" := by decide
  have hnone : writesAt q [] = [] := rfl
  unfold Settles hostWrites hostSwitch
  rw [writesAt_append, writesAt_append, apply_ite (writesAt q), apply_ite (writesAt q),
    apply_ite (writesAt q), writesAt_enabledWrite, writesAt_enabledWrite, writesAt_enabledWrite,
    hnone]
  by_cases hw : q = switchPlace "windows"
  · simp only [hw, hlinux.symm, hdarwin.symm, if_true, if_false, ite_self, List.append_nil]
    cases State.lists items "windows" <;> rfl
  · by_cases hl : q = switchPlace "linux"
    · simp only [hl, hlinux, hother.symm, if_true, if_false, ite_self, List.append_nil,
        List.nil_append]
      cases State.lists items "linux" <;> rfl
    · by_cases hd : q = switchPlace "darwin"
      · simp only [hd, hdarwin, hother, if_true, if_false, ite_self, List.nil_append]
        cases State.lists items "darwin" <;> rfl
      · simp only [hw, hl, hd, if_false, ite_self, List.append_nil]
        rfl

theorem lists_append (system : Text) :
    State.lists (items ++ items') system =
      (State.lists items system || State.lists items' system) :=
  List.any_append

/-- **Host systems are appended** exactly when both parts say the same of Linux and of Darwin. -/
theorem rel_hostOs_iff (h : ∀ q, Settles (hostWrites items ++ hostWrites items') q (leaves q))
    (h'' : ∀ q, Settles (hostWrites (items ++ items')) q (leaves' q)) :
    (∀ q, Option.Rel SameContent (leaves q) (leaves' q)) ↔
      ∀ system ∈ [("linux" : Text), "darwin"],
        State.lists items system = State.lists items' system := by
  have hreplaces : Replaces (hostWrites items') :=
    replaces_of_all fun w hw => append_of_mem_hostWrites hw
  have hleaf : ∀ q, leaves q = (hostSwitch items' q).or (hostSwitch items q) := fun q =>
    (h q).replacing hreplaces (settles_hostWrites items q) (settles_hostWrites items' q)
  have hleaf' : ∀ q, leaves' q = hostSwitch (items ++ items') q := fun q =>
    (h'' q).eq (settles_hostWrites _ q)
  have hlinux : switchPlace "linux" ≠ switchPlace "windows" := by decide
  have hdarwin : switchPlace "darwin" ≠ switchPlace "windows" := by decide
  have hother : switchPlace "darwin" ≠ switchPlace "linux" := by decide
  constructor
  · intro hrel system hsystem
    have hsame := isSome_eq_of_rel (hrel (switchPlace system))
    rw [hleaf, hleaf'] at hsame
    unfold hostSwitch at hsame
    rcases List.mem_cons.mp hsystem with rfl | hsystem
    · simp only [hlinux, if_true, if_false, lists_append] at hsame
      revert hsame
      cases State.lists items "linux" <;> cases State.lists items' "linux" <;> decide
    · rw [List.mem_singleton.mp hsystem] at hsame ⊢
      simp only [hdarwin, hother, if_true, if_false, lists_append] at hsame
      revert hsame
      cases State.lists items "darwin" <;> cases State.lists items' "darwin" <;> decide
  · intro hsame q
    have hl := hsame "linux" (by simp)
    have hd := hsame "darwin" (by simp)
    have heq : leaves q = leaves' q := by
      rw [hleaf, hleaf']
      unfold hostSwitch
      rw [lists_append, lists_append, lists_append, hl, hd, Bool.or_self, Bool.or_self]
      split
      · cases State.lists items "windows" <;> cases State.lists items' "windows" <;> rfl
      · split
        · exact Option.or_self
        · split
          · exact Option.or_self
          · rfl
    rw [heq]
    exact rel_refl sameContent_refl _

end HostSystems

/-! ## All variables -/

/-- **The value in make of a variable that is assigned one text and added another**: a blank stands
between the texts of a list. -/
def joined (blank : Char) (meaning : Meaning) (a b : Phrase.Body) : Phrase.Body :=
  match meaning with
  | .property _ .list | .special .localIncludeDirs | .special .exportIncludeDirs
  | .special .hostOs => a ++ .char blank b
  | _ => a ++ b

/-- **Two texts are appended as in make.** The name of an output must not become a suffix, and of
the host systems both texts have to say the same of Linux and of Darwin. -/
def AppendsAsMake (scope : Scope) (meaning : Meaning) (a b : Phrase.Body) : Prop :=
  match meaning with
  | .special .stem => ∀ body ∈ [a, b, a ++ b], ∀ v, coerceString scope body = .ok v →
      (State.stemProperty v).1 = "stem".toList
  | .special .hostOs => ∀ system ∈ [("linux" : Text), "darwin"], ∀ items items',
      coerceList scope a = .ok (.list items) → coerceList scope b = .ok (.list items') →
        State.lists items system = State.lists items' system
  | _ => True

variable {blank : Char}

/-- **The writes of a variable that is assigned one text and added another**, and of the joined
text: both are there, and they say the same exactly when the texts are appended as in make. -/
structure Joins (scope : Scope) (name : Text) (path : Path) (blank : Char) (a b : Phrase.Body)
    (ws ws' ws'' : List Write) : Prop where
  added : writes scope name path b true = .ok ws'
  whole : writes scope name path (joined blank (Meaning.ofName name) a b) false = .ok ws''
  same : ∀ leaves leaves' : Path → Option Value, (∀ q, Settles (ws ++ ws') q (leaves q)) →
    (∀ q, Settles ws'' q (leaves' q)) →
      ((∀ q, Option.Rel SameContent (leaves q) (leaves' q)) ↔
        AppendsAsMake scope (Meaning.ofName name) a b)

/-- The writes of two texts can be joined. -/
def CanJoin (scope : Scope) (name : Text) (path : Path) (blank : Char) (a b : Phrase.Body) : Prop :=
  ∀ ws wsb, writes scope name path a false = .ok ws → writes scope name path b false = .ok wsb →
    ∃ ws' ws'', Joins scope name path blank a b ws ws' ws''

theorem typed_append (hws : ∀ w ∈ ws, w.Typed) (hws' : ∀ w ∈ ws', w.Typed) :
    ∀ w ∈ ws ++ ws', w.Typed :=
  fun w hw => (List.mem_append.mp hw).elim (hws w) (hws' w)

/-- A variable that becomes one property. -/
theorem canJoin_of_single (place : Path) (property : Text) (hpath : path ∈ propertyPaths)
    (coerceTo : Phrase.Body → Except Refusal Value)
    (hwrites : ∀ body append, writes scope name path body append =
      (coerceTo body).map fun v => [⟨place, property, v, append⟩])
    (hjoined : ∀ v v', coerceTo a = .ok v → coerceTo b = .ok v' →
      ∃ v'', coerceTo (joined blank (Meaning.ofName name) a b) = .ok v'' ∧
        v''.content = v.content ++ v'.content)
    (happends : AppendsAsMake scope (Meaning.ofName name) a b) :
    CanJoin scope name path blank a b := by
  intro ws wsb h hb
  rw [hwrites] at h hb
  obtain ⟨v, hv, rfl⟩ := Property.map_eq_ok h
  obtain ⟨v', hv', rfl⟩ := Property.map_eq_ok hb
  obtain ⟨v'', hv'', hcontent⟩ := hjoined v v' hv hv'
  have hok : ∀ {body v} append, coerceTo body = .ok v →
      writes scope name path body append = .ok [⟨place, property, v, append⟩] := by
    intro body v append hv
    rw [hwrites, hv]
    rfl
  refine ⟨_, _, hok true hv', hok false hv'', fun leaves leaves' hs hs' =>
    ⟨fun _ => happends, fun _ q => ?_⟩⟩
  exact rel_of_single (typed_append (typed_of_writes hpath (hok false hv))
    (typed_of_writes hpath (hok true hv'))) (typed_of_writes hpath (hok false hv'')) hcontent
    (hs q) (hs' q)

/-- A variable for directories. -/
theorem canJoin_of_directories (ownName othersName : Text) (adds : Bool → Value → Bool)
    (hblank : Text.isBlank blank = true) (hpath : path ∈ propertyPaths)
    (hwrites : ∀ body append, writes scope name path body append =
      coerceList scope body >>= fun value => partition value >>= fun parts =>
        .ok (directoryWrites path ownName othersName parts.1 parts.2 append
          (adds append parts.1)))
    (hadds : ∀ own, ownName = othersName → isEmptyList own = false → adds false own = true)
    (hadds' : ∀ own, adds true own = true)
    (hjoined : joined blank (Meaning.ofName name) a b = a ++ .char blank b)
    (happends : AppendsAsMake scope (Meaning.ofName name) a b) :
    CanJoin scope name path blank a b := by
  intro ws wsb h hb
  rw [hwrites] at h hb
  obtain ⟨v, hv, h⟩ := bind_eq_ok h
  obtain ⟨⟨own, others⟩, hparts, h⟩ := bind_eq_ok h
  obtain ⟨v', hv', hb⟩ := bind_eq_ok hb
  obtain ⟨⟨own', others'⟩, hparts', hb⟩ := bind_eq_ok hb
  cases h
  obtain ⟨v'', hv'', hcontent⟩ := exists_coerceList_append hblank hv hv'
  obtain ⟨own'', others'', hparts'', -, -⟩ := exists_partition_of_coerceList hv''
  have hok : ∀ {body v own others} append, coerceList scope body = .ok v →
      partition v = .ok (own, others) → writes scope name path body append =
        .ok (directoryWrites path ownName othersName own others append (adds append own)) := by
    intro body v own others append hv hparts
    rw [hwrites, hv]
    change (partition v >>= _) = _
    rw [hparts]
    rfl
  have htyped := typed_of_writes hpath (hok false hv hparts)
  have htyped' := typed_of_writes hpath (hok true hv' hparts')
  refine ⟨_, _, hok true hv' hparts', by rw [hjoined]; exact hok false hv'' hparts'',
    fun leaves leaves' hs hs' => ⟨fun _ => happends, fun _ q => ?_⟩⟩
  have hq := hs q
  rw [hadds'] at hq htyped'
  exact rel_of_directories (typed_append htyped htyped')
    (typed_of_writes hpath (hok false hv'' hparts'')) (hadds own) (hadds own'')
    (parts_of_partition (has_coerceList hv) hparts)
    (parts_of_partition (has_coerceList hv') hparts')
    (parts_of_partition (has_coerceList hv'') hparts'') hcontent hq (hs' q)

/-- The name of an output. -/
theorem canJoin_of_stem (hpath : path ∈ propertyPaths)
    (hm : Meaning.ofName name = .special .stem) : CanJoin scope name path blank a b := by
  have hok : ∀ {body v} append, coerceString scope body = .ok v →
      writes scope name path body append = .ok [stemWrite path v append] := by
    intro body v append hv
    exact writes_eq_ok_iff.mpr (.stem v hm hv)
  have hvalue : ∀ {body ws}, writes scope name path body false = .ok ws →
      ∃ v, coerceString scope body = .ok v ∧ ws = [stemWrite path v false] := by
    intro body ws hws
    unfold writes at hws
    rw [hm] at hws
    obtain ⟨v, hv, hws⟩ := bind_eq_ok hws
    cases hws
    exact ⟨v, hv, rfl⟩
  intro ws wsb h hb
  obtain ⟨v, hv, rfl⟩ := hvalue h
  obtain ⟨v', hv', -⟩ := hvalue hb
  obtain ⟨v'', hv'', hcontent⟩ := exists_coerceString_append hv hv'
  refine ⟨_, _, hok true hv', by rw [hm]; exact hok false hv'', fun leaves leaves' hs hs' => ?_⟩
  rw [hm]
  refine (rel_stem_iff (typed_append (typed_of_writes hpath (hok false hv))
    (typed_of_writes hpath (hok true hv'))) (typed_of_writes hpath (hok false hv'')) hcontent
    hs hs').trans ?_
  have hvalues : ∀ {body v}, coerceString scope body = .ok v →
      ((∀ x, coerceString scope body = .ok x → (State.stemProperty x).1 = "stem".toList) ↔
        (State.stemProperty v).1 = "stem".toList) := by
    intro body v hv
    refine ⟨fun hall => hall v hv, fun hname x hx => ?_⟩
    cases hv.symm.trans hx
    exact hname
  simp only [AppendsAsMake, List.forall_mem_cons, List.not_mem_nil, false_implies, implies_true,
    hvalues hv, hvalues hv', hvalues hv'']

/-- The host systems. -/
theorem canJoin_of_hostOs (hblank : Text.isBlank blank = true)
    (hm : Meaning.ofName name = .special .hostOs) : CanJoin scope name path blank a b := by
  have hok : ∀ {body items} append, coerceList scope body = .ok (.list items) →
      writes scope name path body append = .ok (hostWrites items) := by
    intro body items append hv
    exact writes_eq_ok_iff.mpr (.hostOs items hm hv)
  have hitems : ∀ {body ws}, writes scope name path body false = .ok ws →
      ∃ items, coerceList scope body = .ok (.list items) ∧ ws = hostWrites items := by
    intro body ws hws
    unfold writes at hws
    rw [hm] at hws
    obtain ⟨value, hv, hws⟩ := bind_eq_ok hws
    cases value with
    | list items =>
      cases hws
      exact ⟨items, hv, rfl⟩
    | _ => cases hws
  intro ws wsb h hb
  obtain ⟨items, hv, rfl⟩ := hitems h
  obtain ⟨items', hv', -⟩ := hitems hb
  have hv'' := coerceList_append_of_lists hblank hv hv'
  refine ⟨_, _, hok true hv', by rw [hm]; exact hok false hv'', fun leaves leaves' hs hs' => ?_⟩
  rw [hm]
  refine (rel_hostOs_iff hs hs').trans ⟨fun hsame system hsystem is is' his his' => ?_,
    fun hsame system hsystem => hsame system hsystem items items' hv hv'⟩
  cases hv.symm.trans his
  cases hv'.symm.trans his'
  exact hsame system hsystem

/-- **Every variable that is no boolean** can be assigned one text and added another. -/
theorem canJoin (hblank : Text.isBlank blank = true) (hpath : path ∈ propertyPaths)
    (hbool : ∀ property, Meaning.ofName name ≠ .property property .bool) :
    CanJoin scope name path blank a b := by
  cases hm : Meaning.ofName name with
  | dropped =>
    have hok : ∀ body append, writes scope name path body append = .ok [] := by
      intro body append
      unfold writes
      rw [hm]
    intro ws wsb h hb
    rw [hok] at h
    cases h
    refine ⟨[], [], hok b true, hok _ false, fun leaves leaves' hs hs' => ?_⟩
    rw [hm]
    refine ⟨fun _ => trivial, fun _ q => ?_⟩
    rw [(hs q).eq (hs' q)]
    exact rel_refl sameContent_refl _
  | armMode =>
    refine canJoin_of_single armPath armModeProperty hpath
      (coerceString scope) (fun body append => ?_) (fun v v' hv hv' => ?_) (by rw [hm]; trivial)
    · unfold writes
      rw [hm]
      cases coerceString scope body <;> rfl
    · rw [hm]
      exact exists_coerceString_append hv hv'
  | property property kind =>
    refine canJoin_of_single path property hpath
      (coerce scope kind) (fun body append => ?_) (fun v v' hv hv' => ?_) (by rw [hm]; trivial)
    · unfold writes
      rw [hm]
      simp only [bind, Except.bind, Except.map]
    · rw [hm]
      cases kind with
      | string => exact exists_coerceString_append hv hv'
      | list => exact exists_coerceList_append hblank hv hv'
      | bool => exact absurd hm (hbool property)
      | map =>
        exact absurd rfl (kind_ne_map_of_mem_standardProperties _ (mem_of_ofName_property hm))
  | special special =>
    cases special with
    | localIncludeDirs =>
      refine canJoin_of_directories "local_include_dirs" "include_dirs" (fun append _ => append)
        hblank hpath (fun body append => ?_) (fun own he => ?_) (fun own => rfl)
        (by rw [hm]; rfl) (by rw [hm]; trivial)
      · unfold writes
        rw [hm]
        rfl
      · exact absurd he (by decide)
    | exportIncludeDirs =>
      refine canJoin_of_directories "export_include_dirs" "export_include_dirs"
        (fun append own => append || !isEmptyList own)
        hblank hpath (fun body append => ?_) (fun own _ he => ?_) (fun own => rfl)
        (by rw [hm]; rfl) (by rw [hm]; trivial)
      · unfold writes
        rw [hm]
        rfl
      · simp [he]
    | stem => exact canJoin_of_stem hpath hm
    | hostOs => exact canJoin_of_hostOs hblank hm
  | unsupported =>
    intro ws wsb h
    unfold writes at h
    rw [hm] at h
    cases h
  | global =>
    intro ws wsb h
    unfold writes at h
    rw [hm] at h
    cases h

namespace State

variable {s : State} {st st' st'' plain : Statement} {written openedBy : Text} {options : Options}
  {source : Text} {body body' : Phrase.Body}

/-- **Adding to an assigned variable is assigning the joined text.** In a module that has just begun
a variable that is no boolean is assigned a text, and another text is added. Both the addition and
the one assignment of the joined text are accepted if both texts are. The module says the same after
them, up to the nesting of sums and the order of list items, exactly when the texts are appended as
in make. -/
theorem added_to_assigned {begun : Nat} (hd : s.draft = some ⟨[], begun, openedBy⟩)
    (hcond : s.conditional? = none) (hname : Meaning.ofName (baseName written) ≠ .global)
    (hbool : ∀ property, Meaning.ofName (baseName written) ≠ .property property .bool)
    (hblank : Text.isBlank blank = true) (h : Assigns st written .simple body)
    (hplain : Assigns plain written .simple body') (h' : Assigns st' written .append body')
    (h'' : Assigns st'' written .simple
      (joined blank (Meaning.ofName (baseName written)) body body'))
    (ha : Accepts options source s st) (hb : Accepts options source s plain) :
    let once := s.step options source st
    let added := once.step options source st'
    let whole := s.step options source st''
    Accepts options source once st' ∧ Accepts options source s st'' ∧
      (AlikeUpTo SameContent added.openProperties whole.openProperties ↔
        AppendsAsMake s.scope (Meaning.ofName (baseName written)) body body') := by
  obtain ⟨ws, ps, hws, honce⟩ := exists_makes_of_accepts hd hcond hname h ha
  obtain ⟨wsb, -, hwsb, -⟩ := exists_makes_of_accepts hd hcond hname hplain hb
  obtain ⟨ws', ws'', hjoins⟩ := canJoin hblank (suffixPath_mem written) hbool ws wsb hws hwsb
  have htyped := typed_of_writes (suffixPath_mem written) hws
  have htyped' := typed_of_writes (suffixPath_mem written) hjoins.added
  have htyped'' := typed_of_writes (suffixPath_mem written) hjoins.whole
  have hlevel := typedLevel_intoAll (typedLevel_nil []) htyped honce.writes
  have hwhite := white_eq_false_of_accepts h ha
  intro once added whole
  have hadds := hjoins.added
  rw [← honce.scope] at hadds
  -- Nothing but a sum of booleans is refused in a typed tree.
  obtain ⟨qs, hadded⟩ : ∃ qs, Makes options source once st' ws' _ qs :=
    exists_makes honce.draft hlevel (honce.conditional?.trans hcond) hname h' hwhite hadds
      (kind_ne_bool_of_writes hbool hadds)
  obtain ⟨rs, hwhole⟩ : ∃ rs, Makes options source s st'' ws'' _ rs :=
    exists_makes hd (typedLevel_nil []) hcond hname h'' hwhite hjoins.whole
      (kind_ne_bool_of_writes hbool hjoins.whole)
  rw [show added.openProperties = qs from hadded.openProperties,
    show whole.openProperties = rs from hwhole.openProperties]
  have hsame := hjoins.same _ _
    (settles_intoAll_intoAll htyped htyped' honce.writes hadded.writes)
    (settles_intoAll htyped'' hwhole.writes)
  refine ⟨hadded.accepts, hwhole.accepts, fun halike => hsame.mp halike.leaves, fun happends => ?_⟩
  exact alike_of_leaves (typedLevel_intoAll hlevel htyped' hadded.writes)
    (typedLevel_intoAll (typedLevel_nil []) htyped'' hwhole.writes) (hsame.mpr happends)

/-- Linux and then Darwin: each of the two is switched off by the other, while both stay on when
they are named at once. -/
theorem added_to_assigned_hostSystems :
    let linux : Phrase.Body := .ofText "linux"
    let darwin : Phrase.Body := .ofText "darwin"
    let once := justBegun.step {} [] (assigned hostOsName .simple linux)
    Accepts {} [] once (assigned hostOsName .append darwin) ∧
      Accepts {} [] justBegun (assigned hostOsName .simple (linux ++ .char ' ' darwin)) ∧
      ¬ AlikeUpTo SameContent (once.step {} [] (assigned hostOsName .append darwin)).openProperties
        (justBegun.step {} []
          (assigned hostOsName .simple (linux ++ .char ' ' darwin))).openProperties := by
  intro linux darwin once
  have hbase : baseName hostOsName = hostOsName := by decide +kernel
  have hm : Meaning.ofName (baseName hostOsName) = .special .hostOs := by
    rw [hbase, ofName_hostOsName]
  have hname : Meaning.ofName (baseName hostOsName) ≠ .global := by
    rw [hm]
    exact fun he => by cases he
  have hbool : ∀ property, Meaning.ofName (baseName hostOsName) ≠ .property property .bool := by
    rw [hm]
    exact fun property he => by cases he
  have hwhole : Assigns (assigned hostOsName .simple (linux ++ .char ' ' darwin)) hostOsName .simple
      (joined ' ' (Meaning.ofName (baseName hostOsName)) linux darwin) := by
    rw [hm]
    exact assigns_assigned hostOsName .simple _
  have hlinux : Accepts {} [] justBegun (assigned hostOsName .simple linux) := rfl
  have hdarwin : Accepts {} [] justBegun (assigned hostOsName .simple darwin) := rfl
  obtain ⟨hadded, hjoined, hsame⟩ := added_to_assigned
    draft_justBegun conditional?_justBegun hname hbool (by decide)
    (assigns_assigned hostOsName .simple linux) (assigns_assigned hostOsName .simple darwin)
    (assigns_assigned hostOsName .append darwin) hwhole hlinux hdarwin
  refine ⟨hadded, hjoined, fun halike => ?_⟩
  have happends := hsame.mp halike
  rw [hm] at happends
  have hlists := happends "linux" (by simp) [.string "linux"] [.string "darwin"]
    (coerceList_ofText _ _) (coerceList_ofText _ _)
  cases hlists

end State

end MakeBlueprint.Conversion
