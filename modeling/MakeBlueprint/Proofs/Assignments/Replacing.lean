import MakeBlueprint.Proofs.Assignments.Accepted

/-!
# When an assignment replaces the one before it

A variable is assigned twice in a module, both times with `:=`. What the second assignment writes
replaces what stood in the same places. What the first one wrote in other places stays, and nothing
takes it away.

* `replaces_of_writes`: an assignment that does not append starts every place that it writes anew.
* `Settles.replacing`: so what it writes does not depend on what was there.
* `assigned_twice`: the second assignment replaces the first exactly when it writes wherever the
  first one did. That is so for all variables but those whose value decides where they are written.
-/

namespace MakeBlueprint.Conversion

open Blueprint (Path Property Value)
open Blueprint.Property (AlikeUpTo isSome_eq_of_rel leaf? rel_refl)
open Makefile (Phrase Scope Statement)

variable {scope : Scope} {name : Text} {path : Path} {body body' : Phrase.Body}
  {append append' : Bool} {ws ws' : List Write} {line line' : Nat} {ps qs rs : List Property}

/-! ## Writes that replace -/

/-- **The first write in every place replaces** what stands there. -/
def Replaces (ws : List Write) : Prop := ∀ q, ∀ w ∈ (writesAt q ws).head?, w.append = false

theorem replaces_of_all (h : ∀ w ∈ ws, w.append = false) : Replaces ws :=
  fun _ w hw => h w (List.mem_of_mem_filter (List.mem_of_mem_head? hw))

/-- Exported directories are written in one place, where the second part is added to the first. -/
theorem replaces_exported {own others : Value} :
    Replaces (directoryWrites path name name own others false (false || !isEmptyList own)) := by
  cases hown : isEmptyList own with
  | true => exact replaces_of_all fun w hw => append_of_mem_directoryWrites hw
  | false =>
    intro q w hw
    unfold directoryWrites at hw
    rw [writesAt_append] at hw
    unfold listWrites at hw
    rw [if_neg (by rw [hown]; decide)] at hw
    by_cases hq : path ++ [name] = q
    · simp [writesAt, Write.target, hq] at hw
      rw [← hw]
    · -- Neither part is written here.
      split at hw
      · simp [writesAt, Write.target, hq] at hw
      · simp [writesAt, Write.target, hq] at hw

/-- **An assignment that does not append starts every place anew.** -/
theorem replaces_of_writes (h : writes scope name path body false = .ok ws) : Replaces ws := by
  cases writesCase_of_writes h with
  | dropped => exact replaces_of_all fun w hw => absurd hw List.not_mem_nil
  | armMode | property | stem => exact replaces_of_all fun w hw => by rw [List.mem_singleton.mp hw]
  | localIncludeDirs => exact replaces_of_all fun w hw => append_of_mem_directoryWrites hw
  | exportIncludeDirs => exact replaces_exported
  | hostOs => exact replaces_of_all fun w hw => append_of_mem_hostWrites hw

/-- **What is written anew does not depend on what was there**; in all other places what was there
stays. -/
theorem Settles.replacing {leaf old new : Option Value} {q : Path} (hr : Replaces ws')
    (h : Settles (ws ++ ws') q leaf) (hold : Settles ws q old) (hnew : Settles ws' q new) :
    leaf = new.or old := by
  unfold Settles at h hold hnew
  rw [writesAt_append, List.foldlM_append, hold] at h
  have h : (writesAt q ws').foldlM settle old = .ok leaf := h
  cases hat : writesAt q ws' with
  | nil =>
    rw [hat] at h hnew
    cases h
    cases hnew
    exact (Option.none_or).symm
  | cons w rest =>
    have happend : w.append = false := hr q w (by rw [hat]; rfl)
    have hsettle : ∀ old, settle old w = .ok (some w.value) := by
      intro old
      unfold settle State.changed
      rw [happend]
      cases old <;> rfl
    rw [hat] at h hnew
    have hsome := isSome_of_foldlM_settle hnew
    rw [List.foldlM_cons, hsettle] at h hnew
    rw [Except.ok.inj (h.symm.trans hnew), Option.or_of_isSome hsome]

/-- A typed tree with the leaves of two trees is like the first one exactly when the second one only
has leaves in the same places. -/
theorem alike_iff_of_leaves (hps : TypedLevel [] ps) (hqs : TypedLevel [] qs)
    (hleaf : ∀ q, leaf? q ps = (leaf? q qs).or (leaf? q rs)) :
    AlikeUpTo Eq ps qs ↔ ∀ q, (leaf? q rs).isSome → (leaf? q qs).isSome := by
  constructor
  · intro halike q hsome
    rw [← isSome_eq_of_rel (halike.leaves q), hleaf q, Option.isSome_or, hsome, Bool.or_true]
  · intro hcover
    refine alike_of_leaves hps hqs fun q => ?_
    rw [hleaf q]
    cases hnew : leaf? q qs with
    | some v => exact rel_refl Eq.refl _
    | none =>
      cases hold : leaf? q rs with
      | none => exact .none
      | some v =>
        have hcovered := hcover q (by rw [hold]; rfl)
        rw [hnew] at hcovered
        cases hcovered

/-! ## Where assignments write -/

/-- Where most variables are written does not depend on their values. -/
theorem targets_of_writes (hspecial : ∀ special, Meaning.ofName name ≠ .special special)
    (h : writes scope name path body append = .ok ws)
    (h' : writes scope name path body' append' = .ok ws') :
    ws.map Write.target = ws'.map Write.target := by
  unfold writes at h h'
  cases hm : Meaning.ofName name with
  | dropped =>
    rw [hm] at h h'
    cases h
    cases h'
    rfl
  | armMode =>
    rw [hm] at h h'
    obtain ⟨value, -, h⟩ := bind_eq_ok h
    obtain ⟨value', -, h'⟩ := bind_eq_ok h'
    cases h
    cases h'
    rfl
  | property property kind =>
    rw [hm] at h h'
    obtain ⟨value, -, h⟩ := bind_eq_ok h
    obtain ⟨value', -, h'⟩ := bind_eq_ok h'
    cases h
    cases h'
    rfl
  | special special => exact absurd hm (hspecial special)
  | unsupported =>
    rw [hm] at h
    cases h
  | global =>
    rw [hm] at h
    cases h

namespace State

variable {s : State} {st st' : Statement} {written openedBy : Text} {options : Options}
  {source : Text}

/-- **The second of two assignments replaces the first one** in a module that has just begun
exactly when it writes wherever the first one did. So it is for all variables whose values do not
decide where they are written. -/
theorem assigned_twice {begun : Nat} (hd : s.draft = some ⟨[], begun, openedBy⟩)
    (hcond : s.conditional? = none) (hname : Meaning.ofName (baseName written) ≠ .global)
    (h : Assigns st written .simple body) (h' : Assigns st' written .simple body')
    (ha : Accepts options source s st) (ha' : Accepts options source s st') :
    let once := s.step options source st
    let other := s.step options source st'
    let twice := once.step options source st'
    Accepts options source once st' ∧
      (AlikeUpTo Eq twice.openProperties other.openProperties ↔
        ∀ q, (leaf? q once.openProperties).isSome → (leaf? q other.openProperties).isSome) ∧
      ((∀ special, Meaning.ofName (baseName written) ≠ .special special) →
        AlikeUpTo Eq twice.openProperties other.openProperties) := by
  obtain ⟨ws, ps, hws, honce⟩ := exists_makes_of_accepts hd hcond hname h ha
  obtain ⟨ws', qs, hws', hother⟩ := exists_makes_of_accepts hd hcond hname h' ha'
  have htyped := typed_of_writes (suffixPath_mem written) hws
  have htyped' := typed_of_writes (suffixPath_mem written) hws'
  have hsum : ∀ w ∈ ws', w.append = true → w.value.kind ≠ .bool := by
    rcases single_or_kind_ne_bool hws' with ⟨w, rfl, hw⟩ | hsum
    · intro v hv happend
      rw [List.mem_singleton.mp hv, hw] at happend
      cases happend
    · exact hsum
  -- What the first assignment leaves is a typed tree, in which the second one is made as well.
  have hlevel := typedLevel_intoAll (typedLevel_nil []) htyped honce.writes
  intro once other twice
  have hagain := hws'
  rw [← honce.scope] at hagain
  obtain ⟨rs, htwice⟩ : ∃ rs, Makes options source once st' ws' _ rs :=
    exists_makes honce.draft hlevel (honce.conditional?.trans hcond) hname h'
      (white_eq_false_of_accepts h' ha') hagain hsum
  rw [show twice.openProperties = rs from htwice.openProperties,
    show other.openProperties = qs from hother.openProperties,
    show once.openProperties = ps from honce.openProperties]
  have hsame : AlikeUpTo Eq rs qs ↔ ∀ q, (leaf? q ps).isSome → (leaf? q qs).isSome :=
    alike_iff_of_leaves (typedLevel_intoAll hlevel htyped' htwice.writes)
      (typedLevel_intoAll (typedLevel_nil []) htyped' hother.writes) fun q =>
        Settles.replacing (replaces_of_writes hws')
          (settles_intoAll_intoAll htyped htyped' honce.writes htwice.writes q)
          (settles_intoAll htyped honce.writes q) (settles_intoAll htyped' hother.writes q)
  refine ⟨htwice.accepts, hsame, fun hspecial => hsame.mpr fun q hsome => ?_⟩
  rw [(settles_intoAll htyped honce.writes q).isSome_iff] at hsome
  rw [(settles_intoAll htyped' hother.writes q).isSome_iff, ← targets_of_writes hspecial hws hws']
  exact hsome

/-- A directory next to the makefile is replaced by another one: it stays. -/
theorem assigned_twice_directories :
    let own : Phrase.Body := .ref (.ofText "LOCAL_PATH") 2 0 .paren (.ofText ['/', 'x'])
    let other : Phrase.Body := .ofText ['y']
    let name : Text := "LOCAL_C_INCLUDES"
    let once := justBegun.step {} [] (assigned name .simple own)
    Accepts {} [] justBegun (assigned name .simple own) ∧
      Accepts {} [] justBegun (assigned name .simple other) ∧
      Accepts {} [] once (assigned name .simple other) ∧
      ¬ AlikeUpTo Eq (once.step {} [] (assigned name .simple other)).openProperties
        (justBegun.step {} [] (assigned name .simple other)).openProperties := by
  intro own other name once
  have hname : Meaning.ofName (baseName name) ≠ .global := by decide +kernel
  have hown : Accepts {} [] justBegun (assigned name .simple own) := rfl
  have hother : Accepts {} [] justBegun (assigned name .simple other) := rfl
  have h := assigned_twice draft_justBegun conditional?_justBegun hname
    (assigns_assigned name .simple own) (assigns_assigned name .simple other) hown hother
  refine ⟨hown, hother, h.1, fun hsame => ?_⟩
  have hsome := h.2.1.mp hsame ["local_include_dirs"] rfl
  cases hsome

end State

end MakeBlueprint.Conversion
