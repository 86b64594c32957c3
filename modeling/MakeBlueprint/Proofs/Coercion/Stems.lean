import MakeBlueprint.Conversion.Assignment
import MakeBlueprint.Proofs.Coercion.Joining
import MakeBlueprint.Proofs.Coercion.Sums

/-!
# Names of outputs

`LOCAL_MODULE_STEM` names the output of a module. A name that is the one of the module with a text
behind it ought to become a suffix. Whether it does is told from the sum that the text becomes, and
sums are nested to the left: the name of the module stands beside all of the text only where that
is a single chunk, one literal or one reference.

* `stemProperty_coerceString`: no other texts become suffixes than the name of the module with one
  chunk behind it; `coerceString_moduleName_append`: such texts do.
* `assign_stem`: what is written for every text.
-/

namespace MakeBlueprint.Conversion

open Blueprint (Path Value)
open Makefile (Phrase Reference Scope)

variable {scope : Scope} {body : Phrase.Body} {r : Reference} {v : Value}

/-- The variable for the name of an output. -/
def stemName : Text := "LOCAL_MODULE_STEM"

/-- A reference to the name of the module. -/
def IsModuleName (r : Reference) : Prop := r.name.constant? = some State.moduleName

theorem referenceString_moduleName (scope : Scope) (hr : IsModuleName r) :
    referenceString scope r = .ok (.var State.moduleName .string) :=
  referenceString_of_name hr (by decide) (by decide)

/-! ## Suffixes -/

theorem stemProperty_of_ne
    (h : ∀ kind right sumKind, v ≠ .binary '+' (.var State.moduleName kind) right sumKind) :
    State.stemProperty v = ("stem".toList, v) := by
  unfold State.stemProperty
  split
  · next name kind right sumKind =>
    split
    · next hname =>
      rw [hname] at h
      exact absurd rfl (h kind right sumKind)
    · rfl
  · rfl

/-- **Only the name of the module with one chunk behind it becomes a suffix.** -/
theorem stemProperty_coerceString (h : coerceString scope body = .ok v)
    (hne : ∀ r chunk, IsModuleName r → body.chunks ≠ [.reference r, chunk]) :
    State.stemProperty v = ("stem".toList, v) := by
  refine stemProperty_of_ne ?_
  rintro kind right sumKind rfl
  obtain ⟨r, chunk, hchunks, hname, -⟩ := chunks_of_coerceString h
  exact hne r chunk hname hchunks

/-- **The name of the module with one chunk behind it** becomes a sum of two. -/
theorem coerceString_moduleName_append {x : Value} (hr : IsModuleName r)
    (hone : body.chunks.length = 1) (hx : coerceString scope body = .ok x) :
    coerceString scope (.ofReference r ++ body) =
      .ok (.binary '+' (.var State.moduleName .string) x .string) := by
  obtain ⟨chunk, hchunk⟩ := List.length_eq_one_iff.mp hone
  have hpair : (Phrase.Body.ofReference r ++ body).chunks = [.reference r, chunk] := by
    rw [Phrase.Body.chunks_ofReference_append, hchunk]
  rw [coerceString_of_chunk hchunk] at hx
  exact coerceString_pair hpair (referenceString_moduleName scope hr) hx

/-! ## What is written -/

theorem assign_stemName {s : State} {path : Path} {append : Bool}
    (h : coerceString s.scope body = .ok v) :
    s.assign stemName path body append =
      s.setProperty path (State.stemProperty v).1 (State.stemProperty v).2 append := by
  change s.assignStem path body append = _
  unfold State.assignStem
  rw [h]
  rfl

/-- **The name of an output.** Let a text be the name of the module with something behind it that is
accepted. Then it is accepted, with the pieces of both. If one chunk is behind the name of the
module, that is written as the suffix; if there are more, the whole text is written as the stem, as
it is for all other texts. -/
theorem assign_stem (s : State) (path : Path) (append : Bool) :
    (∀ r rest x, IsModuleName r → rest ≠ .nil → coerceString s.scope rest = .ok x →
      ∃ v, coerceString s.scope (.ofReference r ++ rest) = .ok v ∧
        v.content = .var State.moduleName .string :: x.content ∧
        s.assign stemName path (.ofReference r ++ rest) append =
          if rest.chunks.length = 1 then s.setProperty path "suffix" x append
          else s.setProperty path "stem" v append) ∧
      ∀ body v, coerceString s.scope body = .ok v →
        (∀ r rest, IsModuleName r → rest ≠ .nil → body ≠ .ofReference r ++ rest) →
        s.assign stemName path body append = s.setProperty path "stem" v append := by
  constructor
  · intro r rest x hr hne hx
    have hname : coerceString s.scope (.ofReference r) = .ok (.var State.moduleName .string) := by
      have hchunk : (Phrase.Body.ofReference r).chunks = [.reference r] := rfl
      rw [coerceString_of_chunk hchunk]
      exact referenceString_moduleName s.scope hr
    obtain ⟨v, hv, hcontent⟩ := exists_coerceString_append hname hx
    refine ⟨v, hv, hcontent, ?_⟩
    rw [assign_stemName hv]
    split
    · next hone =>
      rw [coerceString_moduleName_append hr hone hx] at hv
      cases hv
      rfl
    · next hmore =>
      rw [stemProperty_coerceString hv]
      intro other chunk hother hchunks
      rw [Phrase.Body.chunks_ofReference_append] at hchunks
      obtain ⟨-, hrest⟩ := List.cons.inj hchunks
      exact hmore (congrArg List.length hrest)
  · intro body v hv hother
    rw [assign_stemName hv, stemProperty_coerceString hv]
    intro r chunk hr hchunks
    obtain ⟨rest, rfl, hrest⟩ := Phrase.Body.exists_of_chunks_eq hchunks
    refine hother r rest hr ?_ rfl
    rintro rfl
    cases hrest

/-- In a module that has just begun, `$(LOCAL_MODULE)_x` sets the suffix, but `$(LOCAL_MODULE)_$(X)`
sets the stem, as `x` does. -/
theorem assign_stem_chunks :
    let s := State.start.openModule {} []
    let ownName : Reference := ⟨.ofText 2 State.moduleName, 0, .paren⟩
    let one : Phrase.Body := .ofText ['_', 'x']
    let two : Phrase.Body := .char '_' (.ref (.ofText ['X']) 18 16 .paren .nil)
    let other : Phrase.Body := .ofText ['x']
    s.assign stemName [] (.ofReference ownName ++ one) false =
        s.setProperty [] "suffix" (.string ['_', 'x']) false ∧
      (∃ v, coerceString s.scope (.ofReference ownName ++ two) = .ok v ∧
        s.assign stemName [] (.ofReference ownName ++ two) false =
          s.setProperty [] "stem" v false) ∧
      s.assign stemName [] other false = s.setProperty [] "stem" (.string ['x']) false := by
  intro s ownName one two other
  have hname : IsModuleName ownName := rfl
  obtain ⟨hmodule, hother⟩ := assign_stem s [] false
  refine ⟨?_, ?_, ?_⟩
  · obtain ⟨v, -, -, h⟩ := hmodule ownName one (.string ['_', 'x']) hname (by decide) rfl
    exact h
  · obtain ⟨v, hv, -, h⟩ := hmodule ownName two _ hname (by decide) rfl
    exact ⟨v, hv, h⟩
  · refine hother other (.string ['x']) rfl ?_
    intro r rest _ _ heq
    have hconstant : some ['x'] = none := congrArg Phrase.Body.constant? heq
    cases hconstant

end MakeBlueprint.Conversion
