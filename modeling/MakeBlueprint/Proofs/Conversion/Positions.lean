import MakeBlueprint.Proofs.Conversion.Step
import MakeBlueprint.Proofs.Reading.Positions

/-!
# The conversion does not look at positions

A statement becomes the same part of a file whatever positions its phrases remember. Phrases are
expanded, cut and coerced without them, so that nothing is said about positions above assignments
and directives.

* `Body.expand_mapPos`, `Body.chunks_mapPos`, `Body.split_mapPos`: phrases and their parts.
* `coerceString_mapPos`, `coerceList_mapPos`, `coerceBool_mapPos`: values.
* `State.perform_mapPos`: statements.
-/

namespace MakeBlueprint.Makefile

variable (f : Nat → Nat) (scope : Scope) (p : Char → Bool)

namespace Phrase

/-- The chunk with its positions changed. -/
def Chunk.mapPos : Chunk → Chunk
  | .literal text => .literal text
  | .reference r => .reference (r.mapPos f)

namespace Body

@[simp] theorem expand_mapPos (b : Body) : (b.mapPos f).expand scope = b.expand scope := by
  induction b with
  | nil => rfl
  | char c r ih => simp [mapPos, expand, ih]
  | ref name m n d r ihname ih => simp [mapPos, expand, ihname, ih]

@[simp] theorem value_mapPos (b : Body) : (b.mapPos f).value scope = b.value scope :=
  congrArg Expansion.toText (expand_mapPos f scope b)

@[simp] theorem constant?_mapPos (b : Body) : (b.mapPos f).constant? = b.constant? := by
  induction b with
  | nil => rfl
  | char c r ih => simp [mapPos, constant?, ih]
  | ref => rfl

theorem chunks_mapPos (b : Body) : (b.mapPos f).chunks = b.chunks.map (Chunk.mapPos f) := by
  induction b with
  | nil => rfl
  | char c r ih =>
    rw [mapPos, chunks, ih, chunks]
    cases r.chunks with
    | nil => rfl
    | cons chunk cs => cases chunk <;> rfl
  | ref name m n d r _ ih => exact congrArg (_ :: ·) ih

theorem soleReference?_mapPos (b : Body) :
    (b.mapPos f).soleReference? = b.soleReference?.map (Reference.mapPos f) :=
  Phrase.soleReference?_mapPos f ⟨0, b⟩

/-! ## Pieces -/

theorem cut_mapPos (b : Body) :
    (b.mapPos f).cut p = (b.cut p).map (Prod.map (mapPos f) (mapPos f)) := by
  induction b with
  | nil => rfl
  | char c r ih =>
    rw [mapPos, cut, ih, cut]
    split
    · rfl
    · cases r.cut p <;> rfl
  | ref name m n d r _ ih =>
    rw [mapPos, cut, ih, cut]
    cases r.cut p <;> rfl

theorem separators_mapPos (b : Body) : (b.mapPos f).separators p = b.separators p := by
  induction b with
  | nil => rfl
  | char c r ih => exact congrArg (_ + ·) ih
  | ref name m n d r _ ih => exact ih

theorem splitAtMost_mapPos (cuts : Nat) (b : Body) :
    (b.mapPos f).splitAtMost p cuts = (b.splitAtMost p cuts).map (mapPos f) := by
  induction cuts generalizing b with
  | zero => rfl
  | succ cuts ih =>
    rw [splitAtMost, cut_mapPos, splitAtMost]
    cases b.cut p with
    | none => rfl
    | some parts => exact congrArg (_ :: ·) (ih parts.2)

theorem split_mapPos (b : Body) : (b.mapPos f).split p = (b.split p).map (mapPos f) := by
  unfold split
  rw [separators_mapPos, splitAtMost_mapPos]

end Body

@[simp] theorem value_mapPos (phrase : Phrase) :
    (phrase.mapPos f).value scope = phrase.value scope :=
  Body.value_mapPos f scope phrase.body

@[simp] theorem constant?_mapPos (phrase : Phrase) :
    (phrase.mapPos f).constant? = phrase.constant? :=
  Body.constant?_mapPos f phrase.body

@[simp] theorem dump_mapPos (phrase : Phrase) : (phrase.mapPos f).dump = phrase.dump :=
  Body.dump_mapPos f phrase.body

end Phrase

@[simp] theorem Reference.call?_mapPos (r : Reference) :
    (r.mapPos f).call? scope = r.call? scope :=
  congrArg (Expansion.call? scope) (Phrase.Body.expand_mapPos f scope r.name.body)

end MakeBlueprint.Makefile

namespace MakeBlueprint.Conversion

open Blueprint (Kind Path)
open Makefile (Assignment Content Directive Phrase Reference Scope Statement)

variable (f : Nat → Nat) (scope : Scope)

/-! ## Values -/

theorem literalName_mapPos (r : Reference) : literalName (r.mapPos f) = literalName r := by
  unfold literalName
  rw [Reference.mapPos, Phrase.constant?_mapPos, Phrase.dump_mapPos]

theorem chunkString_mapPos (chunk : Phrase.Chunk) :
    chunkString scope (chunk.mapPos f) = chunkString scope chunk := by
  cases chunk with
  | literal text => rfl
  | reference r =>
    change referenceString scope (r.mapPos f) = referenceString scope r
    unfold referenceString
    rw [Reference.call?_mapPos, literalName_mapPos]

theorem coerceString_mapPos (b : Phrase.Body) :
    coerceString scope (b.mapPos f) = coerceString scope b := by
  unfold coerceString
  rw [Phrase.Body.chunks_mapPos, List.mapM_map]
  exact congrArg (· >>= _) (congrArg (b.chunks.mapM ·) (funext (chunkString_mapPos f scope)))

theorem field_mapPos (word : Phrase.Body) : field scope (word.mapPos f) = field scope word := by
  unfold field
  rw [Phrase.Body.soleReference?_mapPos, coerceString_mapPos]
  cases word.soleReference? with
  | none => rfl
  | some r =>
    change referenceField scope (r.mapPos f) = referenceField scope r
    unfold referenceField
    rw [Reference.call?_mapPos, literalName_mapPos]

theorem words_mapPos (b : Phrase.Body) :
    words (b.mapPos f) = (words b).map (Phrase.Body.mapPos f) := by
  have hempty : ∀ word : Phrase.Body, (word.mapPos f == .nil) = (word == .nil) := fun word => by
    rw [Bool.eq_iff_iff, beq_iff_eq, beq_iff_eq, Phrase.Body.mapPos_eq_nil_iff]
  unfold words
  rw [Phrase.Body.split_mapPos, List.filter_map]
  simp only [Function.comp_def, hempty]

theorem coerceList_mapPos (b : Phrase.Body) :
    coerceList scope (b.mapPos f) = coerceList scope b := by
  unfold coerceList
  rw [words_mapPos, List.mapM_map]
  exact congrArg (· >>= _) (congrArg ((words b).mapM ·) (funext (field_mapPos f scope)))

theorem coerceBool_mapPos (b : Phrase.Body) : coerceBool (b.mapPos f) = coerceBool b := by
  unfold coerceBool
  rw [Phrase.Body.constant?_mapPos, Phrase.Body.dump_mapPos, Phrase.Body.trimStart_mapPos,
    Phrase.Body.trimEnd_mapPos, Phrase.Body.soleReference?_mapPos]
  cases b.trimStart.trimEnd.soleReference? with
  | none => rfl
  | some r =>
    dsimp only [Option.map_some]
    rw [literalName_mapPos]

/-- **A phrase becomes the same value** whatever positions it remembers. -/
theorem coerce_mapPos (kind : Kind) (b : Phrase.Body) :
    coerce scope kind (b.mapPos f) = coerce scope kind b := by
  cases kind with
  | string => exact coerceString_mapPos f scope b
  | bool => exact coerceBool_mapPos f b
  | list | map => exact coerceList_mapPos f scope b

/-! ## Statements -/

namespace State

/-- **What a statement does** to a state that has moved to its lines, when problems quote a text. -/
def perform (options : Options) (quoted : Text) (s : State) : Content → State
  | .comment text => s.comment (copied text)
  | .assignment a => s.assignment quoted a
  | .directive d => s.directive options quoted d
  | .rule _ | .reference _ => s.diagnose quoted .unsupportedLine

theorem step_eq_perform (options : Options) (source : Text) (s : State) (st : Statement) :
    s.step options source st =
      (s.moveTo st.lines).perform options (st.quote source) st.content := by
  unfold step perform
  cases st.content <;> rfl

variable (s : State) (quoted : Text)

theorem assign_mapPos (name : Text) (path : Path) (b : Phrase.Body) (append : Bool) :
    s.assign name path (b.mapPos f) append = s.assign name path b append := by
  simp only [assign, assignIncludes, assignExportedIncludes, assignStem, assignHostOs, assignGlobal,
    coerceString_mapPos, coerceList_mapPos, coerce_mapPos, Phrase.Body.value_mapPos,
    Phrase.Body.dump_mapPos]

theorem assignment_mapPos (a : Assignment) :
    s.assignment quoted ⟨a.name.mapPos f, a.op, a.value.mapPos f, a.target.map (Phrase.mapPos f)⟩ =
      s.assignment quoted a := by
  simp only [assignment, assignLocated, assignOrReport, Option.isSome_map, Phrase.constant?_mapPos,
    Phrase.body_mapPos, assign_mapPos]

theorem directive_mapPos (options : Options) (d : Directive) :
    s.directive options quoted ⟨d.keyword, d.arguments.mapPos f⟩ =
      s.directive options quoted d := by
  simp only [directive, includeFile, Phrase.value_mapPos, Phrase.dump_mapPos]

/-- **A statement does the same** whatever positions it remembers. -/
theorem perform_mapPos (options : Options) (content : Content) :
    s.perform options quoted (content.mapPos f) = s.perform options quoted content := by
  cases content with
  | assignment a => exact assignment_mapPos f s quoted a
  | directive d => exact directive_mapPos f s quoted options d
  | comment | rule | reference => rfl

end State

end MakeBlueprint.Conversion
