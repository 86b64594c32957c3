import MakeBlueprint.Blueprint.Property
import MakeBlueprint.Makefile.Scope

/-!
# The vocabulary of module makefiles

What the fixed names mean: module variables, their suffixes, the conditions that can be expressed,
and the variables that name module types.

* `Meaning.ofName` is the meaning of a variable that is assigned.
* `splitSuffix` takes an architecture or a word size off a variable; `append_of_splitSuffix`.
* `Branches.ofCondition?` gives the two branches of a condition.
* `rootScope` is the scope in which makefiles are evaluated.
-/

namespace MakeBlueprint.Conversion

open Blueprint (Kind Path)
open Makefile (Scope Frame)

/-! ## Module variables -/

/-- The variables that become a property of the same kind. -/
def propertyTable (kind : Kind) (rows : List (String × String)) : List (Text × Text × Kind) :=
  rows.map fun row => (row.1.toList, row.2.toList, kind)

/-- Variables, the properties that they become, and the kinds of these. -/
def standardProperties : List (Text × Text × Kind) :=
  propertyTable .string [
    ("LOCAL_MODULE", "name"),
    ("LOCAL_MODULE_CLASS", "class"),
    ("LOCAL_CXX_STL", "stl"),
    ("LOCAL_STRIP_MODULE", "strip"),
    ("LOCAL_MULTILIB", "compile_multilib"),
    ("LOCAL_ARM_MODE_HACK", "instruction_set"),
    ("LOCAL_SDK_VERSION", "sdk_version"),
    ("LOCAL_NDK_STL_VARIANT", "stl"),
    ("LOCAL_JAR_MANIFEST", "manifest"),
    ("LOCAL_JARJAR_RULES", "jarjar_rules"),
    ("LOCAL_CERTIFICATE", "certificate"),
    ("LOCAL_PACKAGE_NAME", "name"),
    ("LOCAL_MODULE_RELATIVE_PATH", "relative_install_path")] ++
  propertyTable .list [
    ("LOCAL_SRC_FILES", "srcs"),
    ("LOCAL_SRC_FILES_EXCLUDE", "exclude_srcs"),
    ("LOCAL_SHARED_LIBRARIES", "shared_libs"),
    ("LOCAL_STATIC_LIBRARIES", "static_libs"),
    ("LOCAL_WHOLE_STATIC_LIBRARIES", "whole_static_libs"),
    ("LOCAL_SYSTEM_SHARED_LIBRARIES", "system_shared_libs"),
    ("LOCAL_ASFLAGS", "asflags"),
    ("LOCAL_CLANG_ASFLAGS", "clang_asflags"),
    ("LOCAL_CFLAGS", "cflags"),
    ("LOCAL_CONLYFLAGS", "conlyflags"),
    ("LOCAL_CPPFLAGS", "cppflags"),
    ("LOCAL_LDFLAGS", "ldflags"),
    ("LOCAL_REQUIRED_MODULES", "required"),
    ("LOCAL_MODULE_TAGS", "tags"),
    ("LOCAL_LDLIBS", "host_ldlibs"),
    ("LOCAL_CLANG_CFLAGS", "clang_cflags"),
    ("LOCAL_YACCFLAGS", "yaccflags"),
    ("LOCAL_SANITIZE", "sanitize"),
    ("LOCAL_SANITIZE_RECOVER", "sanitize_recover"),
    ("LOCAL_LOGTAGS_FILES", "logtags"),
    ("LOCAL_EXPORT_SHARED_LIBRARY_HEADERS", "export_shared_lib_headers"),
    ("LOCAL_EXPORT_STATIC_LIBRARY_HEADERS", "export_static_lib_headers"),
    ("LOCAL_INIT_RC", "init_rc"),
    ("LOCAL_TIDY_FLAGS", "tidy_flags"),
    ("LOCAL_TIDY_CHECKS", "tidy_checks"),
    ("LOCAL_JAVA_RESOURCE_DIRS", "java_resource_dirs"),
    ("LOCAL_JAVACFLAGS", "javacflags"),
    ("LOCAL_DX_FLAGS", "dxflags"),
    ("LOCAL_JAVA_LIBRARIES", "java_libs"),
    ("LOCAL_STATIC_JAVA_LIBRARIES", "java_static_libs"),
    ("LOCAL_AIDL_INCLUDES", "aidl_includes"),
    ("LOCAL_AAPT_FLAGS", "aaptflags"),
    ("LOCAL_PACKAGE_SPLITS", "package_splits")] ++
  propertyTable .bool [
    ("LOCAL_IS_HOST_MODULE", "host"),
    ("LOCAL_CLANG", "clang"),
    ("LOCAL_FORCE_STATIC_EXECUTABLE", "static"),
    ("LOCAL_NATIVE_COVERAGE", "native_coverage"),
    ("LOCAL_NO_CRT", "nocrt"),
    ("LOCAL_ALLOW_UNDEFINED_SYMBOLS", "allow_undefined_symbols"),
    ("LOCAL_RTTI_FLAG", "rtti"),
    ("LOCAL_NO_STANDARD_LIBRARIES", "no_standard_libraries"),
    ("LOCAL_EXPORT_PACKAGE_RESOURCES", "export_package_resources")]

/-- Variables that take more than a change of name. -/
inductive Special where
  /-- Include directories: those of the module go to a property of their own. -/
  | localIncludeDirs
  /-- Exported include directories. -/
  | exportIncludeDirs
  /-- The name of the output, or only what is put behind the name of the module. -/
  | stem
  /-- The host systems that the module is for. -/
  | hostOs
  deriving DecidableEq, Repr

/-- The variables that take more than a change of name. -/
def specialVariables : List (Text × Special) :=
  [("LOCAL_C_INCLUDES", .localIncludeDirs),
   ("LOCAL_EXPORT_C_INCLUDE_DIRS", .exportIncludeDirs),
   ("LOCAL_MODULE_STEM", .stem),
   ("LOCAL_MODULE_HOST_OS", .hostOs)]

/-- Variables that a blueprint file has no use for. -/
def deletedVariables : List Text := ["LOCAL_CPP_EXTENSION"]

/-- Variables that only matter inside makefiles. -/
def ignoredVariables : List Text := ["LOCAL_PATH", "LOCAL_ADDITIONAL_DEPENDENCIES"]

/-- Whether a name is reserved for module variables. -/
def isLocalName (name : Text) : Bool := "LOCAL_".toList.isPrefixOf name

/-- What it means to assign to a variable. -/
inductive Meaning where
  /-- The assignment is left out. -/
  | dropped
  /-- The instruction set, which only one architecture has. -/
  | armMode
  /-- A property of a kind. -/
  | property (name : Text) (kind : Kind)
  | special (s : Special)
  /-- A module variable that cannot be expressed. -/
  | unsupported
  /-- A variable of the file. -/
  | global
  deriving DecidableEq, Repr

/-- The property of the instruction set. -/
def armModeProperty : Text := "instruction_set"

/-- The path of the architecture that has instruction sets. -/
def armPath : Path := ["arch", "arm"]

/-- The meaning of a variable. -/
def Meaning.ofName (name : Text) : Meaning :=
  if ignoredVariables.contains name || deletedVariables.contains name then .dropped
  else if name = "LOCAL_ARM_MODE".toList then .armMode
  else
    match standardProperties.lookup name with
    | some (target, kind) => .property target kind
    | none =>
      match specialVariables.lookup name with
      | some s => .special s
      | none => if isLocalName name then .unsupported else .global

/-! ## Suffixes -/

/-- The suffixes of module variables and the paths that they select. No suffix hides a longer one
that stands before it. -/
def suffixes : List (Text × Path) :=
  [("x86_64", ["arch", "x86_64"]),
   ("mips64", ["arch", "mips64"]),
   ("arm64", ["arch", "arm64"]),
   ("mips", ["arch", "mips"]),
   ("x86", ["arch", "x86"]),
   ("arm", ["arch", "arm"]),
   ("32", ["multilib", "lib32"]),
   ("64", ["multilib", "lib64"])]

/-- A text without an ending, if it has it. -/
def stripEnd? (ending t : Text) : Option Text :=
  if ending.isSuffixOf t then some (t.take (t.length - ending.length)) else none

/-- A variable without its suffix, and the path of the suffix. -/
def splitSuffix (name : Text) : Text × Option Path :=
  match suffixes.findSome? fun (s, path) => (stripEnd? ('_' :: s) name).map (·, path) with
  | some (base, path) => (base, some path)
  | none => (name, none)

theorem append_of_stripEnd? {ending t base : Text} (h : stripEnd? ending t = some base) :
    base ++ ending = t := by
  unfold stripEnd? at h
  split at h
  · next hs =>
    cases h
    obtain ⟨u, rfl⟩ := List.isSuffixOf_iff_suffix.1 hs
    simp
  · cases h

/-- A suffix that is taken off was there. -/
theorem append_of_splitSuffix {name base : Text} {path : Path}
    (h : splitSuffix name = (base, some path)) : ∃ s, (s, path) ∈ suffixes ∧ base ++ '_' :: s = name := by
  unfold splitSuffix at h
  split at h
  · next b p hb =>
    cases h
    obtain ⟨⟨s, q⟩, hmem, hs⟩ := List.exists_of_findSome?_eq_some hb
    obtain ⟨u, hu, he⟩ := Option.map_eq_some_iff.1 hs
    cases he
    exact ⟨s, hmem, append_of_stripEnd? hu⟩
  · cases h

/-! ## Conditions -/

/-- The paths of the two branches of a condition. A branch without one cannot be expressed. -/
structure Branches where
  whenTrue : Option Path
  whenFalse : Option Path
  deriving DecidableEq, Repr

/-- The conditions that can be expressed, written without a space behind the comma. -/
def conditions : List (Text × Branches) :=
  [("($(HOST_OS),darwin)", ⟨some ["target", "darwin"], some ["target", "not_darwin"]⟩),
   ("($(HOST_OS),windows)", ⟨some ["target", "windows"], some ["target", "not_windows"]⟩),
   ("($(HOST_OS),linux)", ⟨some ["target", "linux"], some ["target", "not_linux"]⟩),
   ("($(BUILD_OS),darwin)", ⟨some ["target", "darwin"], some ["target", "not_darwin"]⟩),
   ("($(BUILD_OS),linux)", ⟨some ["target", "linux"], some ["target", "not_linux"]⟩),
   ("(,$(TARGET_BUILD_APPS))", ⟨none, some ["product_variables", "unbundled_build"]⟩),
   ("($(TARGET_BUILD_PDK),true)", ⟨some ["product_variables", "pdk"], none⟩)]

/-- A condition with a space behind its first comma. -/
def spaceAfterComma : Text → Text
  | [] => []
  | c :: t => if c = ',' then ',' :: ' ' :: t else c :: spaceAfterComma t

/-- The branches of a condition, written with a space behind its comma or without. -/
def Branches.ofCondition? (condition : Text) : Option Branches :=
  (conditions ++ conditions.map fun row => (spaceAfterComma row.1, row.2)).lookup condition

/-! ## Includes -/

/-- What the variable `CLEAR_VARS` stands for. -/
def clearMark : Text := "__android_mk_clear_vars"

/-- The variables that build a module, and the types of the modules. -/
def moduleTypes : List (Text × Text) :=
  [("BUILD_SHARED_LIBRARY", "cc_library_shared"),
   ("BUILD_STATIC_LIBRARY", "cc_library_static"),
   ("BUILD_HOST_SHARED_LIBRARY", "cc_library_host_shared"),
   ("BUILD_HOST_STATIC_LIBRARY", "cc_library_host_static"),
   ("BUILD_EXECUTABLE", "cc_binary"),
   ("BUILD_HOST_EXECUTABLE", "cc_binary_host"),
   ("BUILD_NATIVE_TEST", "cc_test"),
   ("BUILD_HOST_NATIVE_TEST", "cc_test_host"),
   ("BUILD_NATIVE_BENCHMARK", "cc_benchmark"),
   ("BUILD_HOST_NATIVE_BENCHMARK", "cc_benchmark_host"),
   ("BUILD_JAVA_LIBRARY", "java_library"),
   ("BUILD_STATIC_JAVA_LIBRARY", "java_library_static"),
   ("BUILD_HOST_JAVA_LIBRARY", "java_library_host"),
   ("BUILD_HOST_DALVIK_JAVA_LIBRARY", "java_library_host_dalvik"),
   ("BUILD_PACKAGE", "android_app"),
   ("BUILD_PREBUILT", "prebuilt")]

/-- Whether a text is a type of modules. -/
def isModuleType (t : Text) : Bool := moduleTypes.any fun row => row.2 == t

/-- The scope in which makefiles are evaluated. -/
def rootScope : Scope :=
  ⟨[{ bindings := ("CLEAR_VARS".toList, clearMark) :: moduleTypes
      functions :=
        [("my-dir".toList, fun _ => ['.']),
         ("all-java-files-under".toList,
          fun arguments => Text.trim (arguments.headD []) ++ "/**/*.java"),
         ("all-subdir-java-files".toList, fun _ => "**/*.java")] }]⟩

end MakeBlueprint.Conversion
