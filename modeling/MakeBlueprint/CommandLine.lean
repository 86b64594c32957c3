import MakeBlueprint.CommandLine.Request
import MakeBlueprint.Outcome

/-!
# The command line

The program converts one file. What it reads is the only thing that comes from outside:
`Request.ofArguments` tells what is asked for, and `respond` is the answer once the file has been
read.
-/

namespace MakeBlueprint.CommandLine

open Conversion (Options)

/-- What the program leaves behind. -/
structure Response where
  status : Nat
  output : Text
  errors : Text
  deriving DecidableEq, Repr

/-! ## Texts -/

/-- The lines of the help. -/
def helpLines : List String :=
  ["androidmk - convert Android.mk files to Android.bp",
   "",
   "Usage: androidmk [OPTIONS] <FILE>",
   "",
   "Arguments:",
   "  <FILE>  Path to the Android.mk to convert, or - for standard input",
   "",
   "Options:",
   "      --allow-unclosed-module  " ++
     "Drop a module that is never built instead of reporting it in the output",
   "  -h, --help                   Print help",
   "  -V, --version                Print version"]

/-- The help. -/
def helpText : Text := helpLines.flatMap fun line => line.toList ++ ['\n']

/-- The name and the version of the program. -/
def versionText : Text := "androidmk 0.2.2\n"

/-! ## Answers -/

/-- The faults of a file, each on a line. -/
def faultLines (file : Text) (errors : List Makefile.ParseError) : Text :=
  errors.flatMap fun e => "ERROR: " ++ file ++ ":" ++ e.text ++ ['\n']

/-- The text that bytes stand for. -/
def decode (bytes : ByteArray) : Except ReadError Text :=
  match String.fromUTF8? bytes with
  | some s => .ok s.toList
  | none => .error .invalidData

/-- The answer for a file that has been read. -/
def respondToSource (file : Text) (options : Options) (source : Text) : Response :=
  match MakeBlueprint.convert options source with
  | .ok conversion => ⟨0, conversion.output, faultLines file conversion.errors⟩
  | .error (.faults errors) => ⟨(Failure.faults errors).code, [], faultLines file errors⟩
  | .error failure => ⟨failure.code, [], "ERROR: " ++ file ++ ": " ++ failure.message ++ ['\n']⟩

/-- The answer for a file. -/
def respondToFile (file : Text) (options : Options) : Except ReadError Text → Response
  | .ok source => respondToSource file options source
  | .error cause =>
    let failure := Failure.unreadable cause
    ⟨failure.code, [], "ERROR: " ++ file ++ ": " ++ failure.message ++ ['\n']⟩

/-- The answer to a request, with the contents of the file that it names. -/
def respond (request : Request) (source : Except ReadError Text) : Response :=
  match request with
  | .help => ⟨0, helpText, []⟩
  | .version => ⟨0, versionText, []⟩
  | .misuse cause => ⟨2, [], cause.message⟩
  | .convert file options => respondToFile file options source

end MakeBlueprint.CommandLine
