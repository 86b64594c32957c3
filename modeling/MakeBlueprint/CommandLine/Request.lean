import MakeBlueprint.Conversion.State

/-!
# Requests

What the arguments of the program ask for: its help, its version, the conversion of one file, or
nothing that makes sense.

* `Given.read` reads one argument after those before it. It ends the reading with a request when
  the argument decides what is asked for.
* `Request.ofArguments` is the request that all arguments make.
* `isStandardInput` tells the names of a file that stand for standard input.
-/

namespace MakeBlueprint.CommandLine

open Conversion (Options)

/-! ## Switches -/

/-- The options of the program. None of them takes a value. -/
inductive Switch where
  /-- Modules that are begun and never built are left out without a report. -/
  | allowUnclosed
  | help
  | version
  deriving DecidableEq, Repr

namespace Switch

/-- The long name of a switch. -/
def name : Switch → Text
  | .allowUnclosed => "allow-unclosed-module"
  | .help => "help"
  | .version => "version"

/-- The switch with a long name. -/
def ofName? (t : Text) : Option Switch :=
  [Switch.allowUnclosed, .help, .version].find? fun s => s.name == t

/-- The switch with a letter. -/
def ofLetter? : Char → Option Switch
  | 'h' => some .help
  | 'V' => some .version
  | _ => none

/-- A switch as it is written. -/
def text (s : Switch) : Text := "--" ++ s.name

end Switch

/-! ## Usage -/

/-- The arguments that a message shows. -/
inductive Usage where
  /-- All arguments that the program takes. -/
  | full
  /-- Some switches and the file. -/
  | only (switches : List Switch)
  deriving DecidableEq, Repr

/-- A usage as it is written. -/
def Usage.text : Usage → Text
  | .full => "[OPTIONS] <FILE>"
  | .only switches => switches.flatMap (fun s => s.text ++ [' ']) ++ "<FILE>"

/-- Arguments that make no sense. -/
inductive Misuse where
  /-- No file is named. -/
  | missingFile (given : List Switch)
  /-- The name of the file is empty. -/
  | emptyFile
  /-- An option that the program does not know. A file may have been meant. -/
  | unknownOption (option : Text) (usage : Usage)
  /-- A file after the file. -/
  | secondFile (file : Text)
  /-- A value of a switch. -/
  | unexpectedValue (s : Switch) (value : Text) (usage : Usage)
  /-- A switch that is given twice. -/
  | repeated (s : Switch)
  deriving DecidableEq, Repr

namespace Misuse

/-- What is wrong with the arguments. -/
def reason : Misuse → Text
  | .missingFile _ => "the following required arguments were not provided:\n  <FILE>"
  | .emptyFile => "a value is required for '<FILE>' but none was supplied"
  | .unknownOption option _ =>
    "unexpected argument '" ++ option ++ "' found\n\n  tip: to pass '" ++ option ++
      "' as a value, use '-- " ++ option ++ "'"
  | .secondFile file => "unexpected argument '" ++ file ++ "' found"
  | .unexpectedValue s value _ =>
    "unexpected value '" ++ value ++ "' for '" ++ s.text ++ "' found; no more were expected"
  | .repeated s => "the argument '" ++ s.text ++ "' cannot be used multiple times"

/-- The usage that a message shows. -/
def usage? : Misuse → Option Usage
  | .missingFile given => some (.only given)
  | .emptyFile => none
  | .unknownOption _ usage | .unexpectedValue _ _ usage => some usage
  | .secondFile _ | .repeated _ => some .full

/-- The message for arguments that make no sense. -/
def message (m : Misuse) : Text :=
  let usage : Text := match m.usage? with
    | some usage => "\n\nUsage: androidmk " ++ usage.text
    | none => []
  "error: " ++ m.reason ++ usage ++ "\n\nFor more information, try '--help'.\n"

end Misuse

/-! ## Arguments -/

/-- What a user asks for. -/
inductive Request where
  | help
  | version
  /-- A file to convert. -/
  | convert (file : Text) (options : Options)
  | misuse (cause : Misuse)
  deriving DecidableEq, Repr

/-- What the arguments so far have said. -/
structure Given where
  allowsUnclosed : Bool := false
  file : Option Text := none
  /-- Whether options have come to an end. -/
  isPlain : Bool := false
  deriving DecidableEq, Repr

namespace Given

/-- The switches that have been given. -/
def switches (g : Given) : List Switch := if g.allowsUnclosed then [.allowUnclosed] else []

/-- The usage that is shown for an option that the program does not know. Behind other arguments it
repeats those. -/
def usage (g : Given) : Usage :=
  if g.switches.isEmpty && g.file.isNone then .full else .only g.switches

/-- The usage that is shown for a switch with a value. -/
def usageOf (g : Given) (s : Switch) : Usage :=
  .only (if s ∈ g.switches then g.switches else g.switches ++ [s])

/-- Takes a switch. An empty name that stands before it comes first. -/
def turnOn (g : Given) (s : Switch) : Except Request Given :=
  if g.file = some [] then .error (.misuse .emptyFile)
  else
    match s with
    | .help => .error .help
    | .version => .error .version
    | .allowUnclosed =>
      if g.allowsUnclosed then .error (.misuse (.repeated s))
      else .ok { g with allowsUnclosed := true }

/-- Reads what is behind the two dashes of a long option. -/
def readLong (g : Given) (option : Text) : Except Request Given :=
  let name := option.takeWhile (· != '=')
  match Switch.ofName? name, option.dropWhile (· != '=') with
  | none, _ => .error (.misuse (.unknownOption ("--" ++ name) g.usage))
  | some s, [] => g.turnOn s
  | some s, _ :: value => .error (.misuse (.unexpectedValue s value (g.usageOf s)))

/-- Reads the first letter behind the dash of a short option. No letter behind it is read, because
every letter that is known decides the request. -/
def readLetter (g : Given) (letter : Char) : Except Request Given :=
  match Switch.ofLetter? letter with
  | some s => g.turnOn s
  | none => .error (.misuse (.unknownOption ['-', letter] .full))

/-- Reads the name of a file. -/
def readFile (g : Given) (file : Text) : Except Request Given :=
  if g.file.isSome then .error (.misuse (.secondFile file)) else .ok { g with file := some file }

/-- Reads an argument. Behind two dashes all arguments are files. -/
def read (g : Given) (argument : Text) : Except Request Given :=
  if g.isPlain then g.readFile argument
  else
    match argument with
    | ['-', '-'] => .ok { g with isPlain := true }
    | '-' :: '-' :: option => g.readLong option
    | '-' :: letter :: _ => g.readLetter letter
    | _ => g.readFile argument

/-- The request at the end of the arguments. -/
def request (g : Given) : Request :=
  match g.file with
  | none => .misuse (.missingFile g.switches)
  | some [] => .misuse .emptyFile
  | some file => .convert file ⟨!g.allowsUnclosed⟩

end Given

/-- The request that arguments make. They are read from left to right, and the first that decides
the request wins. -/
def Request.ofArguments (arguments : List Text) : Request :=
  match arguments.foldlM Given.read {} with
  | .ok g => g.request
  | .error request => request

/-! ## Files -/

/-- Whether a file is standard input. Its name is a dash; a slash behind it names the same place,
and so does every step to the directory itself. -/
def isStandardInput (file : Text) : Bool :=
  match Text.split (· == '/') file with
  | first :: steps => first == ['-'] && steps.all fun step => step == [] || step == ['.']
  | [] => false

end MakeBlueprint.CommandLine
