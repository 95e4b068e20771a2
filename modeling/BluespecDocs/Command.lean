import BluespecDocs.Directory
import BluespecDocs.Markdown
import BluespecDocs.SelfCheck
import BluespecDocs.SettingLayers

/-!
The command line. Arguments are read into a request, and the request is carried out with a given way to
read files; what it prints and how it ends is the outcome.
-/

namespace BluespecDocs

/-- Why a text could not be published. -/
inductive Failure where
  | read (path : String) (cause : ReadError)
  | settings (cause : SettingsError)
  | write (cause : WriteError)
  | brokenSpan
deriving DecidableEq, Repr

namespace Failure

def message : Failure → String
  | read path cause => s!"failed to read {path}: {cause.message}"
  | settings cause => s!"invalid configuration: {cause.message}"
  | write cause => s!"failed to write output: {cause.message}"
  | brokenSpan => "a declaration lies outside of its source"

end Failure

/-- A way to read the text of the file at a path. -/
abbrev FileReader (m : Type → Type) := String → m (Except ReadError String)

namespace Document

/-- The text of the document of a file. The path shows in links exactly as it is given. -/
def publishFile [Monad m] (read : FileReader m) (settings : Settings) (path : String) :
    m (Except Failure String) := do
  match ← read path with
  | .error cause => return .error (.read path cause)
  | .ok source =>
    match publish? settings source path with
    | some text => return .ok text
    | none => return .error .brokenSpan

end Document

inductive UsageError where
  | nothingToDo | missingPath | pathWithTest
  | unexpectedArgument (arg : String)
  | unknownOption (option : String)
  | repeatedOption (option : String)
  | missingValue (option : String)
  | unwantedValue (option : String)
  | unknownFormat (name : String)
deriving DecidableEq, Repr

namespace UsageError

def message : UsageError → String
  | nothingToDo => "nothing to do"
  | missingPath => "a path is required"
  | pathWithTest => "a path cannot be used with --test"
  | unexpectedArgument arg => s!"unexpected argument '{arg}'"
  | unknownOption option => s!"unknown option '{option}'"
  | repeatedOption option => s!"'{option}' cannot be used more than once"
  | missingValue option => s!"'{option}' needs a value"
  | unwantedValue option => s!"'{option}' takes no value"
  | unknownFormat name => Format.unknownMessage name

end UsageError

/-- The options and the path among the arguments. -/
structure Arguments where
  path : Option String := none
  format : Option String := none
  settingsFile : Option String := none
  linkPrefix : Option String := none
  test : Bool := false
deriving DecidableEq, Repr

/-- What the arguments ask for. -/
inductive Request where
  | version | help
  | selfCheck
  | publish (path : String) (format settingsFile linkPrefix : Option String)
deriving DecidableEq, Repr

inductive ValueOption where
  | format | settingsFile | linkPrefix
deriving DecidableEq, Repr

namespace ValueOption

def name : ValueOption → String
  | format => "--format"
  | settingsFile => "--config"
  | linkPrefix => "--link-prefix"

end ValueOption

/-- What an argument before a double dash stands for. -/
inductive ArgumentForm where
  | endOfOptions
  | path (text : String)
  | test | version | help
  | value (option : ValueOption) (attached : Option String)
  | wrong (error : UsageError)
deriving DecidableEq, Repr

namespace ArgumentForm

/-- An option without a value, which must not have one attached. -/
def flag (option : String) (form : ArgumentForm) : Option String → ArgumentForm
  | none => form
  | some _ => wrong (.unwantedValue option)

/-- An option by its long name, with the text after an equals sign. -/
def ofLong (name : String) (attached : Option String) : ArgumentForm :=
  match name with
  | "format" => value .format attached
  | "config" => value .settingsFile attached
  | "link-prefix" => value .linkPrefix attached
  | "test" => flag "--test" test attached
  | "version" => flag "--version" version attached
  | "help" => flag "--help" help attached
  | _ => wrong (.unknownOption ("--" ++ name))

/-- The value attached to a short option; an equals sign in front of it is left out. -/
def attachedTo : List Char → Option String
  | [] => none
  | '=' :: cs => some (String.ofList cs)
  | cs => some (String.ofList cs)

/-- An option by its letter, with the text after it. -/
def ofShort (letter : Char) (rest : List Char) : ArgumentForm :=
  match letter with
  | 'f' => value .format (attachedTo rest)
  | 'c' => value .settingsFile (attachedTo rest)
  | 'V' => version
  | 'h' => help
  | _ => wrong (.unknownOption ("-" ++ String.singleton letter))

/-- The form of an argument. A single dash is a path. -/
def ofText (arg : String) : ArgumentForm :=
  match arg.toList with
  | ['-', '-'] => endOfOptions
  | '-' :: '-' :: cs =>
    match cs.span (· ≠ '=') with
    | (name, _ :: attached) => ofLong (String.ofList name) (some (String.ofList attached))
    | (name, []) => ofLong (String.ofList name) none
  | '-' :: letter :: rest => ofShort letter rest
  | _ => path arg

end ArgumentForm

namespace Arguments

/-- Whether an argument can be the value of the option before it. -/
def isValue (arg : String) : Bool :=
  match arg.toList with
  | '-' :: _ :: _ => false
  | _ => true

/-- Sets the path, of which there can be one. -/
def setPath (args : Arguments) (text : String) : Except UsageError Arguments :=
  match args.path with
  | none => .ok { args with path := some text }
  | some _ => .error (.unexpectedArgument text)

/-- Sets the value of an option that has none yet. -/
def setValue (args : Arguments) (option : ValueOption) (value : String) : Except UsageError Arguments :=
  let once (old : Option String) (changed : Arguments) : Except UsageError Arguments :=
    if old.isSome then .error (.repeatedOption option.name) else .ok changed
  match option with
  | .format =>
    if (Format.ofName? value).isSome then once args.format { args with format := some value }
    else .error (.unknownFormat value)
  | .settingsFile => once args.settingsFile { args with settingsFile := some value }
  | .linkPrefix => once args.linkPrefix { args with linkPrefix := some value }

def setTest (args : Arguments) : Except UsageError Arguments :=
  if args.test then .error (.repeatedOption "--test") else .ok { args with test := true }

def request (args : Arguments) : Except UsageError Request :=
  match args.test, args.path with
  | true, none => .ok .selfCheck
  | true, some _ => .error .pathWithTest
  | false, some path => .ok (.publish path args.format args.settingsFile args.linkPrefix)
  | false, none => .error .missingPath

/-- Reads arguments in order, on top of what was read before. Asking for the version or for help ends the
reading. -/
def readFrom (args : Arguments) : List String → Except UsageError Request
  | [] => args.request
  | arg :: rest =>
    match ArgumentForm.ofText arg with
    -- behind a double dash there are only paths
    | .endOfOptions => do (← rest.foldlM setPath args).request
    | .path text => do (← args.setPath text).readFrom rest
    | .test => do (← args.setTest).readFrom rest
    | .version => .ok .version
    | .help => .ok .help
    | .value option (some value) => do (← args.setValue option value).readFrom rest
    | .value option none =>
      match rest with
      | value :: rest =>
        -- `-f --config x` does not make `--config` the format
        if isValue value then do (← args.setValue option value).readFrom rest
        else .error (.missingValue option.name)
      | [] => .error (.missingValue option.name)
    | .wrong error => .error error

/-- What the arguments ask for. The option `--test` may be written with one dash. -/
def read (args : List String) : Except UsageError Request :=
  match args with
  | [] => .error .nothingToDo
  | _ => ({} : Arguments).readFrom (args.map fun arg => if arg = "-test" then "--test" else arg)

end Arguments

/-- How a command ends: its exit status and what it writes. -/
structure Outcome where
  exit : Nat
  stdout : String
  stderr : String
deriving DecidableEq, Repr

inductive Completion where
  | printed (text : String)
  | checked (mismatches : Nat) (text : String)
  | failed (failure : Failure)
  | misused (error : UsageError)
deriving DecidableEq, Repr

namespace Completion

/-- The exit status and output of a completion: status 1 for a failure and 2 for wrong arguments. -/
def outcome : Completion → Outcome
  | printed text => ⟨0, text, ""⟩
  | checked 0 text => ⟨0, text, ""⟩
  | checked (n + 1) text => ⟨1, text ++ s!"ERROR: Found {n + 1} errors\n", ""⟩
  | failed failure => ⟨1, "", s!"Error: {failure.message}\n"⟩
  | misused error => ⟨2, "", s!"error: {error.message}\n"⟩

end Completion

namespace Command

def versionText : String := "bsvdoc 0.1.0\n"

def helpText : String :=
  "Extract documentation from Bluespec SystemVerilog sources\n\n" ++
  "Usage: bsvdoc [--format <format>] [--config <file>] [--link-prefix <text>] <path>\n" ++
  "       bsvdoc --test\n"

/-- The name of a settings file with the extension `toml` added to its last part. A name that leads to the
directory itself or ends by going back has no such part. -/
def withExtension? (name : String) : Option String :=
  let parts := (Directory.names name).reverse.dropWhile fun part => part = "" ∨ part = "."
  if parts = [] ∨ parts.head? = some ".." then none
  else some ("/".intercalate parts.reverse ++ ".toml")

/-- Reads a settings file by its name, or by its name with the extension `toml` if there is no file of
the name itself. -/
def readSettings [Monad m] (read : FileReader m) (name : String) : m (Option String) := do
  match ← read name with
  | .ok content => return some content
  | .error .notUtf8 => return none
  | .error _ =>
    match withExtension? name with
    | some extended => return (← read extended).toOption
    | none => return none

/-- The layers that options give: a settings file, then single values. -/
def layers [Monad m] (read : FileReader m) (format settingsFile linkPrefix : Option String) :
    m (List Layer) := do
  let file ← match settingsFile with
    | some name => pure [Layer.file true (← readSettings read name)]
    | none => pure []
  let formats := format.toList.map fun name => Layer.override "output.format" (.str name)
  let prefixes := linkPrefix.toList.map fun text => Layer.override "render.link_prefix" (.str text)
  return file ++ formats ++ prefixes

/-- Publishes a file with the settings that options give, which are loaded first. -/
def publish [Monad m] (read : FileReader m) (path : String) (format settingsFile linkPrefix : Option String) :
    m Completion := do
  match Settings.load (← layers read format settingsFile linkPrefix) with
  | .error cause => return .failed (.settings cause)
  | .ok settings =>
    match ← Document.publishFile read settings path with
    | .ok text => return .printed text
    | .error failure => return .failed failure

def run [Monad m] (read : FileReader m) (args : List String) : m Completion :=
  match Arguments.read args with
  | .error error => return .misused error
  | .ok .version => return .printed versionText
  | .ok .help => return .printed helpText
  | .ok .selfCheck => return .checked SelfCheck.mismatches (String.join SelfCheck.reports)
  | .ok (.publish path format settingsFile linkPrefix) => publish read path format settingsFile linkPrefix

end Command

end BluespecDocs
