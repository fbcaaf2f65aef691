import Stencil.Config.Reader
import Stencil.Library.Settings
import Stencil.Xml.Writer

/-!
# The command line

A template is named on the command line, after an optional log level and configuration file and before
the variables. It is looked for on the search path of the configuration or else in the working
directory, expanded with the variables of the configuration and those of the command line, and
written.

A run is a function of the files and the arguments. It gives what is written to the standard output,
what is written to the standard error, and the exit code. Nothing is written to the standard output
unless the whole template could be expanded.
-/

namespace Stencil

namespace CommandLine

/-- Why a run fails. -/
inductive Failure where
  | usage
  | badLevel (name : Text)
  | badPair (argument : Text)
  | trailingEscape (argument : Text)
  | lookup (e : Config.LookupError)
  | config (e : Config.ReadError)
  | fault (f : Fault)
  /-- the run does not come to an end in the steps it is allowed -/
  | outOfFuel

/-- What a run writes, and its exit code. -/
structure Result where
  exitCode : UInt32
  output : Text
  errors : Text
deriving DecidableEq, Repr

/-! ## Usage -/

/-- How the program is used, the first line after its name and the log level. -/
def usageLines : List Text := [
  "[--config=ini_file] template_name [var1=value1 var2=value2 .. varN=valueN]",
  "Template names are resolved against the \"search_path\" of the [Loader] section of the config file or,",
  "if there is none, against the current working directory.  Entries of a [Variables] section seed the",
  "context.  For lists use semicolons to separate individual values.  If a value has an embedded semicolon",
  "use a backslash to escape it.  Also use a backslash to escape an embedded backslash.",
  "NB: Empty values are explicitly permitted!"]

/-- The usage message of a program; its lines are aligned after the program's name. -/
def usage (program : Text) : Text :=
  let lead : Text := "Usage: " ++ program ++ " "
  let lines := usageLines.map Text.trimWhite
  lead ++ "[--min-log-level=(ERROR|WARNING|INFO|DEBUG)] " ++ lines.headD [] ++ "\n"
    ++ lines.tail.flatMap fun l =>
      let line : Text := l ++ "\n"
      List.replicate lead.length (' ' : Byte) ++ line

/-- What is written about a failure. -/
def Failure.report (program : Text) : Failure → Text
  | usage => CommandLine.usage program
  | badLevel name => LogLevel.badName name ++ "\n"
  | badPair argument => "bad name/value pair: \"" ++ argument ++ "\"!\n"
  | trailingEscape argument => "name/value pair w/ trailing escape: \"" ++ argument ++ "\"!\n"
  | lookup e => e.message ++ "\n"
  | config e => "caught exception: " ++ e.message ++ "\n"
  | fault f => "caught exception: " ++ f.message ++ "\n"
  | outOfFuel => "out of steps\n"

/-! ## Variables -/

/-- Puts a byte in front of the first text. -/
def addByte (c : Byte) : List Text → List Text
  | t :: ts => (c :: t) :: ts
  | [] => [[c]]

/-- The texts separated by semicolons. A backslash takes the byte after it as it is. -/
def splitValue : Text → Option (List Text)
  | [] => some [[]]
  | c :: s =>
    if c == '\\' then
      match s with
      | [] => none
      | d :: r => (splitValue r).map (addByte d)
    else if c == ';' then (splitValue s).map ([] :: ·)
    else (splitValue s).map (addByte c)

/-- One text is a text, several are a list. -/
def valueOf : List Text → Value
  | [t] => .text t
  | ts => .list (ts.map .text)

/-- The name and value of an argument `name=value`. -/
def readPair (argument : Text) : Except Failure (Text × Value) :=
  match Text.indexOf? "=" argument with
  | none | some 0 => .error (.badPair argument)
  | some n =>
    match splitValue (argument.drop (n + 1)) with
    | some ts => .ok (argument.take n, valueOf ts)
    | none => .error (.trailingEscape argument)

/-- Binds the variables of arguments; a later one of the same name wins. -/
def bindPairs (arguments : List Text) (frame : Frame) : Except Failure Frame :=
  arguments.foldlM (fun f a => (readPair a).map fun (name, v) => f.bind name v) frame

/-- The section of a configuration with variables. -/
def variablesSection : Text := "Variables"

/-- The variables of a configuration. -/
def variablesOf (c : Config) : Frame :=
  (c.names variablesSection).foldl
    (fun f name => f.bind name (.text (c.textD variablesSection name []))) []

/-! ## Options -/

def levelOption : Text := "--min-log-level="

def configOption : Text := "--config="

/-- The value of the first argument if it is the given option, and the other arguments. -/
def takeOption (option : Text) (arguments : List Text) : Option Text × List Text :=
  match arguments with
  | [] => (none, [])
  | a :: rest => if option.isPrefixOf a then (some (a.drop option.length), rest) else (none, a :: rest)

/-- The library a configuration asks for, or one of the working directory. -/
def libraryOf (config? : Option Config) : Except Failure Library :=
  let workingDirectory : List Text := ["."]
  match config? with
  | none => .ok (.ofSearchPath workingDirectory true)
  | some c =>
    let result :=
      if (c.textD Library.defaultSection Library.searchPathKey []).isEmpty then
        (c.boolD Library.defaultSection Library.autoReloadKey true).map (Library.ofSearchPath workingDirectory)
      else Library.ofConfig c Library.defaultSection
    match result with
    | .ok l => .ok l
    | .error e => .error (.lookup e)

/-! ## Running -/

/-- What the arguments ask for. -/
structure Request where
  library : Library
  template : Text
  bindings : Frame

def readConfig (files : FileSystem) (name? : Option Text) : Except Failure (Option Config) :=
  match name? with
  | none => .ok none
  | some name =>
    match Config.read files Stream.ample name with
    | some (.ok c) => .ok (some c)
    | some (.error e) => .error (.config e)
    | none => .error .outOfFuel

/-- Reads the arguments after the log level. -/
def readRequest (files : FileSystem) (arguments : List Text) : Except Failure Request :=
  if arguments.isEmpty then .error .usage
  else do
    let (name?, arguments) := takeOption configOption arguments
    let config? ← readConfig files name?
    match arguments with
    | [] => .error .usage
    | template :: pairs =>
      let library ← libraryOf config?
      let bindings ← bindPairs pairs ((config?.map variablesOf).getD [])
      return ⟨library, template, bindings⟩

def Failure.ofStop : Stop → Failure
  | .fault f => fault f
  | .outOfFuel => outOfFuel

/-- Expands the template that was asked for. -/
def Request.expand (r : Request) (files : FileSystem) (registry : Registry) : Except Failure Text × List LogEntry :=
  let s := { Store.ofContext (.ofBase r.bindings) files with registry, library? := some r.library }
  match s.load r.library r.template [] with
  | (.error f, s) => (.error (.fault f), s.log)
  | (.ok t, s) =>
    let s := s.report .debug ("expanding \"" ++ t.filename ++ "\" with " ++ Text.ofNat r.bindings.length
      ++ " variable(s)")
    match t.render Stream.ample s with
    | (.ok text, s) => (.ok text, s.log)
    | (.error why, s) => (.error (.ofStop why), s.log)

/-- The lines of the messages that are not above a level. -/
def logText (level : LogLevel) (entries : List LogEntry) : Text :=
  (entries.filter (·.level.rank ≤ level.rank)).flatMap fun e => e.message ++ "\n"

/-- What is written after a failure. -/
def Result.ofFailure (program log : Text) (f : Failure) : Result := ⟨1, [], log ++ f.report program⟩

/-- Runs the program with the arguments after its name, at a log level unless they set one. It adds no
directives to those of its process. -/
def run (files : FileSystem) (registry : Registry) (program : Text) (level : LogLevel) (arguments : List Text) : Result :=
  let (name?, arguments) := takeOption levelOption arguments
  match name?, name?.bind LogLevel.ofName? with
  | some name, none => .ofFailure program [] (.badLevel name)
  | _, level? =>
    let level := level?.getD level
    match readRequest files arguments with
    | .error f => .ofFailure program [] f
    | .ok r =>
      match r.expand files registry with
      | (.ok text, log) => ⟨0, text, logText level log⟩
      | (.error f, log) => .ofFailure program (logText level log) f

end CommandLine

end Stencil
