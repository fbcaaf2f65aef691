import Stencil.Text.Basic

/-!
# The log

Messages have a level. A logger passes on the messages up to its own level and writes each on a line
of its own, with or without the date, the program's name and the process id. A message may say where
it comes from, before an arrow; the logger can leave that part out.
-/

namespace Stencil

inductive LogLevel where
  | error | warning | info | debug
deriving DecidableEq, Repr

structure LogEntry where
  level : LogLevel
  message : Text
deriving DecidableEq, Repr

namespace LogLevel

/-- Errors have the lowest rank. -/
def rank : LogLevel → Nat
  | error => 1
  | warning => 2
  | info => 3
  | debug => 4

/-- The word for a level in a written line. -/
def word : LogLevel → Text
  | error => "SEVERE"
  | warning => "WARN"
  | info => "INFO"
  | debug => "DEBUG"

/-- The name by which a level is asked for. -/
def name : LogLevel → Text
  | error => "ERROR"
  | warning => "WARNING"
  | info => "INFO"
  | debug => "DEBUG"

def ofName? (name : Text) : Option LogLevel := [error, warning, info, debug].find? (·.name == name)

/-- What is said about a name that is none of a level. -/
def badName (name : Text) : Text :=
  "not a valid minimum log level: \"" ++ name ++ "\"! (Use ERROR, WARNING, INFO or DEBUG)"

end LogLevel

structure Logger where
  level : LogLevel
  processIds : Bool
  decorations : Bool
  stripCallSite : Bool
deriving DecidableEq, Repr

namespace Logger

/-- What lines are decorated with. -/
structure Decoration where
  date : Text
  program : Text
  processId : Text

/-- The level of a logger that is told none. -/
def defaultLevel : LogLevel := .info

/-- A logger that writes as a list of switches asks for. -/
def ofFormat (level : LogLevel) (format : Text) : Logger :=
  let has (switch : Text) : Bool := Text.hasInfix switch (Text.untilNul format)
  ⟨level, has "process_pids", !has "no_decorations", has "strip_call_site"⟩

/-- What separates where a message comes from and the message. -/
def arrow : Text := " --> "

/-- A message with where it comes from. -/
def withCallSite (site message : Text) : Text := "in " ++ site ++ arrow ++ message

/-- The line for a message. -/
def format (l : Logger) (d : Decoration) (level : LogLevel) (message : Text) : Text :=
  let processId : Text := if l.processIds then " (PID: " ++ d.processId ++ ")" else []
  let decorated : Text :=
    if l.decorations then
      d.date ++ " " ++ level.word ++ " " ++ d.program ++ ": " ++ message ++ processId
    else message
  let stripped := if l.stripCallSite then (Text.after? arrow decorated).getD decorated else decorated
  stripped ++ "\n"

/-- What is written for a message: its line, if its level is not above the logger's. -/
def write (l : Logger) (d : Decoration) (level : LogLevel) (message : Text) : List Text :=
  if level.rank ≤ l.level.rank then [l.format d level message] else []

end Logger

end Stencil
