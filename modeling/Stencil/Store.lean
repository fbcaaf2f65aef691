import Stencil.Directive.Registry
import Stencil.Fault
import Stencil.Library.Basic
import Stencil.Log
import Stencil.Stream.Replay
import Stencil.Value.Host

/-!
# The store

The state an expansion works on: the context, the streams that are values, the events that
directives have captured, the library and its files, and the messages logged. Streams are shared
through their index; functions are told apart by a number.
-/

namespace Stencil

structure Store where
  context : Context
  /-- the streams that are values -/
  replays : Array Replay
  nextFunction : Nat
  nextTemplate : Nat
  /-- the events captured by `def` and `match` directives -/
  bodies : List (BodyId × List Event)
  files : FileSystem
  /-- the directives that hosts have added -/
  registry : Registry
  host : Host
  /-- the library that include elements refer to, while there is one -/
  library? : Option Library
  log : List LogEntry

namespace Store

/-- The functions that every expression knows have numbers of their own. -/
def firstFunction : Nat := 3

/-- A store in which nothing has happened yet. -/
def ofContext (context : Context) (files : FileSystem) : Store :=
  ⟨context, #[], firstFunction, 0, [], files, .empty, .empty, none, []⟩

/-! ## Streams that are values -/

/-- Makes a stream a value. -/
def newStream (s : Store) (r : Replay) : Value × Store :=
  (.stream s.replays.size, { s with replays := s.replays.push r })

/-- The stream at an index. -/
def replay (s : Store) (id : Nat) : Replay := s.replays[id]?.getD .finished

def setReplay (s : Store) (id : Nat) (r : Replay) : Store :=
  { s with replays := s.replays.setIfInBounds id r }

/-! ## Functions -/

/-- A new function, different from all others. -/
def newFunction (s : Store) (kind : FunctionKind) : Function × Store :=
  (⟨s.nextFunction, kind⟩, { s with nextFunction := s.nextFunction + 1 })

/-! ## Captured events -/

def captured? (s : Store) (id : BodyId) : Option (List Event) :=
  (s.bodies.find? (·.1 == id)).map (·.2)

/-- The captured events, none if nothing was captured. -/
def body (s : Store) (id : BodyId) : List Event := (s.captured? id).getD []

/-- Keeps captured events, unless there are some already. -/
def capture (s : Store) (id : BodyId) (events : List Event) : Store :=
  if (s.captured? id).isSome then s else { s with bodies := (id, events) :: s.bodies }

/-! ## Context and log -/

def pushFrame (s : Store) (frame : Frame) : Store := { s with context := s.context.push frame }

def bind (s : Store) (name : Text) (value : Value) : Store :=
  { s with context := s.context.set name value }

def releaseFrom (s : Store) (depth : Nat) : Store :=
  { s with context := s.context.releaseFrom depth }

def report (s : Store) (level : LogLevel) (message : Text) : Store :=
  { s with log := s.log ++ [⟨level, message⟩] }

def reportAll (s : Store) (entries : List LogEntry) : Store := { s with log := s.log ++ entries }

end Store

end Stencil
