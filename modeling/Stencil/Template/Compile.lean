import Stencil.Directive.Parser
import Stencil.Template.Interpolation
import Stencil.Document.Reader

/-!
# Compiling templates

Compiling turns the events of a document into those of a template. An element with directives
becomes one `sub` event, which holds its directives in the order of their rank and the events of the
element. Texts and attribute values are interpolated. The declarations of the directive namespace are
dropped.

While the events are read, the elements with directives that are still open form a stack of
carriers. An element that is never closed stays what it is, and its directives are forgotten.

Each directive that captures events has a slot of its own in the template, which depends only on the
element and on the kind of the directive.
-/

namespace Stencil

namespace Compile

/-- The template that is being compiled, and the directives that are known. -/
structure Target where
  id : Nat
  filename : Text
  registry : Registry

/-- An open element with directives. -/
structure Carrier where
  directives : List Directive
  /-- the events before the element, the last one first -/
  before : List Event
  /-- the open elements around this one, inside the next carrier -/
  level : Nat

structure State where
  /-- the declared prefixes of the directive namespace -/
  prefixes : List Text
  /-- the innermost carrier first -/
  carriers : List Carrier
  /-- the events since the innermost carrier was opened, the last one first -/
  output : List Event
  /-- the open elements inside the innermost carrier -/
  level : Nat
  filters : List Filter

def State.initial : State := ⟨[], [], [], 0, []⟩

def isDirective (a : Attribute) : Bool := a.name.uri == Template.directiveNamespace

/-- The slot of a directive of the element that starts at an index. -/
def slot (name : Text) (index : Nat) : Nat :=
  if name == DirectiveName.capture.spelling then 2 * index + 1 else 2 * index

/-- Reads a directive from an attribute of the element that starts at an index. -/
def readDirective (t : Target) (index : Nat) (p : Position) (a : Attribute) : Except SourceError DirectiveReading :=
  Directive.read t.registry a.name.base a.text (.ofPosition t.filename p) ⟨t.id, slot a.name.base index⟩

/-- Puts a directive in front of the first one of no lower rank. -/
def insertByRank (d : Directive) : List Directive → List Directive
  | [] => [d]
  | e :: es => if d.rank ≤ e.rank then d :: e :: es else e :: insertByRank d es

/-- Directives in the order of their rank; those of one rank stay in order. -/
def sortByRank (ds : List Directive) : List Directive := ds.foldr insertByRank []

/-- The attributes that are not directives, with their values interpolated. -/
def ordinaryAttributes (as : Attributes) : Attributes :=
  (as.filter (!isDirective ·)).map fun a => ⟨a.name, interpolate a.text⟩

/-- The events of an interpolated text. -/
def textEvents (p : Position) (t : Text) : List Event :=
  (interpolate t).map fun
    | .literal s => .text p s
    | .expression e => .expression p e

namespace State

/-- Appends an event. -/
def push (s : State) (e : Event) : State := { s with output := e :: s.output }

/-- Opens an element. -/
def openElement (s : State) (tag : Event) (readings : List DirectiveReading) : State :=
  let s := { s with filters := s.filters ++ readings.flatMap DirectiveReading.filters }
  if readings.isEmpty then { s.push tag with level := s.level + 1 }
  else
    let carrier : Carrier := ⟨sortByRank (readings.map (·.directive)), s.output, s.level⟩
    { s with carriers := carrier :: s.carriers, output := [tag], level := 0 }

/-- Closes an element. The one that opened the innermost carrier becomes a `sub` event. -/
def closeElement (s : State) (tag : Event) : State :=
  match s.carriers, s.level with
  | c :: cs, 0 =>
    let events := (tag :: s.output).reverse
    let position := (events.headD .blank).position
    { s with carriers := cs, output := .sub position c.directives events :: c.before, level := c.level }
  | _, level => { s.push tag with level := level - 1 }

/-- All events read so far; the open carriers are not taken into account. -/
def events (s : State) : List Event :=
  (s.carriers.foldl (fun output c => output ++ c.before) s.output).reverse

end State

/-- Reads one event, which has the given index. -/
def step (t : Target) (s : State) : Event × Nat → Except SourceError State
  | (.startNamespace p pre uri, _) =>
    .ok (if uri == Template.directiveNamespace then { s with prefixes := pre :: s.prefixes }
      else s.push (.startNamespace p pre uri))
  | (.endNamespace p pre, _) =>
    .ok (if s.prefixes.contains pre then { s with prefixes := s.prefixes.erase pre }
      else s.push (.endNamespace p pre))
  | (.startTag p name attributes, index) => do
    let readings ← (attributes.filter isDirective).mapM (readDirective t index p)
    return s.openElement (.startTag p name (ordinaryAttributes attributes)) readings
  | (.endTag p name, _) => .ok (s.closeElement (.endTag p name))
  | (.text p text, _) => .ok { s with output := (textEvents p text).reverse ++ s.output }
  | (e, _) => .ok (s.push e)

/-- The template of a list of events. -/
def template (t : Target) (events : List Event) : Except SourceError Template := do
  let s ← events.zipIdx.foldlM (step t) .initial
  return ⟨t.id, t.filename, s.events, [.evaluate], s.filters, [.tidy]⟩

/-- All directives of a list of events, as far as they can be read. -/
def readings (t : Target) (events : List Event) : List (Except SourceError DirectiveReading) :=
  events.zipIdx.flatMap fun
    | (.startTag p _ attributes, index) => (attributes.filter isDirective).map (readDirective t index p)
    | _ => []

/-- What is logged while directives are read, up to the first one that can't be. -/
def readingLog : List (Except SourceError DirectiveReading) → List LogEntry
  | .ok r :: rs => r.log ++ readingLog rs
  | _ => []

/-- What is logged about a template that has been compiled. -/
def report (t : Template) : LogEntry :=
  ⟨.debug, "compiled \"" ++ t.filename ++ "\" into " ++ Text.ofNat t.events.length ++ " top-level event(s) and "
    ++ Text.ofNat t.filters.length ++ " match filter(s)"⟩

end Compile

/-- A template or why there is none, and what was logged on the way. -/
structure Compilation where
  result : Except SourceError Template
  log : List LogEntry

open Compile in
/-- Compiles the events of a document. -/
def Compilation.ofEvents (t : Target) (events : List Event) : Compilation :=
  let log := readingLog (readings t events)
  match template t events with
  | .ok template => ⟨.ok template, log ++ [report template]⟩
  | .error e => ⟨.error e, log⟩

open Compile in
/-- Compiles a document. -/
def Compilation.ofDocument (t : Target) (document : List Callback) : Compilation :=
  match Document.read document with
  | .ok events => .ofEvents t events
  | .error e => ⟨.error ⟨.document e, .ofPosition t.filename e.position⟩, []⟩

end Stencil
