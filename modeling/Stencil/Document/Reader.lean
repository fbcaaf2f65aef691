import Stencil.Document.Callback

/-!
# From callbacks to events

An event starts where the callback before it left off. Runs of character data become one text event,
at the place of the first non-empty piece; the namespaces an element declares surround its tags.

All callbacks are read even after an error. Then the first error that was reported is the answer, or
that the document is not well-formed. A reader can read several documents one after the other; of
the earlier ones it keeps only where the last error was.
-/

namespace Stencil

/-- Why a document was refused, and where. -/
structure DocumentError where
  message : Text
  position : Position
deriving DecidableEq, Repr

namespace Document

/-- What is known in the middle of a document. -/
structure State where
  /-- where the last callback left off -/
  last : Position
  pendingText : Text
  pendingPosition : Position
  /-- the prefixes declared by each open element, the innermost element first -/
  declared : List (List Text)
  /-- the first error: its message and place -/
  error? : Option (Text × Position)
  wellFormed : Bool

def State.initial : State := ⟨⟨1, 0⟩, [], .zero, [], none, true⟩

namespace State

/-- The text event that is due, if any. -/
def flush (s : State) : List Event × State :=
  if s.pendingText.isEmpty then ([], s)
  else ([.text s.pendingPosition s.pendingText], { s with pendingText := [] })

/-- Ends the pending text, then gives the events that `make` builds at the place where the last
callback left off. -/
def emit (s : State) (place : Place) (make : Position → List Event) : List Event × State :=
  let (events, s) := s.flush
  (events ++ make s.last, { s with last := place.toPosition })

/-- The longest error message, in bytes. -/
def longestMessage : Nat := 1023

/-- Keeps the first error. -/
def record (s : State) (place : Place) (message : Text) : State :=
  match s.error? with
  | some _ => s
  | none =>
    let text := Text.trimWhite ((Text.untilNul message).take longestMessage)
    { s with error? := some (text, place.toPosition) }

end State

/-- The attributes of a start tag; of two with the same name the later value stays. -/
def attributes (raw : List RawAttribute) : Attributes :=
  raw.foldl (fun as a => as.setText a.name.toQName a.value) ([] : Attributes)

/-- The events of one callback. -/
def step (s : State) : Callback → List Event × State
  | .startElement place name namespaces raw =>
    let prefixes := namespaces.map fun n => Text.ofRaw n.pre?
    let (events, s) := s.emit place fun p =>
      namespaces.map (fun n => Event.startNamespace p (Text.ofRaw n.pre?) (Text.ofRaw n.uri?))
        ++ [.startTag p name.toQName (attributes raw)]
    (events, { s with declared := prefixes :: s.declared })
  | .endElement place name =>
    let (events, s) := s.emit place fun p =>
      .endTag p name.toQName :: ((s.declared.headD []).reverse.map (Event.endNamespace p))
    (events, { s with declared := s.declared.tail })
  | .characters place text =>
    let position := if s.pendingText.isEmpty then s.last else s.pendingPosition
    ([], { s with
      last := place.toPosition, pendingText := s.pendingText ++ text, pendingPosition := position })
  | .comment place text? => s.emit place fun p => [.comment p (Text.ofRaw text?)]
  | .instruction place target? data? =>
    s.emit place fun p => [.instruction p (Text.ofRaw target?) (Text.ofRaw data?)]
  | .doctype place name? publicId? systemId? =>
    s.emit place fun p => [.doctype p (Text.ofRaw name?) (Text.ofRaw publicId?) (Text.ofRaw systemId?)]
  | .error place message => ([], s.record place message)
  | .fatal place message => ([], { s.record place message with wellFormed := false })
  | .malformed => ([], { s with wellFormed := false })

/-- The events of a list of callbacks, the text after the last one included. -/
def run (s : State) : List Callback → List Event × State
  | [] => s.flush
  | c :: cs =>
    let (events, s) := step s c
    let (more, s) := run s cs
    (events ++ more, s)

/-- A reader of documents remembers where the last error was. -/
structure Reader where
  errorPosition : Position

def Reader.fresh : Reader := ⟨.zero⟩

/-- What is said about a malformed document without a message. -/
def notWellFormed : Text := "not well-formed"

/-- The events of a document, or why it is refused. -/
def Reader.read (r : Reader) (document : List Callback) : Except DocumentError (List Event) × Reader :=
  let (events, s) := run .initial document
  match s.error? with
  | some (message, position) =>
    (.error ⟨if message.isEmpty then notWellFormed else message, position⟩, ⟨position⟩)
  | none =>
    if s.wellFormed then (.ok events, r) else (.error ⟨notWellFormed, r.errorPosition⟩, r)

/-- The events of a document, read by a new reader. -/
def read (document : List Callback) : Except DocumentError (List Event) :=
  (Reader.fresh.read document).1

end Document

end Stencil
