import Stencil.Stream.Pull
import Stencil.Xml.Escape

/-!
# Writing XML

A writer is fed events one after the other and gives the text to be written for each. A start tag is
held back until the next event is known, as an element without content is written as a single tag.
Namespaces that are declared are written in the next start tag.

Expressions, elements with directives and attributes that are still to be computed have no written
form. What could be written before such a fault is given too.
-/

namespace Stencil

namespace Xml

/-- A start tag that is held back. -/
structure HeldTag where
  position : Position
  name : QName
  attributes : Attributes

structure Writer where
  /-- prefixes and URIs declared since the last start tag that was written -/
  namespaces : List (Text × Text)
  held? : Option HeldTag

/-- What is written, the writer after it, and what is wrong if something is. -/
structure Written where
  text : Text
  writer : Writer
  fault? : Option Fault

/-- A writer that has written nothing. -/
def Writer.fresh : Writer := ⟨[], none⟩

/-! ## Pieces of markup -/

def quotedValue (t : Text) : Text := "=\"" ++ escapeAttribute t ++ "\""

def declaration : Text × Text → Text
  | (pre, uri) =>
    let name : Text := if pre.isEmpty then " xmlns" else " xmlns:" ++ pre
    name ++ quotedValue uri

/-- The attributes up to the first one that can't be written. -/
def writtenAttributes (p : Position) : Attributes → Text × Option Fault
  | [] => ([], none)
  | a :: as =>
    if a.isLiteral then
      let (t, fault?) := writtenAttributes p as
      (" " ++ a.name.qualified ++ quotedValue a.text ++ t, fault?)
    else ([], some (.unevaluated a.name.qualified p))

def endTag (name : QName) : Text := "</" ++ name.qualified ++ ">"

def comment (t : Text) : Text := "<!--" ++ t ++ "-->"

def instruction (target data : Text) : Text :=
  let rest : Text := if data.isEmpty then [] else " " ++ data
  "<?" ++ target ++ rest ++ "?>"

def doctype (name publicId systemId : Text) : Text :=
  let quoted (t : Text) : Text := " \"" ++ t ++ "\""
  let system : Text := if systemId.isEmpty then [] else quoted systemId
  let ids : Text :=
    if !publicId.isEmpty then " PUBLIC" ++ quoted publicId ++ system
    else if systemId.isEmpty then [] else " SYSTEM" ++ system
  "<!DOCTYPE " ++ name ++ ids ++ ">"

/-! ## Feeding events -/

namespace Writer

/-- Writes a start tag; an empty element needs no end tag. -/
def startTag (w : Writer) (tag : HeldTag) (isEmpty : Bool) : Written :=
  let declarations := w.namespaces.flatMap declaration
  let (attributes, fault?) := writtenAttributes tag.position tag.attributes
  let close : Text := if fault?.isSome then [] else if isEmpty then "/>" else ">"
  ⟨"<" ++ tag.name.qualified ++ declarations ++ attributes ++ close, ⟨[], none⟩, fault?⟩

/-- Writes an event while no start tag is held back. -/
def write (w : Writer) (e : Event) : Written :=
  match e with
  | .startTag p name attributes => ⟨[], { w with held? := some ⟨p, name, attributes⟩ }, none⟩
  | .endTag _ name => ⟨endTag name, w, none⟩
  | .text _ t => ⟨escape t, w, none⟩
  | .startNamespace _ pre uri => ⟨[], { w with namespaces := w.namespaces ++ [(pre, uri)] }, none⟩
  | .endNamespace .. => ⟨[], w, none⟩
  | .comment _ t => ⟨comment t, w, none⟩
  | .instruction _ target data => ⟨instruction target data, w, none⟩
  | .doctype _ name publicId systemId => ⟨doctype name publicId systemId, w, none⟩
  | e => ⟨[], w, some (.unwritable e.kind e.position)⟩

/-- Writes the start tag that is held back, if there is one. -/
def release (w : Writer) (isEmpty : Bool) : Written :=
  match w.held? with
  | some tag => w.startTag tag isEmpty
  | none => ⟨[], w, none⟩

/-- Writes an event after the start tag that was held back; the two may be one tag. -/
def feed (w : Writer) (e : Event) : Written :=
  if w.held?.isSome && e.isEnd then w.release true
  else
    let r := w.release false
    match r.fault? with
    | some _ => r
    | none =>
      let q := r.writer.write e
      { q with text := r.text ++ q.text }

/-- Writes what is held back at the end of the events. -/
def finish (w : Writer) : Written := w.release false

/-- Forgets a start tag that is held back. -/
def abandon (w : Writer) : Writer := { w with held? := none }

end Writer

/-! ## Writing streams -/

/-- The text written for a stream, why writing stopped if it did, and the writer, the stream and the
store afterwards. -/
structure Rendering where
  text : Text
  stop? : Option Stop
  writer : Writer
  stream : Stream
  store : Store

/-- Pulls a stream to its end and writes its events; `pieces` was written before, the last piece
first. -/
def renderFrom (pieces : List Text) : Nat → Writer → Stream → Store → Rendering
  | 0, w, u, s => ⟨pieces.reverse.flatten, some .outOfFuel, w.abandon, u, s⟩
  | fuel + 1, w, u, s =>
    match u.pull fuel s with
    | .event e u s =>
      let r := w.feed e
      match r.fault? with
      | none => renderFrom (r.text :: pieces) fuel r.writer u s
      | some f => ⟨(r.text :: pieces).reverse.flatten, some (.fault f), r.writer.abandon, u, s⟩
    | .ended u s =>
      let r := w.finish
      ⟨(r.text :: pieces).reverse.flatten, r.fault?.map .fault, r.writer.abandon, u, s⟩
    | .stopped why u s => ⟨pieces.reverse.flatten, some why, w.abandon, u, s⟩

def render (fuel : Nat) (w : Writer) (u : Stream) (s : Store) : Rendering := renderFrom [] fuel w u s

end Xml

/-- The text of a template: its expansion, written as XML. -/
def Template.render (fuel : Nat) (t : Template) (s : Store) : Except Stop Text × Store :=
  let r := Xml.render fuel .fresh t.expansion s
  let s := r.stream.giveUp r.store
  match r.stop? with
  | none => (.ok r.text, s)
  | some why => (.error why, s)

end Stencil
