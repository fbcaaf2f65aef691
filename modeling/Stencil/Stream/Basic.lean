import Stencil.Stream.Held

/-!
# Streams of events

A stream is what is left of a lazy expansion: each constructor is one way of producing events, most
of them from those of another stream, with all that it remembers between two events. What a stream
does is said by `Stream.step`; here are the states, and how filters and templates become streams.

A stream that is left before its end may have frames in force. `Stream.close` removes those that it has
pushed itself; `Stream.giveUp` also gives up the streams that it has been reading, unless variables hold
them.
-/

namespace Stencil

/-- How far the replacement of an element's content has come. -/
inductive ContentPhase where
  | start
  /-- the expression comes next -/
  | expression (position : Position)
  /-- the last event of the element is looked for -/
  | last (latest? : Option Event)

/-- How far the removal of an element's tags has come. -/
inductive StripPhase where
  | untested
  /-- the first event is dropped next -/
  | first
  /-- the second event is held back next -/
  | second
  /-- an event is held back, as it may be the last one -/
  | holding (e : Event)

/-- An include element that is being read. -/
structure Inclusion where
  position : Position
  attributes : Attributes
  /-- the open elements, the include element among them -/
  depth : Nat
  inFallback : Bool
  /-- the content of the fallback, the last event first, if there is one -/
  fallback? : Option (List Event)

inductive Stream where
  | replay (r : Replay)
  /-- a stream that is a value -/
  | shared (id : Nat)
  /-- one stream after another; the first one is given up at its end -/
  | append (first rest : Stream)
  /-- nothing more, but what the stream has in force stays -/
  | ended (source : Stream)
  /-- an element to be repeated for each item -/
  | loop (targets : List Text) (items : Expression) (source : Stream)
  /-- the body of a loop is read, its last event first -/
  | gathering (targets : List Text) (items : List Value) (body : List Event) (source : Stream)
  /-- a loop; its body is missing if it could not be read. In an iteration, the depth of its frame and
  the rest of the body -/
  | looping (targets : List Text) (items : List Value) (body? : Option (List Event))
      (current? : Option (Nat × List Event)) (source : Stream)
  /-- an element whose first tag gets attributes -/
  | attributes (e : Expression) (source : Stream)
  /-- an element whose content is replaced -/
  | content (e : Expression) (phase : ContentPhase) (source : Stream)
  /-- an element that is replaced -/
  | replaced (e : Expression) (source : Stream)
  /-- an element whose tags are removed -/
  | strip (test : Option Expression) (phase : StripPhase) (source : Stream)
  /-- an element its directives are still to be applied to, the first one first, and what was read of
  it so far, the last event first -/
  | directed (directives : List Directive) (read : List Event) (source : Stream)
  /-- expressions are computed -/
  | evaluated (source : Stream)
  /-- texts are merged and tidied: an event that comes next, and the text so far with its position -/
  | tidied (pending? : Option Event) (text? : Option (Position × Text)) (source : Stream)
  /-- elements on a path are substituted; the open elements are listed from the inside out -/
  | substituted (path : Path) (body : BodyId) (openElements : List Event) (source : Stream)
  /-- an element on the path is read up to its end: the elements open in it, and its events, the last
  one first -/
  | matching (path : Path) (body : BodyId) (openElements : List Event) (position : Position)
      (depth : Nat) (matched : List Event) (source : Stream)
  /-- include elements are replaced; the declared prefixes of their namespace -/
  | included (filename : Text) (prefixes : List Text) (source : Stream)
  /-- an include element is read up to its end -/
  | including (filename : Text) (prefixes : List Text) (element : Inclusion) (source : Stream)
  /-- what replaces an include element, its lines indented -/
  | inserting (filename : Text) (prefixes : List Text) (indentation : Nat) (inserted source : Stream)
  /-- the directives of a template are expanded; the position reached -/
  | expanded (template : Template) (last : Position) (source : Stream)

namespace Stream

def empty : Stream := replay (.plain [])

def ofEvents (events : List Event) : Stream := replay (.plain events)

end Stream

/-! ## Filters and templates -/

/-- What a filter makes of a stream. -/
def Filter.apply (f : Filter) (s : Stream) : Stream :=
  match f with
  | evaluate => .evaluated s
  | tidy => .tidied none none s
  | substitute path body => .substituted path body [] s
  | inclusion filename => .included filename [] s

namespace Stream

/-- A stream after filters, the first one applied first. -/
def filtered (fs : List Filter) (s : Stream) : Stream := fs.foldl (fun s f => f.apply s) s

end Stream

namespace Template

/-- The events of a template after the filters that come before the expansion. -/
def source (t : Template) : Stream := .filtered t.expansionFilters (.ofEvents t.events)

/-- The expansion of a template. -/
def expansion (t : Template) : Stream := .filtered t.postFilters (.expanded t .zero t.source)

end Template

/-! ## Giving a stream up -/

namespace Stream

/-- Removes the frames that a stream has pushed and that are in force. A stream that is a value is not given up
with the one that reads it. -/
def close : Stream → Store → Store
  | replay r, s => { s with context := r.close s.context }
  | shared _, s => s
  | append first rest, s => rest.close (first.close s)
  | looping _ _ _ current? source, s =>
    source.close (match current? with
      | some (depth, _) => s.releaseFrom depth
      | none => s)
  | inserting _ _ _ inserted source, s => source.close (inserted.close s)
  | ended u, s | loop _ _ u, s | gathering _ _ _ u, s | attributes _ u, s | content _ _ u, s
  | replaced _ u, s | strip _ _ u, s | directed _ _ u, s | evaluated u, s | tidied _ _ u, s
  | substituted _ _ _ u, s | matching _ _ _ _ _ _ u, s | included _ _ u, s | including _ _ _ u, s
  | expanded _ _ u, s => u.close s

/-- The streams that are values and are being read, in all places. -/
def reads : Stream → List Nat
  | replay _ => []
  | shared id => [id]
  | append first rest => first.reads ++ rest.reads
  | inserting _ _ _ inserted u => inserted.reads ++ u.reads
  | ended u | loop _ _ u | gathering _ _ _ u | looping _ _ _ _ u | attributes _ u | content _ _ u | replaced _ u
  | strip _ _ u | directed _ _ u | evaluated u | tidied _ _ u | substituted _ _ _ u | matching _ _ _ _ _ _ u
  | included _ _ u | including _ _ _ u | expanded _ _ u => u.reads

/-- Ends the expansion that a stream is what is left of: its frames are removed, and of the streams it has been
reading those are given up that no variable holds. -/
def giveUp (u : Stream) (s : Store) : Store := (u.close s).discardUnheld u.reads.length u.reads

end Stream

end Stencil
