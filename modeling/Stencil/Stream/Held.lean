import Stencil.Store
import Stencil.Value.Parts

/-!
# Streams that variables hold

A stream that is a value lives as long as something holds it: the expansion that reads it, or a variable. The
value of a variable may be the stream itself, a list or a dict that it is in, or the stream of a call that has
been passed it and has not begun. A stream that nothing holds any more is given up, and if it has a frame in
force, that is removed with everything above it.
-/

namespace Stencil

/-- The streams that a call has been passed, as long as it has not begun. -/
def Replay.streams : Replay → List Nat
  | waiting frame _ => Frame.streams frame
  | plain _ | running .. | finished => []

namespace Store

/-- The streams with what those among the first `n` of them have been passed, and so on. A call is passed
streams that were made before its own, so the last stream comes first. -/
def heldBelow (s : Store) : Nat → List Nat → List Nat
  | 0, ids => ids
  | n + 1, ids => heldBelow s n (if ids.contains n then (s.replay n).streams ++ ids else ids)

/-- The streams that variables hold. -/
def held (s : Store) : List Nat := s.heldBelow s.replays.size s.context.streams

/-- Gives a stream that is a value up. -/
def discard (s : Store) (id : Nat) : Store :=
  match s.replay id with
  | .running depth _ => (s.setReplay id .finished).releaseFrom depth
  | .plain _ | .waiting .. | .finished => s

/-- Gives up at most `n` of the streams, each of which no variable holds any more. With a frame, the variables
in it go too. -/
def discardUnheld (s : Store) : Nat → List Nat → Store
  | 0, _ => s
  | n + 1, ids =>
    match ids.find? fun id => !s.held.contains id with
    | some id => discardUnheld (s.discard id) n (ids.erase id)
    | none => s

end Store

end Stencil
