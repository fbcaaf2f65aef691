import Stencil.Context

/-!
# Replays

A replay yields a list of events. A framed replay has a frame pushed while it does: from its first
event until it has been asked for more than it has.
-/

namespace Stencil

inductive Replay where
  | plain (rest : List Event)
  /-- the frame has not been pushed yet -/
  | waiting (frame : Frame) (events : List Event)
  /-- the frame is in force, at the given depth -/
  | running (depth : Nat) (rest : List Event)
  | finished

namespace Replay

/-- The next event, if there is one, what is left, and the context after it. -/
def next : Replay → Context → Option Event × Replay × Context
  | plain [], c => (none, plain [], c)
  | plain (e :: es), c => (some e, plain es, c)
  | waiting frame [], c => (none, finished, (c.push frame).releaseFrom (c.depth + 1))
  | waiting frame (e :: es), c => (some e, running (c.depth + 1) es, c.push frame)
  | running depth [], c => (none, finished, c.releaseFrom depth)
  | running depth (e :: es), c => (some e, running depth es, c)
  | finished, c => (none, finished, c)

/-- Removes the frame of a replay if it is in force. -/
def close : Replay → Context → Context
  | running depth _, c => c.releaseFrom depth
  | plain _, c | waiting .., c | finished, c => c

end Replay

end Stencil
