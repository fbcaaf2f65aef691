import Stencil.Stream.Step

/-!
# Pulling events

A consumer pulls events one by one. `Stream.collect` pulls a number of them or all.

An expansion need not end: a template may call its own functions for ever. Fuel bounds the number of
steps; `ample` is more than any expansion that comes to an end will use.
-/

namespace Stencil

/-- What pulling comes to, with the stream and the store after it. -/
inductive Pulled where
  | event (e : Event) (stream : Stream) (store : Store)
  | ended (stream : Stream) (store : Store)
  | stopped (why : Stop) (stream : Stream) (store : Store)

/-- Events that were pulled, why there are no more of them if pulling failed, and the stream and the
store after them. -/
structure Collected where
  events : List Event
  stop? : Option Stop
  stream : Stream
  store : Store

namespace Stream

/-- Fuel for expansions that are expected to end. -/
def ample : Nat := Nat.pow 2 60

/-- Steps up to the next event. -/
def pull : Nat → Stream → Store → Pulled
  | 0, u, s => .stopped .outOfFuel u s
  | fuel + 1, u, s =>
    match step fuel u s with
    | .yield e u s => .event e u s
    | .skip u s => pull fuel u s
    | .done u s => .ended u s
    | .fail why u s => .stopped why u s

/-- Pulls events, added to those pulled before, the last one first. At most `limit?` are pulled if
that is a number. -/
def collectFrom (acc : List Event) : Nat → Option Nat → Stream → Store → Collected
  | _, some 0, u, s => ⟨acc.reverse, none, u, s⟩
  | 0, _, u, s => ⟨acc.reverse, some .outOfFuel, u, s⟩
  | fuel + 1, limit?, u, s =>
    match pull fuel u s with
    | .event e u s => collectFrom (e :: acc) fuel (limit?.map (· - 1)) u s
    | .ended u s => ⟨acc.reverse, none, u, s⟩
    | .stopped why u s => ⟨acc.reverse, some why, u, s⟩

/-- Pulls at most `limit?` events, or all. -/
def collect (fuel : Nat) (limit? : Option Nat) (u : Stream) (s : Store) : Collected := collectFrom [] fuel limit? u s

/-- Makes steps until all directives have been applied to a stream. -/
def settle : Nat → Stream → Store → Except Stop Stream × Store
  | 0, _, s => (.error .outOfFuel, s)
  | fuel + 1, .directed (d :: rest) read u, s =>
    match step fuel (.directed (d :: rest) read u) s with
    | .fail why _ s => (.error why, s)
    | .yield _ u s | .skip u s | .done u s => settle fuel u s
  | _ + 1, .directed [] _ u, s => (.ok u, s)
  | _ + 1, u, s => (.ok u, s)

end Stream

end Stencil
