import Stencil.Proofs.Stream.Faithful
import Stencil.Proofs.Stream.Scope

/-!
# What a store keeps

A store keeps events for later: captured bodies, streams that are values, and what functions select from. If all of
them have a property, and the functions at hand are from a stock that suits it, this stays so while streams are read
and given up, directives capture events and expressions are evaluated (`Expression.eval_keeps`).
-/

namespace Stencil

variable {E : Event → Prop} {k : Stock}

/-- The stock has the functions that every expression knows and all streams, and its functions select events with
the property. -/
structure Stock.Suits (k : Stock) (E : Event → Prop) : Prop where
  builtin : ∀ {id kind}, kind = .length ∨ kind = .text ∨ kind = .range ∨ kind = .defined → k.function ⟨id, kind⟩
  stream : ∀ id, k.stream id
  select : ∀ {f matched}, k.function f → f.kind = .select matched → ∀ path, ∀ e ∈ Path.select path matched, E e

/-- All events of the replay have the property, and its frame is made from the stock. -/
def Replay.Keeps (E : Event → Prop) (k : Stock) : Replay → Prop
  | plain es | running _ es => ∀ e ∈ es, E e
  | waiting frame es => Entries.From k frame ∧ ∀ e ∈ es, E e
  | finished => True

/-- All events that the store keeps have the property, and its context is made from the stock. -/
structure Store.Keeps (E : Event → Prop) (k : Stock) (s : Store) : Prop where
  context : s.context.From k
  bodies : ∀ b es, s.captured? b = some es → ∀ e ∈ es, E e
  replay : ∀ id, (s.replay id).Keeps E k

/-- A replay yields what it keeps. -/
theorem Replay.Keeps.next {r : Replay} {c : Context} (h : r.Keeps E k) (made : c.From k) :
    (∀ e ∈ (r.next c).1, E e) ∧ (r.next c).2.1.Keeps E k ∧ (r.next c).2.2.From k := by
  cases r with
  | plain es =>
    cases es with
    | nil => exact ⟨by simp [Replay.next], h, made⟩
    | cons e es =>
      obtain ⟨first, rest⟩ := List.forall_mem_cons.1 h
      exact ⟨by simp [Replay.next, first], rest, made⟩
  | waiting frame es =>
    obtain ⟨bound, events⟩ := h
    cases es with
    | nil => exact ⟨by simp [Replay.next], trivial, (made.push bound).releaseFrom⟩
    | cons e es =>
      obtain ⟨first, rest⟩ := List.forall_mem_cons.1 events
      exact ⟨by simp [Replay.next, first], rest, made.push bound⟩
  | running depth es =>
    cases es with
    | nil => exact ⟨by simp [Replay.next], trivial, made.releaseFrom⟩
    | cons e es =>
      obtain ⟨first, rest⟩ := List.forall_mem_cons.1 h
      exact ⟨by simp [Replay.next, first], rest, made⟩
  | finished => exact ⟨by simp [Replay.next], trivial, made⟩

namespace Store

variable {s : Store}

namespace Keeps

theorem body (h : s.Keeps E k) (b : BodyId) : ∀ e ∈ s.body b, E e := by
  unfold Store.body
  cases found : s.captured? b with
  | none => simp
  | some es => exact h.bodies b es found

theorem withContext (h : s.Keeps E k) {c : Context} (made : c.From k) : Keeps E k { s with context := c } :=
  ⟨made, h.bodies, h.replay⟩

theorem numbered (h : s.Keeps E k) (n : Nat) : Keeps E k { s with nextFunction := n } :=
  ⟨h.context, h.bodies, h.replay⟩

theorem pushFrame (h : s.Keeps E k) {frame : Frame} (made : Entries.From k frame) : (s.pushFrame frame).Keeps E k :=
  h.withContext (h.context.push made)

theorem releaseFrom (h : s.Keeps E k) (depth : Nat) : (s.releaseFrom depth).Keeps E k :=
  h.withContext h.context.releaseFrom

theorem setReplay (h : s.Keeps E k) (id : Nat) {r : Replay} (kept : r.Keeps E k) : (s.setReplay id r).Keeps E k := by
  refine ⟨h.context, h.bodies, fun j => ?_⟩
  by_cases there : id < s.replays.size
  · rw [replay_setReplay r there]
    split
    · exact kept
    · exact h.replay j
  · rw [setReplay_absent r there]
    exact h.replay j

theorem newStream (h : s.Keeps E k) {r : Replay} (kept : r.Keeps E k) : (s.newStream r).2.Keeps E k := by
  refine ⟨h.context, h.bodies, fun j => ?_⟩
  unfold Store.newStream Store.replay
  dsimp only
  rw [Array.getElem?_push]
  split
  · exact kept
  · exact h.replay j

theorem capture (h : s.Keeps E k) (b : BodyId) {es : List Event} (kept : ∀ e ∈ es, E e) : (s.capture b es).Keeps E k := by
  unfold Store.capture
  split
  · exact h
  · refine ⟨h.context, fun b' es' found => ?_, h.replay⟩
    unfold captured? at found
    rw [List.find?_cons] at found
    split at found
    · cases found
      exact kept
    · exact h.bodies b' es' found

theorem close (h : s.Keeps E k) (u : Stream) : (u.close s).Keeps E k :=
  Stream.close_keeps (P := Store.Keeps E k) (fun _ d h => h.releaseFrom d) u h

end Keeps

end Store

/-! ## Evaluation -/

open Eval

/-- Functions make streams of events that are kept already. -/
theorem allows_keeps (suits : k.Suits E) : Allows k (Same (Store.Keeps E k)) where
  context := by
    rintro s _ ⟨rfl, h⟩
    exact ⟨rfl, h.context⟩
  host := fun r => congrArg Store.host r.1
  counter := by
    rintro s _ ⟨rfl, h⟩
    exact ⟨rfl, rfl, h.numbered _⟩
  builtin := suits.builtin
  template := by
    rintro s _ f signature body frame ⟨rfl, h⟩ - - bound
    exact ⟨rfl, suits.stream _, rfl, h.newStream ⟨bound, h.body body⟩⟩
  select := by
    rintro s _ f matched path ⟨rfl, h⟩ made kind
    exact ⟨rfl, suits.stream _, rfl, h.newStream (suits.select made kind path)⟩

variable {fuel : Nat} {s r : Store}

theorem Expression.eval_keeps (suits : k.Suits E) {e : Expression} {v : Value} (h : s.Keeps E k)
    (result : e.eval fuel s = .ok (v, r)) : r.Keeps E k ∧ v.From k :=
  (e.eval_simulates (allows_keeps suits) (Nat.le_refl _)).keeps h result

theorem Attributes.eval_keeps (suits : k.Suits E) {as as' : Attributes} (h : s.Keeps E k)
    (result : as.eval fuel s = .ok (as', r)) : r.Keeps E k :=
  ((as.eval_simulates (allows_keeps suits) (Nat.le_refl _)).keeps h result).1

end Stencil
