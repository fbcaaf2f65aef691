import Stencil.Proofs.Expr.Effect
import Stencil.Proofs.Stream.ScopedStep

/-!
# Loops that go on after a failure

A consumer may ask a loop again after a failure. Failures of the items or of an iteration leave the loop its body, so
every later step comes to an event, to the end or to a failure of an expression. A failure that comes up while the
body is read leaves the items without a body: the next of them for which there is a frame finds none
(`Stream.Resumed.missingBody_iff`).
-/

open Stencil.Stream

namespace Stencil

namespace Stream

/-- The step of a loop that reads its body comes to a failure of what is read. -/
def LosesBody (k : Nat) (u : Stream) (s : Store) : Prop :=
  ∃ targets items body v why w t, u = .gathering targets items body v ∧ step k v s = .fail why w t

/-- What is left of a stream after steps, whatever they came to, and whether a body was lost. Each step may find another
store. -/
inductive Resumed (k : Nat) (u : Stream) : Bool → Stream → Prop
  | refl : Resumed k u false u
  | step {lost : Bool} {v : Stream} (before : Resumed k u lost v) (s : Store) (keeps : ¬ LosesBody k v s) :
    Resumed k u lost (Stream.step k v s).stream
  | loses {lost : Bool} {v : Stream} (before : Resumed k u lost v) (s : Store) (loses : LosesBody k v s) :
    Resumed k u true (Stream.step k v s).stream

/-- The states of a loop, with its body still to be read or known, and with its body lost. -/
inductive OfLoop : Bool → Stream → Prop
  | loop (targets : List Text) (items : Expression) (u : Stream) : OfLoop false (.loop targets items u)
  | ended (u : Stream) : OfLoop false (.ended u)
  | gathering (targets : List Text) (items : List Value) (body : List Event) (u : Stream) :
    OfLoop false (.gathering targets items body u)
  | looping (targets : List Text) (items : List Value) (body : List Event) (current? : Option (Nat × List Event)) (u : Stream) :
    OfLoop false (.looping targets items (some body) current? u)
  | lost (targets : List Text) (items : List Value) (u : Stream) : OfLoop true (.looping targets items none none u)
  | blank (targets : List Text) (items : List Value) (depth : Nat) (u : Stream) :
    OfLoop true (.looping targets items none (some (depth, [])) u)

variable {k : Nat} {u v w : Stream} {s t : Store} {lost : Bool} {why : Stop} {targets : List Text} {items : List Value}
  {x : Expression}

theorem startLoop_ofLoop (s : Store) :
    OfLoop false (startLoop k targets x u s).stream ∧
      ∀ why w t, startLoop k targets x u s = .fail why w t → why.OfExpression := by
  unfold startLoop
  cases evaluated : x.eval k s with
  | error why =>
    refine ⟨.ended u, ?_⟩
    rintro _ _ _ ⟨⟩
    exact Expression.eval_stops evaluated
  | ok given =>
    obtain ⟨v, t⟩ := given
    dsimp only
    split
    · exact ⟨.ended u, by rintro _ _ _ ⟨⟩⟩
    · cases v.items with
      | ok vs => exact ⟨.gathering targets vs [] u, by rintro _ _ _ ⟨⟩⟩
      | error e =>
        refine ⟨.ended u, ?_⟩
        rintro _ _ _ ⟨⟩
        trivial

/-- A loop that knows its body fails for an item only. -/
theorem stepLoop_ofLoop (body : List Event) (current? : Option (Nat × List Event)) (s : Store) :
    OfLoop false (stepLoop targets items (some body) current? u s).stream ∧
      ∀ why w t, stepLoop targets items (some body) current? u s = .fail why w t → why.OfExpression := by
  cases current? with
  | some current =>
    obtain ⟨depth, es⟩ := current
    cases es with
    | nil => exact ⟨.looping targets items body none u, by rintro _ _ _ ⟨⟩⟩
    | cons e es => exact ⟨.looping targets items body (some (depth, es)) u, by rintro _ _ _ ⟨⟩⟩
  | none =>
    cases items with
    | nil => exact ⟨.looping targets [] body none u, by rintro _ _ _ ⟨⟩⟩
    | cons item items =>
      rw [stepLoop, startIteration]
      cases loopFrame targets item with
      | error e =>
        refine ⟨.looping targets items body none u, ?_⟩
        rintro _ _ _ ⟨⟩
        trivial
      | ok frame => exact ⟨.looping targets items body _ u, by rintro _ _ _ ⟨⟩⟩

/-- A step keeps the body, or what is read of it, unless it loses it, and fails for an expression only. -/
theorem OfLoop.step (h : OfLoop false u) (s : Store) (keeps : ¬ LosesBody k u s) :
    OfLoop false (Stream.step k u s).stream ∧ ∀ why w t, Stream.step k u s = .fail why w t → why.OfExpression := by
  cases h with
  | loop targets x u => exact startLoop_ofLoop s
  | ended u => exact ⟨.ended u, by rintro _ _ _ ⟨⟩⟩
  | gathering targets items body u =>
    rw [Stream.step]
    cases first : Stream.step k u s with
    | yield e v t => exact ⟨.gathering targets items (e :: body) v, by rintro _ _ _ ⟨⟩⟩
    | skip v t => exact ⟨.gathering targets items body v, by rintro _ _ _ ⟨⟩⟩
    | done v t => exact ⟨.looping targets items body.reverse none v, by rintro _ _ _ ⟨⟩⟩
    | fail why v t => exact absurd ⟨targets, items, body, u, why, v, t, rfl, first⟩ keeps
  | looping targets items body current? u => exact stepLoop_ofLoop body current? s

/-- A loop without its body starts an iteration for the next item for which there is a frame, and no other step fails for the
want of a body. -/
theorem OfLoop.step_lost (h : OfLoop true u) (s : Store) :
    OfLoop true (Stream.step k u s).stream ∧ ∀ why w t, Stream.step k u s = .fail why w t →
      why.OfExpression ∨ why = .fault .missingBody ∧ ∃ targets item items v frame,
        u = .looping targets (item :: items) none none v ∧ loopFrame targets item = .ok frame := by
  cases h with
  | blank targets items depth u => exact ⟨.lost targets items u, by rintro _ _ _ ⟨⟩⟩
  | lost targets items u =>
    cases items with
    | nil => exact ⟨.lost targets [] u, by rintro _ _ _ ⟨⟩⟩
    | cons item items =>
      rw [Stream.step, stepLoop, startIteration]
      cases starts : loopFrame targets item with
      | error e =>
        refine ⟨.lost targets items u, ?_⟩
        rintro _ _ _ ⟨⟩
        exact .inl trivial
      | ok frame =>
        refine ⟨.blank targets items _ u, ?_⟩
        rintro _ _ _ ⟨⟩
        exact .inr ⟨rfl, targets, item, items, u, frame, rfl, starts⟩

theorem LosesBody.step (h : LosesBody k u s) : OfLoop true (Stream.step k u s).stream := by
  obtain ⟨targets, items, body, v, why, w, t, rfl, fails⟩ := h
  rw [Stream.step, fails]
  exact .lost targets items w

/-- **A loop that is asked again and again** stays a loop, and keeps its body unless it has lost it. -/
theorem Resumed.ofLoop (h : Resumed k (.loop targets x u) lost v) : OfLoop lost v := by
  induction h with
  | refl => exact .loop targets x u
  | @step lost _ _ s keeps ih =>
    cases lost with
    | false => exact (ih.step s keeps).1
    | true => exact (ih.step_lost s).1
  | loses _ s loses => exact loses.step

/-- **A loop misses its body if and only if a failure has cut the reading of it short**, and there is a frame for the next item.
All other failures of its steps are those of its source while the body is read, and of expressions. -/
theorem Resumed.missingBody_iff (h : Resumed k (.loop targets x u) lost v) (s : Store) (keeps : ¬ LosesBody k v s) :
    (∀ why w t, Stream.step k v s = .fail why w t → why.OfExpression ∨ why = .fault .missingBody) ∧
      ((∃ w t, Stream.step k v s = .fail (.fault .missingBody) w t) ↔
        lost = true ∧ ∃ targets item items w frame,
          v = .looping targets (item :: items) none none w ∧ loopFrame targets item = .ok frame) := by
  cases lost with
  | false =>
    have fails := (h.ofLoop.step s keeps).2
    refine ⟨fun why w t failed => .inl (fails why w t failed), ?_, fun ⟨kept, _⟩ => by cases kept⟩
    rintro ⟨w, t, failed⟩
    exact (fails _ w t failed).elim
  | true =>
    have fails := (h.ofLoop.step_lost (k := k) s).2
    refine ⟨fun why w t failed => (fails why w t failed).imp_right (·.1), ?_, ?_⟩
    · rintro ⟨w, t, failed⟩
      exact ⟨rfl, ((fails _ w t failed).resolve_left (fun plain => plain.elim)).2⟩
    · rintro ⟨-, targets, item, items, w, frame, rfl, starts⟩
      exact ⟨_, _, by rw [Stream.step, stepLoop, startIteration, starts]⟩

/-- The attributes of the only element of a body can't be computed, and the loop is asked again. -/
theorem resumed_missingBody :
    let s : Store := .ofContext (.ofBase [("xs", .list [.int 1])]) (.empty [])
    let element : Stream := .attributes ⟨"f()"⟩ (.ofEvents [.startTag ⟨1, 0⟩ (.plain "e") []])
    ∃ v, Resumed 9 (.loop ["i"] ⟨"xs"⟩ element) true v ∧ ∃ w t, Stream.step 9 v s = .fail (.fault .missingBody) w t := by
  intro s element
  have starts : Stream.step 9 (.loop ["i"] ⟨"xs"⟩ element) s = .skip (.gathering ["i"] [.int 1] [] element) s := by rfl
  have reads : Resumed 9 (.loop ["i"] ⟨"xs"⟩ element) false (.gathering ["i"] [.int 1] [] element) := by
    have next := Resumed.step (k := 9) .refl s (v := .loop ["i"] ⟨"xs"⟩ element) (by
      rintro ⟨_, _, _, _, _, _, _, same, -⟩
      cases same)
    rwa [starts] at next
  have fails : Stream.step 9 element s = .fail (.fault (.badEvaluation (.notDefined "f") none)) (.ofEvents []) s := by rfl
  have loses := reads.loses s ⟨_, _, _, _, _, _, _, rfl, fails⟩
  rw [Stream.step, fails] at loses
  exact ⟨_, loses, _, _, rfl⟩

end Stream

end Stencil
