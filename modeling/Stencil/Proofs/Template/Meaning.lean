import Stencil.Stream.Tag

/-!
# The meaning of a template

Events of a template evaluated by recursion over them, without streams: each event has a meaning, that
of a list is those of its events one after the other, and an element with directives is first rewritten
by its directives, as a list, and then evaluated, once or once for each item of a loop. Frames are
scopes: what is evaluated under a frame leaves the context as it was.

This is for the directives that neither capture events nor are added by a host.
-/

namespace Stencil

/-- The events that a part of a template gives, and the store after them or why there are no more. -/
structure Outcome where
  events : List Event
  result : Except Stop Store

/-- What a part of a template comes to in a store. -/
abbrev Meaning := Store → Outcome

namespace Meaning

def give (es : List Event) : Meaning := fun s => ⟨es, .ok s⟩

/-- Goes on with what a computation gives. -/
def compute {α : Type} (m : Eval α) (f : α → Meaning) : Meaning := fun s =>
  match m s with
  | .ok (a, t) => f a t
  | .error why => ⟨[], .error why⟩

/-- One part after another, unless the first one fails. -/
def andThen (m n : Meaning) : Meaning := fun s =>
  match m s with
  | ⟨es, .ok t⟩ => ⟨es ++ (n t).events, (n t).result⟩
  | ⟨es, .error why⟩ => ⟨es, .error why⟩

/-- Parts in order. -/
def all (ms : List Meaning) : Meaning := ms.foldr andThen (give [])

/-- A part under a frame that is gone afterwards. -/
def under (frame : Frame) (m : Meaning) : Meaning := fun s =>
  let o := m (s.pushFrame frame)
  ⟨o.events, o.result.map fun t => { t with context := s.context }⟩

end Meaning

open Meaning

/-- The meaning of an event without directives: the expressions in a start tag are evaluated, and an
expression gives a text unless its value is nothing. -/
def Event.leafMeaning (k : Nat) : Event → Meaning
  | .startTag p name as => compute (as.eval k) fun as => give [.startTag p name as]
  | .expression p x => compute (x.eval k) fun v => give (if v.isNull then [] else [.text p v.toText])
  | e => give [e]

/-- An event of an element, with its meaning. -/
structure Piece where
  event : Event
  meaning : Meaning

namespace Piece

def leaf (k : Nat) (e : Event) : Piece := ⟨e, e.leafMeaning k⟩

/-- The meaning of pieces in order. -/
def meaningOf (ps : List Piece) : Meaning := all (ps.map (·.meaning))

/-! ## Directives as functions on lists -/

/-- Without the first and the last piece. -/
def stripped (ps : List Piece) : List Piece := ps.tail.dropLast

/-- The tags stay, if there are any, and the expression takes the place of what is between them. -/
def filledWith (k : Nat) (x : Expression) : List Piece → List Piece
  | [] => []
  | p :: ps =>
    (if p.event.isStart then [p] else []) ++ leaf k (.expression p.event.position x) :: ps.getLast?.toList

/-- The expression takes the place of all pieces. -/
def replacedBy (k : Nat) (x : Expression) : List Piece → List Piece
  | [] => []
  | p :: _ => [leaf k (.expression p.event.position x)]

/-- The first tag gets the attributes that the expression gives. -/
def mergedWith (k : Nat) (x : Expression) (ps : List Piece) : Eval (List Piece) :=
  match ps with
  | ⟨.startTag p name as, _⟩ :: rest => do
    let v ← x.eval k
    if v.isTrue then
      let as ← Eval.ofResult (as.merge v)
      return leaf k (.startTag p name as) :: rest
    else return ps
  | ps => pure ps

end Piece

open Piece

namespace Directive

/-- What a directive makes of an element, given what those of a higher rank have made of it. -/
def rewrite (k : Nat) (d : Directive) (element : Eval (List Piece)) : Eval (List Piece) :=
  match d with
  | .replace x => do
    let ps ← element
    return replacedBy k x ps
  | .content x => do
    let ps ← element
    return filledWith k x ps
  | .attributes x => do
    let ps ← element
    mergedWith k x ps
  | .strip none => do
    let ps ← element
    return stripped ps
  | .strip (some x) => do
    let v ← x.eval k
    let ps ← element
    return if v.isTrue then stripped ps else ps
  | _ => element

/-- What the directives of an element, in the order of their rank, make of it. -/
def rewriteAll (k : Nat) (ds : List Directive) (ps : List Piece) : Eval (List Piece) := ds.foldr (rewrite k) (pure ps)

/-- The test of an `if` directive. -/
def test? (ds : List Directive) : Option Expression := ds.findSome? fun
  | .condition x => some x
  | _ => none

/-- The targets and the items of a `for` directive. -/
def loop? (ds : List Directive) : Option (List Text × Expression) := ds.findSome? fun
  | .loop targets items => some (targets, items)
  | _ => none

/-- An element is kept by the test of its `if` directive, if it has one. -/
def kept (k : Nat) (test? : Option Expression) : Eval Bool :=
  match test? with
  | none => pure true
  | some x => do
    let v ← x.eval k
    return v.isTrue

/-- The meaning of an element for an item of its loop. -/
def iteration (targets : List Text) (ps : List Piece) (item : Value) : Meaning :=
  compute (Eval.ofResult (loopFrame targets item)) fun frame => under frame (meaningOf ps)

/-- The meaning of a loop. Its items come before the element. -/
def repeated (k : Nat) (targets : List Text) (items : Expression) (element : Eval (List Piece)) : Meaning :=
  compute (items.eval k) fun v =>
    if v.isNull then give []
    else compute (Eval.ofResult v.items) fun vs => compute element fun ps => all (vs.map (iteration targets ps))

/-- The meaning of an element with directives. Its test comes first. It is rewritten once, and evaluated
once or once for each item of its loop. -/
def meaning (k : Nat) (ds : List Directive) (ps : List Piece) : Meaning :=
  compute (kept k (test? ds)) fun kept =>
    let element : Eval (List Piece) := if kept then rewriteAll k ds ps else pure []
    match loop? ds with
    | none => compute element meaningOf
    | some (targets, items) => repeated k targets items element

end Directive

/-! ## Events -/

namespace Event

mutual

/-- The meaning of an event. -/
def meaning (k : Nat) : Event → Meaning
  | .sub _ ds es => Directive.meaning k ds (pieces k es)
  | e => e.leafMeaning k

/-- Events with their meanings. -/
def pieces (k : Nat) : List Event → List Piece
  | [] => []
  | e :: es => ⟨e, e.meaning k⟩ :: pieces k es

end

/-- The meaning of events in order. -/
def meaningOf (k : Nat) (es : List Event) : Meaning := Piece.meaningOf (pieces k es)

end Event

end Stencil
