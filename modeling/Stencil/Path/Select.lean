import Stencil.Path.Basic

/-!
# Selecting from a list of events

Nodes are indices into the list. The subtree of a start tag ends at the end tag that closes it, or
with the list if none does; any other event is its own subtree. A route starts at the outermost
elements; what it selects is given by index and ordinal: 0 for a whole subtree, `k + 1` for the
`k`-th attribute of an element. The selected events come in document order, each once.
-/

namespace Stencil

namespace Path

/-- The number of events up to the end tag that closes the element in whose content, `depth` levels
deeper, the list starts; all events if there is no such tag. -/
def extent : Nat → List Event → Nat
  | _, [] => 0
  | depth, e :: es =>
    if e.isStart then 1 + extent (depth + 1) es
    else if e.isEnd then
      match depth with
      | 0 => 1
      | d + 1 => 1 + extent d es
    else 1 + extent depth es

section

variable (events : List Event)

/-- The index of the last event of the subtree of the event at `i`. -/
def endIndex (i : Nat) : Nat :=
  match events[i]? with
  | some e => if e.isStart then i + extent 0 (events.drop (i + 1)) else i
  | none => i

/-- The indices from `i` up to `stop`, in which the child axis leaves out what is inside a subtree.
At most `n` are listed. -/
def indices (axis : Axis) : Nat → Nat → Nat → List Nat
  | 0, _, _ => []
  | n + 1, i, stop =>
    if i < stop then
      i :: indices axis n (match axis with | .child => endIndex events i + 1 | .descendant => i + 1) stop
    else []

/-- The start tags that are in no other element. -/
def topLevel : List Nat :=
  (indices events .child events.length 0 events.length).filter fun i => events[i]?.any (·.isStart)

/-- The event passes the test of a step that leads to elements or texts. -/
def passes (s : Step) (i : Nat) : Bool :=
  match events[i]? with
  | some e =>
    match s.test with
    | .text => match e with
      | .text .. => true
      | _ => false
    | _ => s.matchesElement e
  | none => false

/-- The nodes a step leads to from one node. -/
def stepFrom (s : Step) (node : Nat) : List Nat :=
  match s.test with
  | .self => if passes events s node then [node] else []
  | _ =>
    let stop := endIndex events node
    (indices events s.axis (stop - node) (node + 1) stop).filter (passes events s)

/-- The nodes a step leads to from a set of nodes, in document order. -/
def stepFromAll (s : Step) (nodes : List Nat) : List Nat :=
  let found := nodes.flatMap (stepFrom events s)
  (List.range events.length).filter found.contains

/-- The attributes of the event at `i`. -/
def attributesAt (i : Nat) : Attributes :=
  match events[i]? with
  | some (.startTag _ _ attributes) => attributes
  | _ => []

/-- The attribute is one the test asks for. -/
def selectsAttribute (test : NodeTest) (a : Attribute) : Bool :=
  match test with
  | .anyAttribute => true
  | .attributeNamed name => a.name.qualified == name
  | _ => false

/-- The attributes that the test asks for, by element and ordinal. -/
def attributeKeys (test : NodeTest) (node : Nat) : List (Nat × Nat) :=
  ((attributesAt events node).zipIdx.filter fun (a, _) => selectsAttribute test a).map
    fun (_, k) => (node, k + 1)

/-- What the steps select from a set of nodes. -/
def follow : List Step → List Nat → List (Nat × Nat)
  | [], nodes => nodes.map (·, 0)
  | s :: steps, nodes =>
    if s.test.isAttribute then nodes.flatMap (attributeKeys events s.test)
    else follow steps (stepFromAll events s nodes)

/-- The events of the subtree at `i`. -/
def subtree (i : Nat) : List Event := (events.drop i).take (endIndex events i + 1 - i)

/-- The selected events at index `i`: the subtree, then the texts of the attributes. -/
def selectedAt (keys : List (Nat × Nat)) (i : Nat) : List Event :=
  let whole := if keys.contains (i, 0) then subtree events i else []
  let position := (events[i]?.getD .blank).position
  whole ++ ((attributesAt events i).zipIdx.filter fun (_, k) => keys.contains (i, k + 1)).map
    fun (a, _) => Event.text position a.text

end

/-- The events a path selects. -/
def select (p : Path) (events : List Event) : List Event :=
  let keys := p.routes.flatMap fun r => follow events r.steps (topLevel events)
  (List.range events.length).flatMap (selectedAt events keys)

end Path

end Stencil
