import Stencil.Event

/-!
# Paths

A path is a list of alternative routes. A route is a list of steps, each of which leads from an
element to its children or descendants that pass a test; a route may be anchored at the outermost
element. Here are the types, the tests, and the question whether the innermost of a stack of open
elements lies on a path.
-/

namespace Stencil

inductive Axis where
  | child
  | descendant
deriving DecidableEq, Repr

inductive NodeTest where
  | element (name : Text)
  | anyElement
  /-- the element itself -/
  | self
  | text
  | attributeNamed (name : Text)
  | anyAttribute
deriving DecidableEq, Repr

/-- Asks for an attribute, and for its text if a value is given. -/
structure Predicate where
  key : Text
  value? : Option Text
deriving DecidableEq, Repr

structure Step where
  axis : Axis
  test : NodeTest
  predicate? : Option Predicate
deriving DecidableEq, Repr

/-- One alternative of a path. -/
structure Route where
  /-- the first step is the outermost element -/
  absolute : Bool
  steps : List Step
deriving DecidableEq, Repr

structure Path where
  source : Text
  routes : List Route
deriving DecidableEq, Repr

namespace Predicate

def holds (p : Predicate) (attributes : Attributes) : Bool :=
  match attributes.named? p.key with
  | none => false
  | some a => match p.value? with
    | none => true
    | some v => a.text == v

end Predicate

namespace NodeTest

/-- The test an element's name has to pass: a name with a colon is compared with the qualified name,
any other with the name without its prefix. -/
def passes (t : NodeTest) (name : QName) : Bool :=
  match t with
  | element n => if n.contains (':' : Byte) then name.qualified == n else name.base == n
  | anyElement | self => true
  | text | attributeNamed _ | anyAttribute => false

def isAttribute : NodeTest → Bool
  | attributeNamed _ | anyAttribute => true
  | _ => false

end NodeTest

namespace Step

/-- The event starts an element that passes the step's test and predicate. -/
def matchesElement (s : Step) : Event → Bool
  | .startTag _ name attributes =>
    s.test.passes name && s.predicate?.all (·.holds attributes)
  | _ => false

end Step

namespace Route

/-- The innermost of the open elements, which are listed from the inside out, is where the steps
lead; these are listed from the last to the first. -/
def leadsTo (absolute : Bool) : List Step → List Event → Bool
  | [], _ | _, [] => false
  | [s], e :: outer => s.matchesElement e && (!absolute || outer.isEmpty)
  | s :: steps, e :: outer =>
    s.matchesElement e &&
      match s.axis with
      | .child => leadsTo absolute steps outer
      | .descendant => (List.range outer.length).any fun k => leadsTo absolute steps (outer.drop k)

def accepts (r : Route) (openElements : List Event) : Bool :=
  leadsTo r.absolute r.steps.reverse openElements

end Route

/-- The innermost of the open elements, listed from the inside out, lies on the path. -/
def Path.accepts (p : Path) (openElements : List Event) : Bool :=
  p.routes.any (·.accepts openElements)

end Stencil
