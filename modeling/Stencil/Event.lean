import Stencil.Text.Basic

/-!
# Markup events

A document is a list of events, each with the position it came from. Besides the events of a plain
document there are two that only a template has: `expression`, text still to be computed, and `sub`,
an element taken out of the list together with the directives it carries.

Names are compared by namespace URI and local part; the qualified form, with its prefix, is what
paths, lookups and the written document use.
-/

namespace Stencil

structure Position where
  line : UInt32
  column : UInt32
deriving DecidableEq, Repr

namespace Position

def zero : Position := ⟨0, 0⟩

def toText (p : Position) : Text :=
  "line " ++ Text.ofNat p.line.toNat ++ ", column " ++ Text.ofNat p.column.toNat

end Position

/-- A name with its namespace URI and prefix, either of which may be empty. -/
structure QName where
  uri : Text
  pre : Text
  base : Text
deriving DecidableEq, Repr

namespace QName

/-- A name without namespace. -/
def plain (base : Text) : QName := ⟨[], [], base⟩

/-- `prefix:base`, or just the base where there is no prefix. -/
def qualified (n : QName) : Text :=
  if n.pre.isEmpty then n.base else n.pre ++ ":" ++ n.base

/-- Names are the same if their URIs and bases are; the prefix does not matter. -/
def same (a b : QName) : Bool := a.uri == b.uri && a.base == b.base

end QName

/-- An expression of a template, kept as its source; it is parsed whenever it is evaluated. -/
structure Expression where
  source : Text
deriving DecidableEq, Repr

/-- A piece of an attribute value or of text. -/
inductive Fragment where
  | literal (text : Text)
  | expression (e : Expression)
deriving DecidableEq, Repr

namespace Fragment

def isExpression : Fragment → Bool
  | literal _ => false
  | expression _ => true

def literalText : Fragment → Text
  | literal t => t
  | expression _ => []

end Fragment

structure Attribute where
  name : QName
  value : List Fragment
deriving DecidableEq, Repr

namespace Attribute

/-- No part of the value is still to be computed. -/
def isLiteral (a : Attribute) : Bool := a.value.all (!·.isExpression)

/-- The literal parts of the value. -/
def text (a : Attribute) : Text := a.value.flatMap Fragment.literalText

end Attribute

/-- The attributes of a start tag, in order. -/
abbrev Attributes := List Attribute

namespace Attributes

/-- The first attribute with the given qualified name. -/
def named? (as : Attributes) (name : Text) : Option Attribute :=
  as.find? (·.name.qualified == name)

def has (as : Attributes) (name : Text) : Bool := (as.named? name).isSome

/-- The text of the attribute with the given qualified name, empty if there is none. -/
def textOf (as : Attributes) (name : Text) : Text :=
  match as.named? name with
  | some a => a.text
  | none => []

/-- Gives an attribute a new value in place, or appends it. -/
def set : Attributes → QName → List Fragment → Attributes
  | [], name, value => [⟨name, value⟩]
  | a :: as, name, value =>
    if a.name.same name then ⟨a.name, value⟩ :: as else a :: set as name value

def setText (as : Attributes) (name : QName) (text : Text) : Attributes :=
  as.set name [.literal text]

/-- Removes the first attribute with the given qualified name. -/
def remove (as : Attributes) (name : Text) : Attributes :=
  as.eraseP (·.name.qualified == name)

end Attributes

/-- A parameter of a template function. -/
structure Parameter where
  name : Text
  default? : Option Expression
deriving DecidableEq, Repr

/-- The name and parameters of a template function. -/
structure Signature where
  name : Text
  parameters : List Parameter
deriving DecidableEq, Repr

/-- The place where a directive keeps the events it has captured: the template object it belongs to
and its slot there. -/
structure BodyId where
  template : Nat
  slot : Nat
deriving DecidableEq, Repr

/-- What a directive that a host adds does with its element. -/
inductive Effect where
  /-- drops the element if the expression is true -/
  | unless
  /-- yields the element two times -/
  | twice
deriving DecidableEq, Repr

/-- A directive that a host adds to the built-in ones. -/
structure Extension where
  name : Text
  /-- how many were added before it -/
  number : Nat
  effect : Effect
deriving DecidableEq, Repr

mutual

inductive Event where
  /-- an event that was never filled in -/
  | blank
  | startTag (position : Position) (name : QName) (attributes : Attributes)
  | endTag (position : Position) (name : QName)
  | text (position : Position) (text : Text)
  | startNamespace (position : Position) (pre uri : Text)
  | endNamespace (position : Position) (pre : Text)
  | comment (position : Position) (text : Text)
  | instruction (position : Position) (target data : Text)
  | doctype (position : Position) (name publicId systemId : Text)
  | expression (position : Position) (e : Expression)
  | sub (position : Position) (directives : List Directive) (events : List Event)

inductive Directive where
  /-- binds a function that replays the element -/
  | define (signature : Signature) (body : BodyId)
  /-- captures the element as the replacement for matched elements -/
  | capture (body : BodyId)
  | loop (targets : List Text) (items : Expression)
  | condition (test : Expression)
  | replace (e : Expression)
  | content (e : Expression)
  | attributes (e : Expression)
  | strip (test : Option Expression)
  | extension (kind : Extension) (e : Option Expression)
  /-- replaces a matched element by a captured one, in which the matched events can be selected from -/
  | expand (body : BodyId) (matched : List Event)

end

instance : Inhabited Event := ⟨.blank⟩

namespace Event

def position : Event → Position
  | blank => .zero
  | startTag p _ _ | endTag p _ | text p _ | startNamespace p _ _ | endNamespace p _ | comment p _
  | instruction p _ _ | doctype p _ _ _ | expression p _ | sub p _ _ => p

/-- The word for the kind of an event. -/
def kind : Event → Text
  | blank => "UNINITIALISED"
  | startTag .. => "START"
  | endTag .. => "END"
  | text .. => "TEXT"
  | startNamespace .. => "START_NS"
  | endNamespace .. => "END_NS"
  | comment .. => "COMMENT"
  | instruction .. => "PI"
  | doctype .. => "DOCTYPE"
  | expression .. => "EXPR"
  | sub .. => "SUB"

def isStart : Event → Bool
  | startTag .. => true
  | _ => false

def isEnd : Event → Bool
  | endTag .. => true
  | _ => false

end Event

end Stencil
