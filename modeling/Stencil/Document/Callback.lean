import Stencil.Event

/-!
# What an XML tokenizer reports

A document reaches the engine as the list of callbacks a tokenizer makes while it reads the source.
Names and identifiers may be missing and end at a NUL; character data and attribute values are
counted bytes. Each callback comes with the tokenizer's current line and column, which may be
unknown (zero or less).
-/

namespace Stencil

/-- The tokenizer's line and column during a callback. -/
structure Place where
  line : Int
  column : Int
deriving DecidableEq, Repr

/-- A name as the tokenizer reports it. -/
structure RawName where
  base : Text
  pre? : Option Text
  uri? : Option Text
deriving DecidableEq, Repr

structure RawAttribute where
  name : RawName
  value : Text
deriving DecidableEq, Repr

/-- A namespace declaration: prefix and URI. -/
structure RawNamespace where
  pre? : Option Text
  uri? : Option Text
deriving DecidableEq, Repr

inductive Callback where
  | startElement (place : Place) (name : RawName) (namespaces : List RawNamespace)
      (attributes : List RawAttribute)
  | endElement (place : Place) (name : RawName)
  /-- characters, a CDATA section or ignorable white space -/
  | characters (place : Place) (text : Text)
  | comment (place : Place) (text? : Option Text)
  | instruction (place : Place) (target? data? : Option Text)
  | doctype (place : Place) (name? publicId? systemId? : Option Text)
  | error (place : Place) (message : Text)
  /-- an error after which the document counts as malformed -/
  | fatal (place : Place) (message : Text)
  /-- the document turns out malformed, without a message -/
  | malformed
deriving DecidableEq, Repr

/-- A missing text is empty; any other ends at its first NUL. -/
def Text.ofRaw (t? : Option Text) : Text :=
  match t? with
  | some t => Text.untilNul t
  | none => []

namespace RawName

def toQName (n : RawName) : QName := ⟨Text.ofRaw n.uri?, Text.ofRaw n.pre?, Text.untilNul n.base⟩

end RawName

/-- Lines count from one and columns, in an event, from zero. An unknown line is the first one. -/
def Place.toPosition (p : Place) : Position :=
  ⟨if 0 < p.line then UInt32.ofNat p.line.toNat else 1,
    if 0 < p.column then UInt32.ofNat (p.column.toNat - 1) else 0⟩

end Stencil
