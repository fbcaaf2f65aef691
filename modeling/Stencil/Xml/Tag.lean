import Stencil.Xml.Reference

/-!
# Tags

The part of a tag between its angle brackets: the element's name, and attributes whose values stand
in single or double quotes. The reader is an automaton over the bytes. Names are taken as they are
written; white space in a value is kept.
-/

namespace Stencil

namespace Xml

/-- A name and attributes, as they are written but for the references in the values. -/
structure Tag where
  name : Text
  attributes : List (Text × Text)
deriving DecidableEq, Repr

/-- Where the reader is in a tag. Names and values that have begun have their last byte first. -/
inductive TagSpot where
  | name (name : Text)
  /-- after the name or an attribute -/
  | gap
  | attributeName (name : Text)
  /-- between an attribute's name and the `=` -/
  | beforeEquals (name : Text)
  /-- between the `=` and the value -/
  | beforeValue (name : Text)
  | value (name : Text) (quote : Byte) (value : Text)
  /-- just after a value, where white space is due -/
  | afterValue

/-- What was read of a tag: its name, the attributes with the last one first, and where the reader
is. -/
structure TagReading where
  tagName : Text
  attributes : List (Text × Text)
  spot : TagSpot

namespace TagReading

def start : TagReading := ⟨[], [], .name []⟩

/-- The two kinds of quotes. -/
def isQuote (c : Byte) : Bool := c == '\"' || c == 39

def step (r : TagReading) (c : Byte) : Option TagReading :=
  match r.spot with
  | .name n =>
    if Byte.isWhite c then
      if n.isEmpty then none else some { r with tagName := n.reverse, spot := .gap }
    else some { r with spot := .name (c :: n) }
  | .gap =>
    if Byte.isWhite c then some r
    else if c == '=' || isQuote c then none
    else some { r with spot := .attributeName [c] }
  | .attributeName n =>
    if Byte.isWhite c then some { r with spot := .beforeEquals n }
    else if c == '=' then some { r with spot := .beforeValue n }
    else some { r with spot := .attributeName (c :: n) }
  | .beforeEquals n =>
    if Byte.isWhite c then some r
    else if c == '=' then some { r with spot := .beforeValue n }
    else none
  | .beforeValue n =>
    if Byte.isWhite c then some r
    else if isQuote c then some { r with spot := .value n c [] }
    else none
  | .value n quote v =>
    if c == quote then
      (unescape? v.reverse).map fun t =>
        { r with attributes := (n.reverse, t) :: r.attributes, spot := .afterValue }
    else if c == '<' then none
    else some { r with spot := .value n quote (c :: v) }
  | .afterValue => if Byte.isWhite c then some { r with spot := .gap } else none

/-- The tag that was read, unless it ends within an attribute or has no name. -/
def finish? (r : TagReading) : Option Tag :=
  match r.spot with
  | .name n => if n.isEmpty then none else some ⟨n.reverse, []⟩
  | .gap | .afterValue => some ⟨r.tagName, r.attributes.reverse⟩
  | _ => none

end TagReading

/-- Reads what stands between the angle brackets of a start tag. -/
def Tag.ofText? (t : Text) : Option Tag := do
  let r ← t.foldlM TagReading.step TagReading.start
  r.finish?

end Xml

end Stencil
