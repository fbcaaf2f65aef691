import Stencil.Binary64

/-!
# References in character data

A reference stands for a character: `&lt;`, `&gt;`, `&amp;`, `&quot;`, `&apos;`, or a character by
its decimal or hexadecimal number. The reader is an automaton over the bytes, so that reading a text
that was put together is reading its parts one after the other.
-/

namespace Stencil

namespace Xml

/-- The bytes of a character with the given number, if there is one. -/
def character? (n : Nat) : Option Text :=
  if n = 0 ∨ ¬n.isValidChar then none
  else some (String.singleton (Char.ofNat n)).toUTF8.toList

/-- What the name between `&` and `;` stands for. -/
def reference? (name : Text) : Option Text :=
  if name == "lt" then some "<"
  else if name == "gt" then some ">"
  else if name == "amp" then some "&"
  else if name == "quot" then some "\""
  else if name == "apos" then some [39]
  else if ("#x" : Text).isPrefixOf name then
    let digits := name.drop 2
    if digits.isEmpty || !digits.all Binary64.isHexDigit then none
    else character? (digits.foldl (fun n c => 16 * n + Binary64.hexDigitValue c) 0)
  else if ("#" : Text).isPrefixOf name then
    let digits := name.drop 1
    if digits.isEmpty || !digits.all Byte.isDigit then none else character? (Text.digitsValue digits)
  else none

/-- What was read of a text: the bytes it stands for and the reference that has begun, both with the
last byte first. -/
structure Decoding where
  decoded : Text
  reference? : Option Text

namespace Decoding

def step (d : Decoding) (c : Byte) : Option Decoding :=
  match d.reference? with
  | none => some (if c == '&' then { d with reference? := some [] } else { d with decoded := c :: d.decoded })
  | some name =>
    if c == ';' then (Xml.reference? name.reverse).map fun t => ⟨t.reverse ++ d.decoded, none⟩
    else some { d with reference? := some (c :: name) }

/-- The text at the end, unless it ends within a reference. -/
def finish? (d : Decoding) : Option Text :=
  match d.reference? with
  | none => some d.decoded.reverse
  | some _ => none

end Decoding

/-- The text that a written text stands for. -/
def unescape? (t : Text) : Option Text := do
  let d ← t.foldlM Decoding.step ⟨[], none⟩
  d.finish?

end Xml

end Stencil
