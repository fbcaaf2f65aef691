import Stencil.Text.Basic

/-!
# Escaping

Character data must not hold the characters that start markup, and an attribute value not the quote
around it.
-/

namespace Stencil

namespace Xml

/-- A byte of character data. -/
def escapeByte (c : Byte) : Text :=
  if c == '<' then "&lt;"
  else if c == '>' then "&gt;"
  else if c == '&' then "&amp;"
  else [c]

/-- A byte of an attribute value. -/
def escapeAttributeByte (c : Byte) : Text := if c == '\"' then "&quot;" else escapeByte c

/-- A text as character data. -/
def escape (t : Text) : Text := t.flatMap escapeByte

/-- A text as an attribute value in double quotes. -/
def escapeAttribute (t : Text) : Text := t.flatMap escapeAttributeByte

end Xml

end Stencil
