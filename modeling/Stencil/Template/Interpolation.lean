import Stencil.Event
import Stencil.Expr.Token

/-!
# Interpolation

Text is cut into literal pieces and expressions. `${…}` holds an expression; its braces are balanced
outside of string constants. `$name.name` is an expression too, and `$$` a literal dollar. A dollar
that starts none of these stays as it is, and so does `${…}` if it is blank or never closed.

The text is first cut at the braced expressions, then what is between them is searched for the short
form. Both cuts go over the bytes once; `skip` counts the bytes that have been dealt with already.
-/

namespace Stencil

namespace Interpolation

/-- The number of bytes before the brace that closes `depth` open ones, `quote` being the quote of
the string constant the text starts in. -/
def closingBrace? : Nat → Option Byte → Text → Option Nat
  | _, _, [] => none
  | depth, some quote, c :: s =>
    if c == '\\' then
      match s with
      | [] => none
      | _ :: r => (closingBrace? depth (some quote) r).map (· + 2)
    else if c == quote then (closingBrace? depth none s).map (· + 1)
    else (closingBrace? depth (some quote) s).map (· + 1)
  | depth, none, c :: s =>
    if c == '\'' || c == '\"' then (closingBrace? depth (some c) s).map (· + 1)
    else if c == '\x7b' then (closingBrace? (depth + 1) none s).map (· + 1)
    else if c == '\x7d' then
      if depth ≤ 1 then some 0 else (closingBrace? (depth - 1) none s).map (· + 1)
    else (closingBrace? depth none s).map (· + 1)

/-- The expression between the braces at the start of a text, without the white space around it, and
the number of bytes up to and including the closing brace. -/
def braced? : Text → Option (Text × Nat)
  | [] => none
  | c :: s =>
    if c == '\x7b' then
      match closingBrace? 1 none s with
      | some n =>
        let source := Text.trimWhite (s.take n)
        if source.isEmpty then none else some (source, n + 2)
      | none => none
    else none

/-- Puts a byte in front of the first literal piece. -/
def addByte (c : Byte) : List Fragment → List Fragment
  | .literal t :: fs => .literal (c :: t) :: fs
  | fs => .literal [c] :: fs

/-- Cuts a text at its braced expressions. Escaped dollars are kept as they are written. -/
def cutBraced : Nat → Text → List Fragment
  | _, [] => []
  | skip + 1, _ :: s => cutBraced skip s
  | 0, c :: s =>
    if c == '$' then
      match s with
      | [] => addByte c []
      | d :: _ =>
        if d == '$' then addByte c (addByte d (cutBraced 1 s))
        else match braced? s with
          | some (source, n) => .expression ⟨source⟩ :: cutBraced n s
          | none => addByte c (cutBraced 0 s)
    else addByte c (cutBraced 0 s)

/-- The number of bytes of the names joined by points at the start of a text. -/
def dottedLength : Text → Nat
  | [] => 0
  | c :: s =>
    if Token.isNamePart c || (c == '.' && s.head?.any Token.isNameStart) then dottedLength s + 1 else 0

/-- Cuts a text without braced expressions at the short ones. -/
def cutShort : Nat → Text → List Fragment
  | _, [] => []
  | skip + 1, _ :: s => cutShort skip s
  | 0, c :: s =>
    if c == '$' then
      match s with
      | [] => addByte c []
      | d :: _ =>
        if d == '$' then addByte c (cutShort 1 s)
        else if Token.isNameStart d then
          let n := dottedLength s
          .expression ⟨s.take n⟩ :: cutShort n s
        else addByte c (cutShort 0 s)
    else addByte c (cutShort 0 s)

end Interpolation

open Interpolation in
/-- The literal pieces and expressions of a text. -/
def interpolate (s : Text) : List Fragment :=
  (cutBraced 0 s).flatMap fun
    | .literal t => cutShort 0 t
    | .expression e => [.expression e]

end Stencil
