import Stencil.Text.Basic

/-!
# File names

A canonical file name has no empty and no `.` components, and `..` only at the front of a relative
name. Names end at a NUL.
-/

namespace Stencil

namespace FileName

/-- A canonical name. -/
structure Canonical where
  absolute : Bool
  parts : List Text
deriving DecidableEq, Repr

/-- Appends a component, `parts` being the components so far from the last to the first. -/
def addPart (absolute : Bool) (parts : List Text) (part : Text) : List Text :=
  if part.isEmpty || part == "." then parts
  else if part == ".." then
    match parts with
    | [] => if absolute then [] else [part]
    | last :: before => if last == ".." then part :: parts else before
  else part :: parts

def isAbsolute (name : Text) : Bool := name.head? == some ('/' : Byte)

/-- The canonical form of a name, as its components. -/
def Canonical.ofText (name : Text) : Canonical :=
  let name := Text.untilNul name
  let absolute := isAbsolute name
  ⟨absolute, ((Text.pieces '/' name).foldl (addPart absolute) []).reverse⟩

def Canonical.toText (n : Canonical) : Text :=
  let root : Text := if n.absolute then "/" else []
  root ++ Text.join "/" n.parts

/-- The canonical form of a name. -/
def canonical (name : Text) : Text := (Canonical.ofText name).toText

/-- The name of the directory of a file: what stands before the last slash. -/
def directory (name : Text) : Text :=
  if name.contains ('/' : Byte) then ((name.reverse.dropWhile (· != ('/' : Byte))).drop 1).reverse else []

/-- The canonical name of the file that a file named `reference` calls `name`. Where the reference
names no directory, neither does the answer. -/
def resolve (reference name : Text) : Text :=
  if isAbsolute name || reference.isEmpty then canonical name
  else
    let place := if reference.getLast? == some ('/' : Byte) then reference else directory reference
    if place.isEmpty then canonical name else canonical (place ++ "/" ++ name)

end FileName

end Stencil
