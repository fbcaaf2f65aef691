import Stencil.Text.Basic

/-!
# Lines of a configuration file

A line that ends in a backslash goes on in the next one. A hash mark starts a comment unless it stands
between double quotes or after a backslash; the blanks before it belong to the comment.
-/

namespace Stencil

namespace Config

/-- A line with the number of the last line of the file it was joined from. -/
structure Line where
  number : Nat
  /-- the line without comment and without white space around it -/
  text : Text
  comment : Text
deriving DecidableEq, Repr

/-- The lines of a text; a line feed ends a line. -/
def physicalLines (t : Text) : List Text :=
  let ps := Text.pieces '\n' t
  if ps.getLast? == some [] then ps.dropLast else ps

/-- Joins lines that end in a backslash with the next one. `n` lines have been read before, the last
of them being `open?` if it goes on. -/
def joinLines (n : Nat) (open? : Option Text) : List Text → List (Nat × Text)
  | [] => match open? with
    | some before => [(n, before)]
    | none => []
  | l :: ls =>
    let line := (open?.getD []).dropLast ++ Text.trim Text.isBlank l
    if line.getLast? == some ('\\' : Byte) then joinLines (n + 1) (some line) ls
    else (n + 1, line) :: joinLines (n + 1) none ls

/-- The number of bytes before the hash mark that starts a comment, after `previous?` and inside or
outside of quotes. -/
def hashIndex? (previous? : Option Byte) (quoted : Bool) : Text → Option Nat
  | [] => none
  | c :: s =>
    if c == '#' && !quoted && previous? != some ('\\' : Byte) then some 0
    else (hashIndex? (some c) (if c == '\"' then !quoted else quoted) s).map (· + 1)

/-- Splits a line into what stands before the comment and the comment. -/
def splitComment (line : Text) : Text × Text :=
  match hashIndex? none false line with
  | none => (line, [])
  | some n =>
    let before := Text.trimRight (· == (' ' : Byte)) (line.take n)
    (before, line.drop before.length)

/-- A joined line without its comment. -/
def Line.ofJoined : Nat × Text → Line
  | (n, t) =>
    let (before, comment) := splitComment t
    ⟨n, Text.trim Text.isBlank before, comment⟩

/-- The lines of a file that are not empty. -/
def lines (t : Text) : List Line :=
  ((joinLines 0 none (physicalLines t)).map Line.ofJoined).filter (!·.text.isEmpty)

end Config

end Stencil
