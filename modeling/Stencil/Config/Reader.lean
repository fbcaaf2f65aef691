import Stencil.Config.Parser

/-!
# Reading configuration files

Files may include one another in any pattern. While a file is read, the files that include it stay
open, so what is left to be read is a stack of open files. `Config.step` reads one line, and
`Config.run` goes on until nothing is left or there have been so many steps.

Nothing here bounds the number of files inside one another: a file that includes itself is opened
again and again, until the system refuses to open it.
-/

namespace Stencil

namespace Config

/-- A file that is being read, with the lines that are left of it. -/
structure OpenFile where
  filename : Text
  rest : List Line

inductive Reader where
  /-- what has been read, and the files that are open, the innermost one first -/
  | reading (c : Config) (opened : List OpenFile)
  | ended (r : Except ReadError Config)

section

variable (fs : FileSystem)

/-- Opens a file, inside of those that are open. -/
def openFile (filename : Text) (c : Config) (opened : List OpenFile) : Reader :=
  match fs.openText opened.length filename with
  | .error e => .ended (.error (.cantOpen filename e))
  | .ok t => .reading c (⟨filename, lines t⟩ :: opened)

/-- Reads the next line of the innermost file, or closes the file if there is none. -/
def step : Reader → Reader
  | .ended r => .ended r
  | .reading c [] => .ended (.ok c)
  | .reading c (⟨_, []⟩ :: opened) => .reading c opened
  | .reading c (⟨filename, l :: ls⟩ :: opened) =>
    match readLine filename c l with
    | .error e => .ended (.error e)
    | .ok (c, none) => .reading c (⟨filename, ls⟩ :: opened)
    | .ok (c, some name) => openFile fs name c (⟨filename, ls⟩ :: opened)

/-- What comes out in the end, if that is at most `fuel` steps away. -/
def run : Nat → Reader → Option (Except ReadError Config)
  | _, .ended r => some r
  | 0, .reading _ _ => none
  | fuel + 1, .reading c opened => run fuel (step fs (.reading c opened))

/-- Reads a configuration file. -/
def read (fuel : Nat) (name : Text) : Option (Except ReadError Config) :=
  run fs fuel (openFile fs (fs.fullName name) ⟨[]⟩ [])

end

end Config

end Stencil
