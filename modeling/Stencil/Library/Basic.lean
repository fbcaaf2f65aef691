import Stencil.Template.Basic
import Stencil.File.System

/-!
# Libraries of templates

A library finds templates by name in the directories of its search path. It keeps what it has
compiled, by canonical file name, together with the time the file was modified.
-/

namespace Stencil

/-- A compiled template and the modification time of the file it was compiled from. -/
structure Holding where
  template : Template
  modified : Timestamp

structure Library where
  searchPath : List Text
  /-- a template is compiled again once its file has changed -/
  autoReload : Bool
  holdings : List (Text × Holding)

namespace Library

/-- A library that has compiled nothing yet. -/
def ofSearchPath (searchPath : List Text) (autoReload : Bool) : Library := ⟨searchPath, autoReload, []⟩

/-- The number of templates that are kept. -/
def size (l : Library) : Nat := l.holdings.length

def find? (l : Library) (path : Text) : Option Holding :=
  (l.holdings.find? (·.1 == path)).map (·.2)

/-- Keeps a template in place of the one there was for the same file. -/
def keep (l : Library) (path : Text) (h : Holding) : Library :=
  { l with holdings := l.holdings.filter (·.1 != path) ++ [(path, h)] }

end Library

end Stencil
