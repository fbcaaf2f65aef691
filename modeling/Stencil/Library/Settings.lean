import Stencil.Library.Basic
import Stencil.Config.Basic

/-!
# Libraries from configurations

A section of a configuration gives the search path, its directories separated by colons, and says
whether templates are loaded again when they have changed.
-/

namespace Stencil

namespace Library

/-- The section that libraries are configured in, unless another one is named. -/
def defaultSection : Text := "Loader"

def searchPathKey : Text := "search_path"

def autoReloadKey : Text := "auto_reload"

/-- The library that a section asks for. -/
def ofConfig (c : Config) (sectionName : Text) : Except Config.LookupError Library := do
  let searchPath := Text.split ':' true (c.textD sectionName searchPathKey [])
  let autoReload ← c.boolD sectionName autoReloadKey true
  return .ofSearchPath searchPath autoReload

end Library

end Stencil
