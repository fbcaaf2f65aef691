import Stencil.Event
import Stencil.Path.Basic

/-!
# Templates

A template is a list of events in which elements with directives have become `sub` events, and the
filters its events go through: the ones before expansion, those its match directives registered, and
the ones after.
-/

namespace Stencil

/-- A transformation of event streams. -/
inductive Filter where
  /-- computes expressions -/
  | evaluate
  /-- merges texts and tidies their white space -/
  | tidy
  /-- replaces the elements on a path by a captured body -/
  | substitute (path : Path) (body : BodyId)
  /-- replaces include elements of the template with the given file name -/
  | inclusion (filename : Text)

structure Template where
  /-- tells template objects apart -/
  id : Nat
  filename : Text
  events : List Event
  preFilters : List Filter
  filters : List Filter
  postFilters : List Filter

namespace Template

/-- The namespace of directives. -/
def directiveNamespace : Text := "http://purl.org/kid/ns#"

/-- The namespace of include elements. -/
def includeNamespace : Text := "http://www.w3.org/2001/XInclude"

/-- The filters that events go through before and while `sub` events are expanded. -/
def expansionFilters (t : Template) : List Filter := t.preFilters ++ t.filters

end Template

end Stencil
