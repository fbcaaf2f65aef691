import Stencil.Template.Error

/-!
# What stops an expansion

A fault of an expression is raised without a place. The evaluation of an event gives it the event's
position, and the expansion of a template turns it into an error located in the template's source.
All other faults are raised as they are.
-/

namespace Stencil

inductive Fault where
  /-- an expression can't be read -/
  | badSyntax (e : SyntaxError) (position? : Option Position)
  /-- an expression can't be evaluated -/
  | badEvaluation (e : EvalError) (position? : Option Position)
  | source (e : SourceError)
  /-- an expression in a template can't be evaluated -/
  | evaluation (e : EvalError) (place : SourcePlace)
  | templateNotFound (name : Text) (searchPath : List Text)
  | templateUnreadable (path : Text)
  /-- an include element that names no file -/
  | missingReference (filename : Text) (line : UInt32)
  /-- an include element after the library has been closed -/
  | libraryClosed (reference filename : Text)
  /-- an event that has no written form -/
  | unwritable (kind : Text) (position : Position)
  /-- an attribute that still has to be computed -/
  | unevaluated (name : Text) (position : Position)
  | popOfBaseFrame
  /-- a loop goes on although its body could not be read -/
  | missingBody

namespace Fault

/-- The message without the place it is located at. -/
def bare : Fault → Text
  | badSyntax e _ => e.message
  | badEvaluation e _ => e.message
  | source e => e.cause.message
  | evaluation e _ => e.message
  | templateNotFound name searchPath =>
    "Template \"" ++ name ++ "\" not found in search path [" ++ Text.join ", " searchPath ++ "]"
  | templateUnreadable path =>
    "in Markup::TemplateLoader::compile: failed to read \"" ++ path ++ "\"!"
  | missingReference filename line =>
    "in Markup::IncludeStream::processInclude: include without an \"href\" attribute (" ++ filename ++ ", line "
      ++ Text.ofNat line.toNat ++ ")!"
  | libraryClosed reference filename =>
    "in Markup::IncludeStream::processInclude: can't include \"" ++ reference ++ "\" from " ++ filename
      ++ ", the template loader no longer exists!"
  | unwritable kind position =>
    "in Markup::XmlSerializer::write: can't serialise a " ++ kind ++ " event at " ++ position.toText ++ "!"
  | unevaluated name position =>
    "in Markup::XmlSerializer::writeStartTag: unevaluated expression in attribute \"" ++ name ++ "\" at "
      ++ position.toText ++ "!"
  | popOfBaseFrame => "in Markup::Context::pop: attempt to pop the base frame!"
  | missingBody => "the body of a loop is missing"

/-- A message ends at a NUL. -/
def message : Fault → Text
  | source e => e.message
  | evaluation e place => place.locate e.message
  | f => Text.untilNul f.bare

/-- Gives a fault of an expression a position, unless it has one. -/
def placedAt (f : Fault) (p : Position) : Fault :=
  match f with
  | badSyntax e none => badSyntax e (some p)
  | badEvaluation e none => badEvaluation e (some p)
  | f => f

/-- Locates a fault of an expression in the source of a template: at its own position or, if it has
none, at that of the event reached last. A syntax error is as far to the right as it is in the
expression. -/
def locate (f : Fault) (filename : Text) (last : Position) : Fault :=
  match f with
  | badSyntax e p? =>
    source ⟨.expression e, (SourcePlace.ofPosition filename (p?.getD last)).shift e.offset⟩
  | badEvaluation e p? => evaluation e (SourcePlace.ofPosition filename (p?.getD last))
  | f => f

end Fault

/-- Why a computation has no result. -/
inductive Stop where
  | fault (f : Fault)
  /-- the computation was not allowed enough steps -/
  | outOfFuel

namespace Stop

def placedAt (s : Stop) (p : Position) : Stop :=
  match s with
  | fault f => fault (f.placedAt p)
  | outOfFuel => outOfFuel

def locate (s : Stop) (filename : Text) (last : Position) : Stop :=
  match s with
  | fault f => fault (f.locate filename last)
  | outOfFuel => outOfFuel

end Stop

end Stencil
