import Stencil.Directive.Registry
import Stencil.Expr.Signature
import Stencil.Template.Basic
import Stencil.Template.Error

/-!
# Reading directives

A directive is an attribute in the directive namespace: its local name says which one it is, and its
value holds an expression, a signature, a path or a loop. Directives of one element are applied from
the last to the first in the order of their rank.
-/

namespace Stencil

namespace Directive

/-- The name of a directive; `none` for the expansion of a matched element, which has no attribute. -/
def name? : Directive → Option DirectiveName
  | define .. => some .define
  | capture _ => some .capture
  | loop .. => some .loop
  | condition _ => some .condition
  | replace _ => some .replace
  | content _ => some .content
  | attributes _ => some .attributes
  | strip _ => some .strip
  | extension kind _ => some (.extension kind)
  | expand .. => none

def rank (d : Directive) : Nat :=
  match d.name? with
  | some n => n.rank
  | none => DirectiveName.firstFreeRank

/-- The expression a directive evaluates. -/
def expression? : Directive → Option Expression
  | define .. | capture _ | expand .. => none
  | loop _ e | condition e | replace e | content e | attributes e => some e
  | strip e? | extension _ e? => e?

/-- An expression that may be left out. -/
def optionalExpression (value : Text) : Option Expression :=
  let source := Text.trimWhite value
  if source.isEmpty then none else some ⟨source⟩

/-- An expression that has to be there. -/
def requiredExpression (name : DirectiveName) (value : Text) : Except SourceCause Expression :=
  match optionalExpression value with
  | some e => .ok e
  | none => .error (.missingExpression name.spelling)

/-- What separates the targets of a loop from what it runs through. -/
def loopSeparator : Text := " in "

/-- The targets of a loop, separated by commas. -/
def loopTargets (value targets : Text) : Except SourceCause (List Text) :=
  let names := (Text.split ',' false targets).map Text.trimWhite
  if names.any (·.isEmpty) then .error (.emptyLoopVariable value) else .ok names

/-- Reads the value of a loop. -/
def readLoop (value : Text) : Except SourceCause Directive :=
  match Text.indexOf? loopSeparator value with
  | none => .error (.loopShape value)
  | some n => do
    let targets ← loopTargets value (value.take n)
    let items ← requiredExpression .loop (value.drop (n + loopSeparator.length))
    return .loop targets items

end Directive

/-- A directive that was read, the filters that come with it, and what is to be logged. -/
structure DirectiveReading where
  directive : Directive
  filters : List Filter
  log : List LogEntry

namespace DirectiveReading

def plain (d : Directive) : DirectiveReading := ⟨d, [], []⟩

end DirectiveReading

namespace Directive

/-- Reads a directive from its value at a place; `body` is where it keeps what it captures. -/
def readNamed (name : DirectiveName) (value : Text) (place : SourcePlace) (body : BodyId) :
    Except SourceError DirectiveReading :=
  let located (r : Except SourceCause Directive) : Except SourceError DirectiveReading :=
    match r with
    | .ok d => .ok (.plain d)
    | .error cause => .error ⟨cause, place⟩
  match name with
  | .define =>
    match Signature.parse value with
    | .ok signature => .ok (.plain (.define signature body))
    | .error e => .error ⟨.expression e, place.shift e.offset⟩
  | .capture =>
    match Path.parse value with
    | .ok path =>
      .ok ⟨.capture body, [.substitute path body],
        [⟨.debug, "registered a match template for \"" ++ value ++ "\" in " ++ place.filename⟩]⟩
    | .error e => .error ⟨.path e, place⟩
  | .loop => located (readLoop value)
  | .condition => located ((requiredExpression .condition value).map condition)
  | .replace => located ((requiredExpression .replace value).map replace)
  | .content => located ((requiredExpression .content value).map content)
  | .attributes => located ((requiredExpression .attributes value).map attributes)
  | .strip => .ok (.plain (.strip (optionalExpression value)))
  | .extension kind => .ok (.plain (.extension kind (optionalExpression value)))

/-- Reads the directive of a name. For a name that is none of a directive the column is not known. -/
def read (registry : Registry) (name value : Text) (place : SourcePlace) (body : BodyId) :
    Except SourceError DirectiveReading :=
  match registry.named? name with
  | some n => readNamed n value place body
  | none => .error ⟨.unknownDirective name, { place with column := 0 }⟩

end Directive

end Stencil
