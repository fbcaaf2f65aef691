import Stencil.Value.Error
import Stencil.Document.Reader

/-!
# Errors in the source of a template

An error in a template is located by file name, line and column; `SourceError.message` ends with the
file and the line.
-/

namespace Stencil

structure SourcePlace where
  filename : Text
  line : UInt32
  column : UInt32
deriving DecidableEq, Repr

namespace SourcePlace

/-- The place of an event of a file. -/
def ofPosition (filename : Text) (p : Position) : SourcePlace := ⟨filename, p.line, p.column⟩

/-- The place that many bytes to the right. -/
def shift (p : SourcePlace) (offset : Nat) : SourcePlace :=
  { p with column := p.column + UInt32.ofNat offset }

/-- A message, which ends at a NUL, with the file and line it is about. A file without a name is a text. -/
def locate (p : SourcePlace) (message : Text) : Text :=
  let filename : Text := if p.filename.isEmpty then "<string>" else p.filename
  Text.untilNul (message ++ " (" ++ filename ++ ", line " ++ Text.ofNat p.line.toNat ++ ")")

end SourcePlace

/-- What is wrong with the source of a template. -/
inductive SourceCause where
  | document (e : DocumentError)
  | expression (e : SyntaxError)
  | path (e : PathError)
  | unknownDirective (name : Text)
  | missingExpression (directive : Text)
  /-- a loop without `in` between its targets and what it runs through -/
  | loopShape (value : Text)
  | emptyLoopVariable (value : Text)
deriving DecidableEq, Repr

namespace SourceCause

def message : SourceCause → Text
  | document e => e.message
  | expression e => e.message
  | path e => e.message
  | unknownDirective name => "Bad directive \"" ++ name ++ "\""
  | missingExpression directive => "The \"" ++ directive ++ "\" directive requires an expression"
  | loopShape value =>
    "\"for\" directive must be of the form \"targets in expression\", found \"" ++ value ++ "\""
  | emptyLoopVariable value => "empty loop variable in \"for\" directive \"" ++ value ++ "\""

end SourceCause

/-- An error in the source of a template. -/
structure SourceError where
  cause : SourceCause
  place : SourcePlace
deriving DecidableEq, Repr

def SourceError.message (e : SourceError) : Text := e.place.locate e.cause.message

end Stencil
