import Stencil.Path.Basic

/-!
# Reading paths

Alternatives are separated by `|` outside of predicates and quotes, steps by `/` or `//`. A route
starts with `/` (anchored), `//` (at any depth) or its first step. A step is a name, `*`, `.`,
`text()`, `@name` or `@*`; a step that leads to elements may have one predicate `[@name]` or
`[@name='value']`.
-/

namespace Stencil

inductive PathCause where
  | emptyPath
  | missingStep
  | missingAttributeName
  | unexpectedCharacter (c : Byte)
  | misplacedPredicate
  | expectedAt
  | missingPredicateName
  | expectedQuote
  | unterminatedString
  | expectedClosingBracket
  | attributeNotLast
  | expectedSlash
  /-- the reader was not allowed enough steps; its callers always allow enough -/
  | outOfSteps
deriving DecidableEq, Repr

/-- What is wrong with the text of a path or of one of its routes. -/
structure PathError where
  cause : PathCause
  offset : Nat
  source : Text
deriving DecidableEq, Repr

namespace PathCause

def describe : PathCause → Text
  | emptyPath => "empty path"
  | missingStep => "missing step"
  | missingAttributeName => "missing attribute name"
  | unexpectedCharacter c => "unexpected character '" ++ [c] ++ "'"
  | misplacedPredicate => "predicates are only allowed on element steps"
  | expectedAt => "expected '@' in predicate"
  | missingPredicateName => "missing attribute name in predicate"
  | expectedQuote => "expected a quoted value in predicate"
  | unterminatedString => "unterminated string"
  | expectedClosingBracket => "expected ']'"
  | attributeNotLast => "attribute steps must come last"
  | expectedSlash => "expected '/'"
  | outOfSteps => "out of steps"

end PathCause

/-- The wording of an error, which may quote any bytes of the source. -/
def PathError.wording (e : PathError) : Text :=
  "in Markup::MarkupPath: " ++ e.cause.describe ++ " at offset " ++ Text.ofNat e.offset ++ " in \"" ++ e.source
    ++ "\"!"

/-- A message ends at a NUL. -/
def PathError.message (e : PathError) : Text := Text.untilNul e.wording

namespace Path

def isNamePart (c : Byte) : Bool :=
  c.isAlphanumeric || c == '_' || c == '-' || c == ':' || c == '.'

def isQuote (c : Byte) : Bool := c == '\'' || c == '\"'

/-- Puts a byte in front of the first of a list of texts. -/
def consFirst (c : Byte) : List Text → List Text
  | [] => [[c]]
  | t :: ts => (c :: t) :: ts

/-- The texts between the bars that are neither in quotes nor in brackets, after an opening quote or
inside `depth` brackets. -/
def splitRoutes (quote : Option Byte) (depth : Nat) : Text → List Text
  | [] => [[]]
  | c :: s =>
    match quote with
    | some q => consFirst c (splitRoutes (if c == q then none else some q) depth s)
    | none =>
      if isQuote c then consFirst c (splitRoutes (some c) depth s)
      else if c == '[' then consFirst c (splitRoutes none (depth + 1) s)
      else if c == ']' then consFirst c (splitRoutes none (depth - 1) s)
      else if c == '|' && depth == 0 then [] :: splitRoutes none 0 s
      else consFirst c (splitRoutes none depth s)

section

-- the text of the route that is read; `rest` below is what is left of it
variable (source : Text)

def failAt {α : Type} (cause : PathCause) (rest : Text) : Except PathError α :=
  .error ⟨cause, source.length - rest.length, source⟩

/-- Reads the test of a step. -/
def readTest (rest : Text) : Except PathError (NodeTest × Text) :=
  match rest with
  | [] => failAt source .missingStep rest
  | c :: r =>
    if c == '@' then
      if r.head? == some ('*' : Byte) then .ok (.anyAttribute, r.drop 1)
      else
        let name := r.takeWhile isNamePart
        if name.isEmpty then failAt source .missingAttributeName r
        else .ok (.attributeNamed name, r.dropWhile isNamePart)
    else if c == '*' then .ok (.anyElement, r)
    else if c == '.' && !r.head?.any isNamePart then .ok (.self, r)
    else
      let name := rest.takeWhile isNamePart
      let after := rest.dropWhile isNamePart
      if name.isEmpty then failAt source (.unexpectedCharacter c) rest
      else if name == "text" && ("()" : Text).isPrefixOf after then .ok (.text, after.drop 2)
      else .ok (.element name, after)

/-- Reads the value of a predicate after its equals sign. -/
def readValue (rest : Text) : Except PathError (Text × Text) :=
  match rest with
  | [] => failAt source .expectedQuote rest
  | q :: r =>
    if !isQuote q then failAt source .expectedQuote rest
    else if !r.contains q then failAt source .unterminatedString rest
    else .ok (r.takeWhile (· != q), (r.dropWhile (· != q)).drop 1)

/-- Reads the closing bracket of a predicate. -/
def readClose (p : Predicate) (rest : Text) : Except PathError (Option Predicate × Text) :=
  if rest.head? == some (']' : Byte) then .ok (some p, rest.drop 1)
  else failAt source .expectedClosingBracket rest

/-- Reads the predicate after a test, if there is one. -/
def readPredicate (test : NodeTest) (rest : Text) : Except PathError (Option Predicate × Text) :=
  if rest.head? != some ('[' : Byte) then .ok (none, rest)
  else if test.isAttribute || test = .text then failAt source .misplacedPredicate rest
  else
    let r := rest.drop 1
    if r.head? != some ('@' : Byte) then failAt source .expectedAt r
    else
      let name := (r.drop 1).takeWhile isNamePart
      let after := (r.drop 1).dropWhile isNamePart
      if name.isEmpty then failAt source .missingPredicateName after
      else if after.head? == some ('=' : Byte) then
        match readValue source (after.drop 1) with
        | .error e => .error e
        | .ok (value, last) => readClose source ⟨name, some value⟩ last
      else readClose source ⟨name, none⟩ after

/-- Reads the steps of a route up to its end. Every step uses up at least one byte, so a bound of
the length of the text and one is never reached. -/
def readSteps : Nat → Axis → Text → Except PathError (List Step)
  | 0, _, rest => failAt source .outOfSteps rest
  | n + 1, axis, rest =>
    match readTest source rest with
    | .error e => .error e
    | .ok (test, afterTest) =>
      match readPredicate source test afterTest with
      | .error e => .error e
      | .ok (predicate?, after) =>
        let step : Step := ⟨axis, test, predicate?⟩
        if after.isEmpty then .ok [step]
        else if test.isAttribute then failAt source .attributeNotLast after
        else if ("//" : Text).isPrefixOf after then
          (readSteps n .descendant (after.drop 2)).map (step :: ·)
        else if after.head? == some ('/' : Byte) then
          (readSteps n .child (after.drop 1)).map (step :: ·)
        else failAt source .expectedSlash after

end

/-- Reads a route. -/
def readRoute (source : Text) : Except PathError Route :=
  let n := source.length + 1
  if ("//" : Text).isPrefixOf source then
    (readSteps source n .descendant (source.drop 2)).map (⟨false, ·⟩)
  else if source.head? == some ('/' : Byte) then
    (readSteps source n .child (source.drop 1)).map (⟨true, ·⟩)
  else (readSteps source n .child source).map (⟨false, ·⟩)

/-- Reads the routes of the path `source` from the texts of its alternatives. -/
def readRoutes (source : Text) : List Text → Except PathError (List Route)
  | [] => .ok []
  | t :: ts =>
    let route := Text.trimWhite t
    if route.isEmpty then .error ⟨.emptyPath, 0, source⟩
    else match readRoute route with
      | .error e => .error e
      | .ok r => (readRoutes source ts).map (r :: ·)

def parse (source : Text) : Except PathError Path :=
  (readRoutes source (splitRoutes none 0 source)).map (⟨source, ·⟩)

end Path

end Stencil
