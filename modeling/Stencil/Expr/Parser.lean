import Stencil.Expr.Syntax
import Stencil.Binary64
import Stencil.Event

/-!
# Reading expressions

A recursive descent over the levels of precedence. The token list always ends with `endOfInput`,
which is never consumed; an error names the token at which reading stopped.

Every reading function takes a number of steps and gives each call one step less. Between two calls
that consume a token there are at most ten that do not, one per level, so `stepsFor` is enough.
-/

namespace Stencil

namespace Expr

/-- Reading: consumes tokens or fails with a syntax error. -/
abbrev Parse (α : Type) := StateT (List Token) (Except SyntaxError) α

namespace Parse

/-- The token ahead. -/
def ahead (ts : List Token) : Token := ts.headD ⟨.endOfInput, [], 0, 0⟩

/-- The kind of the token after the one ahead; the end of the input stays ahead for ever. -/
def afterNext (ts : List Token) : TokenKind :=
  match ts with
  | _ :: t :: _ => t.kind
  | _ => (ahead ts).kind

def peek : Parse Token := fun ts => .ok (ahead ts, ts)

/-- Consumes the token ahead, unless it is the end of the input. -/
def advance : Parse Token := fun ts =>
  let t := ahead ts
  .ok (t, if t.kind = .endOfInput then ts else ts.tail)

/-- Consumes the token ahead if it is of the given kind. -/
def accept (kind : TokenKind) : Parse Bool := fun ts =>
  let t := ahead ts
  if t.kind = kind then .ok (true, if t.kind = .endOfInput then ts else ts.tail) else .ok (false, ts)

def fail {α : Type} (source : Text) (cause : SyntaxCause) (offset : Nat) : Parse α := fun _ =>
  .error ⟨cause, offset, source⟩

/-- Consumes the token ahead, which must be of the given kind. -/
def expect (source : Text) (kind : TokenKind) : Parse Token := do
  let t ← peek
  if t.kind = kind then advance
  else fail source (.expected kind t.kind) t.offset

/-- Consumes the operator ahead if it belongs to the given level. -/
def operator? (level : Level) : Parse (Option Operator) := fun ts =>
  match Operator.all.find? fun op => op.level = level && op.tokens.isPrefixOf (ts.map (·.kind)) with
  | some op => .ok (some op, ts.drop op.tokens.length)
  | none => .ok (none, ts)

/-- Consumes the string constants ahead and joins their contents. -/
def adjacentStrings : Parse Text := fun ts =>
  .ok ((ts.takeWhile (·.kind = .string)).flatMap (·.text), ts.dropWhile (·.kind = .string))

end Parse

open Parse

mutual

/-- Reads an expression of the given level. -/
def readAt (source : Text) : Nat → Level → Parse Expr
  | 0, _ => fun ts => .error ⟨.outOfSteps, (ahead ts).offset, source⟩
  | n + 1, .conditional => do
    let value ← readAt source n .disjunction
    if ← accept (.keyword .if) then
      let test ← readAt source n .disjunction
      let _ ← expect source (.keyword .else)
      let other ← readAt source n .conditional
      return .conditional test value other
    else return value
  | n + 1, .negation => do
    if ← accept (.keyword .not) then
      return .unary .not (← readAt source n .negation)
    else readAt source n .comparison
  | n + 1, .sign => do
    if ← accept (.symbol .minus) then
      return .unary .negate (← readAt source n .sign)
    else if ← accept (.symbol .plus) then
      return .unary .identity (← readAt source n .sign)
    else readAt source n .access
  | n + 1, .access => do
    let object ← readAt source n .atom
    readAccesses source n object
  | n + 1, .atom => do
    let t ← advance
    readAtom source n t
  | n + 1, level => do
    let left ← readAt source n level.operand
    readOperators source n level left

/-- Reads the operators of a level and their right operands after a left operand. -/
def readOperators (source : Text) : Nat → Level → Expr → Parse Expr
  | 0, _, _ => fun ts => .error ⟨.outOfSteps, (ahead ts).offset, source⟩
  | n + 1, level, left => do
    match ← operator? level with
    | some op =>
      let right ← readAt source n level.operand
      readOperators source n level (.binary op left right)
    | none => return left

/-- Reads the attribute accesses, subscripts and calls after an object. -/
def readAccesses (source : Text) : Nat → Expr → Parse Expr
  | 0, _ => fun ts => .error ⟨.outOfSteps, (ahead ts).offset, source⟩
  | n + 1, object => do
    if ← accept (.symbol .dot) then
      let t ← expect source .name
      readAccesses source n (.member object t.text)
    else if ← accept (.symbol .openBracket) then
      let key ← readAt source n .conditional
      let _ ← expect source (.symbol .closeBracket)
      readAccesses source n (.item object key)
    else if ← accept (.symbol .openParen) then
      let (arguments, keywords) ← readArguments source n false
      readAccesses source n (.call object arguments keywords)
    else return object

/-- Reads the atom that starts with the token `t`, which has been consumed. -/
def readAtom (source : Text) : Nat → Token → Parse Expr
  | 0, _ => fun ts => .error ⟨.outOfSteps, (ahead ts).offset, source⟩
  | n + 1, t =>
    match t.kind with
    | .name => return .name t.text
    | .keyword .none => return .literal .none
    | .keyword .true => return .literal (.bool true)
    | .keyword .false => return .literal (.bool false)
    | .string => do
      let more ← adjacentStrings
      return .literal (.text (t.text ++ more))
    | .integer =>
      match Text.toInt64? t.text with
      | some k => return .literal (.int k)
      | none => fail source (.integerOutOfRange t.text) t.offset
    | .decimal =>
      match Binary64.ofText? t.text with
      | some x => return .literal (.float x)
      | none => fail source (.badDecimal t.text) t.offset
    | .symbol .openParen => do
      if ← accept (.symbol .closeParen) then return .list []
      else
        let first ← readAt source n .conditional
        if ← accept (.symbol .closeParen) then return first
        else
          let _ ← expect source (.symbol .comma)
          return .list (first :: (← readElements source n .closeParen))
    | .symbol .openBracket => return .list (← readElements source n .closeBracket)
    | .symbol .openBrace => return .dict (← readEntries source n)
    | k => fail source (.unexpected k) t.offset

/-- Reads expressions separated by commas up to a closing symbol; a comma may stand before it. -/
def readElements (source : Text) : Nat → Symbol → Parse (List Expr)
  | 0, _ => fun ts => .error ⟨.outOfSteps, (ahead ts).offset, source⟩
  | n + 1, close => do
    if ← accept (.symbol close) then return []
    else
      let e ← readAt source n .conditional
      if ← accept (.symbol .comma) then return e :: (← readElements source n close)
      else
        let _ ← expect source (.symbol close)
        return [e]

/-- Reads the entries of a dict display up to its closing brace. -/
def readEntries (source : Text) : Nat → Parse (List (Expr × Expr))
  | 0 => fun ts => .error ⟨.outOfSteps, (ahead ts).offset, source⟩
  | n + 1 => do
    if ← accept (.symbol .closeBrace) then return []
    else
      let key ← readAt source n .conditional
      let _ ← expect source (.symbol .colon)
      let value ← readAt source n .conditional
      if ← accept (.symbol .comma) then return (key, value) :: (← readEntries source n)
      else
        let _ ← expect source (.symbol .closeBrace)
        return [(key, value)]

/-- Reads the arguments of a call up to its closing parenthesis. Once a keyword argument has been
read (`keywordSeen`) only keyword arguments may follow. -/
def readArguments (source : Text) : Nat → Bool → Parse (List Expr × List (Text × Expr))
  | 0, _ => fun ts => .error ⟨.outOfSteps, (ahead ts).offset, source⟩
  | n + 1, keywordSeen => do
    if ← accept (.symbol .closeParen) then return ([], [])
    else
      let ts ← get
      if (ahead ts).kind = .name ∧ afterNext ts = .symbol .assign then
        let name ← advance
        let _ ← advance
        let value ← readAt source n .conditional
        let (arguments, keywords) ← readMoreArguments source n true
        return (arguments, (name.text, value) :: keywords)
      else if keywordSeen then fail source .positionalAfterKeyword (ahead ts).offset
      else
        let value ← readAt source n .conditional
        let (arguments, keywords) ← readMoreArguments source n false
        return (value :: arguments, keywords)

/-- Reads what follows an argument: a comma and more arguments, or the closing parenthesis. -/
def readMoreArguments (source : Text) : Nat → Bool → Parse (List Expr × List (Text × Expr))
  | 0, _ => fun ts => .error ⟨.outOfSteps, (ahead ts).offset, source⟩
  | n + 1, keywordSeen => do
    if ← accept (.symbol .comma) then readArguments source n keywordSeen
    else
      let _ ← expect source (.symbol .closeParen)
      return ([], [])

end

/-- Steps that suffice to read any expression from `count` tokens. -/
def stepsFor (count : Nat) : Nat := 16 * count + 16

/-- Reads an expression that uses up all tokens. -/
def ofTokens (source : Text) (ts : List Token) : Except SyntaxError Expr :=
  if (ahead ts).kind = .endOfInput then .error ⟨.emptyExpression, 0, source⟩
  else match readAt source (stepsFor ts.length) .conditional ts with
    | .error e => .error e
    | .ok (e, rest) =>
      if (ahead rest).kind = .endOfInput then .ok e
      else .error ⟨.unexpected (ahead rest).kind, (ahead rest).offset, source⟩

/-- The tree of an expression. -/
def parse (source : Text) : Except SyntaxError Expr :=
  match Token.scan source with
  | .error e => .error e
  | .ok ts => ofTokens source ts

end Expr

/-- The tree of an expression of a template. -/
def Expression.tree (e : Expression) : Except SyntaxError Expr := Expr.parse e.source

end Stencil
