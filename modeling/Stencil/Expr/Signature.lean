import Stencil.Expr.Parser

/-!
# Function signatures

A signature is `name`, `name()` or `name(p, q=default, …)`. A default is kept as the part of the
source its tokens span, so that it is an expression of its own.
-/

namespace Stencil

open Stencil.Expr Stencil.Expr.Parse

namespace Signature

/-- The part of `source` from a token to the end of the last token before `rest`, where `ts` are the
tokens from the first one on. -/
def slice (source : Text) (ts rest : List Token) : Text :=
  let start := (ahead ts).offset
  match (ts.take (ts.length - rest.length)).getLast? with
  | some last => (source.drop start).take (last.offset + last.length - start)
  | none => []

/-- Reads the default value after an equals sign. -/
def readDefault (source : Text) : Parse Expression := do
  let ts ← get
  let _ ← readAt source (stepsFor ts.length) .conditional
  return ⟨slice source ts (← get)⟩

/-- Reads parameters up to the closing parenthesis; `defaults` is set once one had a default. -/
def readParameters (source : Text) : Nat → Bool → Parse (List Parameter)
  | 0, _ => fun ts => .error ⟨.outOfSteps, (ahead ts).offset, source⟩
  | n + 1, defaults => do
    if ← accept (.symbol .closeParen) then return []
    else
      let name ← expect source .name
      let default? ←
        if ← accept (.symbol .assign) then pure (some (← readDefault source))
        else if defaults then fail source (.defaultBefore name.text) (ahead (← get)).offset
        else pure none
      let parameter : Parameter := ⟨name.text, default?⟩
      if ← accept (.symbol .comma) then
        return parameter :: (← readParameters source n default?.isSome)
      else
        let _ ← expect source (.symbol .closeParen)
        return [parameter]

/-- Reads a signature and the end of the input. -/
def read (source : Text) : Parse Signature := do
  let name ← expect source .name
  if ← accept .endOfInput then return ⟨name.text, []⟩
  else
    let _ ← expect source (.symbol .openParen)
    let parameters ← readParameters source ((← get).length + 1) false
    let _ ← expect source .endOfInput
    return ⟨name.text, parameters⟩

/-- The signature written in a text, white space around it left aside. -/
def parse (text : Text) : Except SyntaxError Signature :=
  let source := Text.trimWhite text
  match Token.scan source with
  | .error e => .error e
  | .ok ts =>
    match read source ts with
    | .error e => .error e
    | .ok (signature, _) => .ok signature

end Signature

end Stencil
