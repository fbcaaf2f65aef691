import Stencil.Expr.Parser
import Stencil.Value.Operations
import Stencil.Path.Select
import Stencil.Store

/-!
# Evaluating expressions

Evaluation goes over the tree. It reads the context and changes the store only by making functions
and streams, so a failed evaluation leaves no trace.

Calling a function that a template has defined may evaluate the defaults of its parameters, and these
may call functions again. `Function.call` has fuel for that nesting and for ranges that go on for
ever, and the evaluator takes the way of calling as an argument.
-/

namespace Stencil

/-- A computation on the store that may be stopped. -/
abbrev Eval (α : Type) := StateT Store (Except Stop) α

namespace Eval

def stop {α : Type} (s : Stop) : Eval α := fun _ => .error s

def fail {α : Type} (e : EvalError) : Eval α := stop (.fault (.badEvaluation e none))

def ofResult {α : Type} : Value.Result α → Eval α
  | .ok a => pure a
  | .error e => fail e

end Eval

/-! ## Functions -/

namespace Function

/-- `len(value)`. -/
def lengthOf : List Value → Value.Result Value
  | [.text t] => .ok (.int (Int64.ofNat t.length))
  | [.list es] => .ok (.int (Int64.ofNat es.length))
  | [.dict es] => .ok (.int (Int64.ofNat es.length))
  | [v] => .error (.noLength v.type)
  | _ => .error .lengthArguments

/-- `str(value)`. -/
def textOf : List Value → Value.Result Value
  | [] => .ok (.text [])
  | [v] => .ok (.text v.toText)
  | _ => .error .textArguments

/-- The integers of a range whose bounds and step are known. -/
def rangeBetween (fuel : Nat) (start stop step : Int64) : Eval Value :=
  if step = 0 then Eval.fail .zeroStep
  else match Value.range fuel start stop step with
    | some vs => pure (.list vs)
    | none => Eval.stop .outOfFuel

/-- `range(stop)`, `range(start, stop)` or `range(start, stop, step)`. -/
def rangeOf (fuel : Nat) : List Value → Eval Value
  | [stop] => do
    let b ← Eval.ofResult stop.asInt
    rangeBetween fuel 0 b 1
  | [start, stop] => do
    let a ← Eval.ofResult start.asInt
    let b ← Eval.ofResult stop.asInt
    rangeBetween fuel a b 1
  | [start, stop, step] => do
    let a ← Eval.ofResult start.asInt
    let b ← Eval.ofResult stop.asInt
    let k ← Eval.ofResult step.asInt
    rangeBetween fuel a b k
  | _ => Eval.fail .rangeArguments

/-- `defined(name)`. -/
def definedOf (arguments : List Value) : Eval Value := do
  match arguments with
  | [.text name] => return .bool ((← get).context.isDefined name)
  | _ => Eval.fail .definedArguments

/-- `select(path)`: a stream of the events that a path selects from the matched ones. -/
def selectFrom (matched : List Event) (arguments : List Value) : Eval Value :=
  match arguments with
  | [.text source] =>
    match Path.parse source with
    | .ok path => fun s => .ok (s.newStream (.plain (path.select matched)))
    | .error e => Eval.fail (.badPath e)
  | _ => Eval.fail .selectArguments

/-- Binds parameters: to the arguments by position as long as there are any, then by keyword, then to
their defaults, else to None. -/
def bindParameters (evalDefault : Expression → Eval Value) (keywords : List (Text × Value)) :
    List Parameter → List Value → Frame → Eval Frame
  | [], _, frame => pure frame
  | p :: ps, v :: vs, frame => bindParameters evalDefault keywords ps vs (frame.bind p.name v)
  | p :: ps, [], frame => do
    let v ← match Entries.find? p.name keywords, p.default? with
      | some v, _ => pure v
      | none, some e => evalDefault e
      | none, none => pure .none
    bindParameters evalDefault keywords ps [] (frame.bind p.name v)

end Function

/-! ## Expressions -/

def Literal.value : Literal → Value
  | none => .none
  | bool b => .bool b
  | int n => .int n
  | float x => .float x
  | text t => .text t

namespace Expr

/-- A way to call functions. -/
abbrev Caller := Function → Arguments → Eval Value

/-- The functions that every expression knows, unless the context binds their names. -/
def builtin (name : Text) : Eval Value :=
  if name == "len" then pure (.function ⟨0, .length⟩)
  else if name == "str" then pure (.function ⟨1, .text⟩)
  else if name == "range" then pure (.function ⟨2, .range⟩)
  else if name == "defined" then fun s =>
    let (f, s) := s.newFunction .defined
    .ok (.function f, s)
  else pure .undefined

/-- The value of a name. -/
def lookup (name : Text) : Eval Value := do
  let v := (← get).context.get name
  if v.isUndefined then builtin name else pure v

/-- A name that is called has to be defined. -/
def checkCallee (callee : Expr) (v : Value) : Eval Unit :=
  match callee with
  | .name n => if v.isUndefined then Eval.fail (.notDefined n) else pure ()
  | _ => pure ()

/-- Calls a value. -/
def apply (call : Caller) (v : Value) (a : Arguments) : Eval Value :=
  match v with
  | .function f => call f a
  | v => Eval.fail (.notCallable v.type)

/-- The key of an entry of a dict display. -/
def dictKey (v : Value) : Eval Text :=
  match v with
  | .text k => pure k
  | v => Eval.fail (.dictKeyNotText v.type)

mutual

/-- The value of an expression. -/
def evalWith (call : Caller) : Expr → Eval Value
  | literal l => pure l.value
  | name n => lookup n
  | member object n => do
    let v ← evalWith call object
    Eval.ofResult (v.member n)
  | item object key => do
    let v ← evalWith call object
    let k ← evalWith call key
    Eval.ofResult (v.item k)
  | .call function arguments keywords => do
    let f ← evalWith call function
    checkCallee function f
    let positional ← evalAll call arguments
    let named ← evalKeywords call keywords []
    apply call f ⟨positional, named⟩
  | list elements => do
    let vs ← evalAll call elements
    return .list vs
  | dict entries => do
    let es ← evalEntries call entries []
    return .dict es
  | unary op operand => do
    let v ← evalWith call operand
    Eval.ofResult (v.applyUnary op)
  | binary op left right => do
    let a ← evalWith call left
    match op with
    | .and => if a.isTrue then evalWith call right else pure a
    | .or => if a.isTrue then pure a else evalWith call right
    | op => do
      let b ← evalWith call right
      Eval.ofResult (Value.applyBinary op a b)
  | conditional test value other => do
    let t ← evalWith call test
    if t.isTrue then evalWith call value else evalWith call other

/-- The values of expressions, in order. -/
def evalAll (call : Caller) : List Expr → Eval (List Value)
  | [] => pure []
  | e :: es => do
    let v ← evalWith call e
    let vs ← evalAll call es
    return v :: vs

/-- The values of keyword arguments; the last one of a name stays. -/
def evalKeywords (call : Caller) : List (Text × Expr) → List (Text × Value) → Eval (List (Text × Value))
  | [], acc => pure acc
  | (n, e) :: es, acc => do
    let v ← evalWith call e
    evalKeywords call es (Entries.insert n v acc)

/-- The entries of a dict display; the last one of a key stays. -/
def evalEntries (call : Caller) : List (Expr × Expr) → List (Text × Value) → Eval (List (Text × Value))
  | [], acc => pure acc
  | (k, e) :: es, acc => do
    let kv ← evalWith call k
    let key ← dictKey kv
    let v ← evalWith call e
    evalEntries call es (Entries.insert key v acc)

end

end Expr

/-- Evaluates an expression of a template, which is read only now. -/
def Expression.evalWith (call : Expr.Caller) (e : Expression) : Eval Value :=
  match e.tree with
  | .ok tree => tree.evalWith call
  | .error e => Eval.stop (.fault (.badSyntax e none))

/-- Calls a function; `fuel` bounds the nesting of calls in defaults and the length of ranges. -/
def Function.call : Nat → Function → Arguments → Eval Value
  | 0, _, _ => Eval.stop .outOfFuel
  | fuel + 1, f, a =>
    match f.kind with
    | .length => Eval.ofResult (lengthOf a.positional)
    | .text => Eval.ofResult (textOf a.positional)
    | .range => rangeOf fuel a.positional
    | .defined => definedOf a.positional
    | .template signature body => do
      let frame ← bindParameters (Expression.evalWith (Function.call fuel)) a.keywords signature.parameters
        a.positional []
      fun s => .ok (s.newStream (.waiting frame (s.body body)))
    | .select matched => selectFrom matched a.positional
    | .host _ number => fun s => Eval.ofResult (s.host.call number a) s

/-- Evaluates an expression of a template. -/
def Expression.eval (fuel : Nat) (e : Expression) : Eval Value := e.evalWith (Function.call fuel)

end Stencil
