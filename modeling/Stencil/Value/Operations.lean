import Stencil.Value.Error

/-!
# Operations on values

Equality, order, access, membership and arithmetic. Integer arithmetic is exact in 64 bits or
fails. Order compares numbers and booleans as doubles, texts by bytes and lists element by element;
equality compares two integers exactly.
-/

namespace Stencil

namespace Value

/-- The result of an operation that may fail. -/
abbrev Result (α : Type) := Except EvalError α

/-! ## Asking for a type -/

def asBool : Value → Result Bool
  | bool b => .ok b
  | v => .error (.wrongType .boolean v.type)

def asInt : Value → Result Int64
  | int n => .ok n
  | v => .error (.wrongType .integer v.type)

/-- The double that a number is or is nearest to. -/
def number? : Value → Option Float
  | int n => some (Binary64.ofInt n.toInt)
  | float x => some x
  | _ => .none

def asNumber (v : Value) : Result Float :=
  match v.number? with
  | some x => .ok x
  | .none => .error (.wrongType .number v.type)

def asText : Value → Result Text
  | text t => .ok t
  | v => .error (.wrongType .string v.type)

def asList : Value → Result (List Value)
  | list es => .ok es
  | v => .error (.wrongType .list v.type)

def asDict : Value → Result (List (Text × Value))
  | dict es => .ok es
  | v => .error (.wrongType .map v.type)

def asFunction : Value → Result Function
  | function f => .ok f
  | v => .error (.wrongType .callable v.type)

def asStream : Value → Result Nat
  | stream id => .ok id
  | v => .error (.wrongType .stream v.type)

/-! ## Equality and order -/

mutual

/-- Equality of values: numbers by value, functions and streams by identity. -/
def equal : Value → Value → Bool
  | undefined, undefined => true
  | none, none => true
  | bool a, bool b => a == b
  | int a, int b => a == b
  | int a, float y => Binary64.ofInt a.toInt == y
  | float x, int b => x == Binary64.ofInt b.toInt
  | float x, float y => x == y
  | text a, text b => a == b
  | list as, list bs => equalAll as bs
  | dict as, dict bs => equalEntries as bs
  | function f, function g => f.id == g.id
  | stream i, stream j => i == j
  | _, _ => false

def equalAll : List Value → List Value → Bool
  | [], [] => true
  | a :: as, b :: bs => equal a b && equalAll as bs
  | _, _ => false

def equalEntries : List (Text × Value) → List (Text × Value) → Bool
  | [], [] => true
  | (k, a) :: as, (l, b) :: bs => k == l && equal a b && equalEntries as bs
  | _, _ => false

end

/-- The double by which numbers and booleans are ordered. -/
def rank? : Value → Option Float
  | bool b => some (if b then 1.0 else 0.0)
  | v => v.number?

/-- The order of two doubles; where one is not a number neither comes first. -/
def orderFloats (x y : Float) : Ordering :=
  if x < y then .lt else if y < x then .gt else .eq

mutual

/-- The order of two values, if they can be compared. -/
def compare : Value → Value → Result Ordering
  | text a, b => match b with
    | text b => .ok (Text.order a b)
    | _ => .error (.incomparable .text b.type)
  | list as, b => match b with
    | list bs => compareAll as bs
    | _ => .error (.incomparable .list b.type)
  | a, b => match a.rank?, b.rank? with
    | some x, some y => .ok (orderFloats x y)
    | _, _ => .error (.incomparable a.type b.type)

/-- The order of two lists: that of their first elements that differ, else of their lengths. -/
def compareAll : List Value → List Value → Result Ordering
  | [], [] => .ok .eq
  | [], _ :: _ => .ok .lt
  | _ :: _, [] => .ok .gt
  | a :: as, b :: bs => match compare a b with
    | .ok .eq => compareAll as bs
    | r => r

end

/-! ## Access -/

/-- `value.name`: an entry of a dict. What is undefined has undefined members. -/
def member (v : Value) (name : Text) : Result Value :=
  match v with
  | undefined => .ok .undefined
  | dict es => .ok ((Entries.find? name es).getD .undefined)
  | _ => .error (.noMember v.type name)

/-- The element at an index, a negative one counting from the end. -/
def elementAt {α : Type} (es : List α) (index : Int64) : Result α :=
  let i := if index < 0 then index.toInt + es.length else index.toInt
  if i < 0 then .error (.indexOutOfRange index)
  else match es[i.toNat]? with
    | some e => .ok e
    | .none => .error (.indexOutOfRange index)

/-- `value[key]`. -/
def item (v key : Value) : Result Value :=
  match v with
  | undefined => .ok .undefined
  | dict es => match key with
    | text k => .ok ((Entries.find? k es).getD .undefined)
    | _ => .error (.keyNotText key.type)
  | list es => match key with
    | int i => elementAt es i
    | _ => .error (.indexNotInt key.type)
  | text t => match key with
    | int i => (elementAt t i).map fun c => text [c]
    | _ => .error (.indexNotInt key.type)
  | _ => .error (.notIndexable v.type)

/-- What a loop over a value runs through: elements, keys or bytes. -/
def items : Value → Result (List Value)
  | list es => .ok es
  | dict es => .ok (es.map fun (k, _) => text k)
  | text t => .ok (t.map fun c => text [c])
  | v => .error (.notIterable v.type)

/-- `sought in container`. -/
def contains (container sought : Value) : Result Bool :=
  match container with
  | list es => .ok (es.any fun e => equal e sought)
  | dict es => match sought with
    | text k => .ok (Entries.find? k es).isSome
    | _ => .ok false
  | text t => match sought with
    | text s => .ok (Text.hasInfix s t)
    | _ => .error .soughtNotText
  | v => .error (.notContainer v.type)

/-- `a is b`: nothing is only itself, anything else is what it equals. -/
def identical (a b : Value) : Bool :=
  if a.isNull || b.isNull then a.type = b.type else equal a b

/-! ## Arithmetic -/

/-- An exact integer result, if it fits into 64 bits. -/
def checked (op : Operator) (a b : Int64) (n : Int) : Result Value :=
  match Text.fitInt64? n with
  | some k => .ok (int k)
  | .none => .error (.overflow op a b)

/-- The remainder of a division of doubles that has the sign of the divisor. -/
def floorRemainder (x y : Float) : Float :=
  let r := Binary64.remainder x y
  if r != 0.0 && (decide (r < 0.0) != decide (y < 0.0)) then r + y else r

/-- Arithmetic on doubles. -/
def floatArithmetic (op : Operator) (x y : Float) : Result Value :=
  match op with
  | .add => .ok (float (x + y))
  | .subtract => .ok (float (x - y))
  | .multiply => .ok (float (x * y))
  | .divide => if y == 0.0 then .error .divisionByZero else .ok (float (x / y))
  | .modulo => if y == 0.0 then .error .moduloByZero else .ok (float (floorRemainder x y))
  | _ => .error (.badOperands op .float .float)

/-- The remainder of a division of integers that has the sign of the divisor. -/
def intRemainder (a b : Int64) : Int64 :=
  -- the quotient of the smallest integer by -1 is no 64-bit integer
  if b == -1 then 0
  else
    let r := a % b
    if r != 0 && (decide (r < 0) != decide (b < 0)) then r + b else r

/-- Arithmetic on integers; only division leaves them. -/
def intArithmetic (op : Operator) (a b : Int64) : Result Value :=
  match op with
  | .add => checked op a b (a.toInt + b.toInt)
  | .subtract => checked op a b (a.toInt - b.toInt)
  | .multiply => checked op a b (a.toInt * b.toInt)
  | .modulo => if b == 0 then .error .moduloByZero else .ok (int (intRemainder a b))
  | _ => floatArithmetic op (Binary64.ofInt a.toInt) (Binary64.ofInt b.toInt)

/-- `a op b` for an arithmetic operator. Texts and lists can be joined, a text can be repeated. -/
def arithmetic (op : Operator) (a b : Value) : Result Value :=
  let mismatch : Result Value := .error (.badOperands op a.type b.type)
  match a, b with
  | int m, int n => intArithmetic op m n
  | text s, text t => if op = .add then .ok (text (s ++ t)) else mismatch
  | list es, list fs => if op = .add then .ok (list (es ++ fs)) else mismatch
  | text s, int n =>
    if op = .multiply then .ok (text (List.replicate n.toInt.toNat s).flatten) else mismatch
  | _, _ => match a.number?, b.number? with
    | some x, some y => floatArithmetic op x y
    | _, _ => mismatch

/-- `-a`, `+a` or `not a`. -/
def applyUnary (op : UnaryOperator) (v : Value) : Result Value :=
  match op, v with
  | .not, _ => .ok (bool (!v.isTrue))
  | .identity, int n => .ok (int n)
  | .identity, float x => .ok (float x)
  | .negate, int n => match Text.fitInt64? (-n.toInt) with
    | some k => .ok (int k)
    | .none => .error .negationOverflow
  | .negate, float x => .ok (float (-x))
  | _, _ => .error (.badOperand op v.type)

/-- Whether an order relation written with `op` holds. -/
def holds (op : Operator) (o : Ordering) : Bool :=
  match op with
  | .less => o.isLT
  | .lessEqual => o.isLE
  | .greater => o.isGT
  | .greaterEqual => o.isGE
  | _ => false

/-- `a op b`, both operands having been evaluated. -/
def applyBinary (op : Operator) (a b : Value) : Result Value :=
  match op with
  | .equal => .ok (bool (equal a b))
  | .notEqual => .ok (bool (!equal a b))
  | .less | .lessEqual | .greater | .greaterEqual => (compare a b).map fun o => bool (holds op o)
  | .in => (contains b a).map bool
  | .notIn => (contains b a).map fun r => bool (!r)
  | .is => .ok (bool (identical a b))
  | .isNot => .ok (bool (!identical a b))
  | .and => .ok (if a.isTrue then b else a)
  | .or => .ok (if a.isTrue then a else b)
  | .add | .subtract | .multiply | .divide | .modulo => arithmetic op a b

/-! ## Ranges -/

/-- `i` comes before `stop` in the direction of `step`. -/
def comesBefore (stop step i : Int64) : Bool := if 0 < step then i < stop else stop < i

/-- The integers from `i` on, by steps of `step`, as long as they come before `stop`, after those of
`acc`, the last one first. The sum is taken in 64 bits: a range that steps over the largest or
smallest integer goes on at the other end, and may never end. -/
def rangeFrom (stop step : Int64) (acc : List Value) : Nat → Int64 → Option (List Value)
  | 0, _ => .none
  | fuel + 1, i =>
    if comesBefore stop step i then rangeFrom stop step (int i :: acc) fuel (i + step)
    else some acc.reverse

/-- The integers of a range, if there are fewer than `fuel`. -/
def range (fuel : Nat) (start stop step : Int64) : Option (List Value) := rangeFrom stop step [] fuel start

end Value

end Stencil
