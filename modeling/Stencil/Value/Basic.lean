import Stencil.Event
import Stencil.Binary64

/-!
# Values

What expressions compute with and frames bind names to. Dicts are lists of entries sorted by key.
Functions and streams have an identity besides what they are: two of them are equal only if they are
the same object.

`toText` is the text of a value in a document, `represent` its text inside lists, dicts and messages,
where strings are quoted.
-/

namespace Stencil

/-- What calling a function does. -/
inductive FunctionKind where
  | length
  | text
  | range
  | defined
  /-- a function bound by a `def` directive -/
  | template (signature : Signature) (body : BodyId)
  /-- the selection from the events of a matched element -/
  | select (matched : List Event)
  /-- a function of the host, by the number of its code -/
  | host (name : Text) (number : Nat)

structure Function where
  id : Nat
  kind : FunctionKind

inductive Value where
  /-- what looking up an unknown name gives -/
  | undefined
  | none
  | bool (b : Bool)
  | int (n : Int64)
  | float (x : Float)
  | text (t : Text)
  | list (elements : List Value)
  | dict (entries : List (Text × Value))
  | function (f : Function)
  /-- a stream of events that can be consumed once, by its place in the store -/
  | stream (id : Nat)

instance : Inhabited Value := ⟨.undefined⟩

inductive ValueType where
  | undefined | none | bool | int | float | text | list | dict | function | stream
deriving DecidableEq, Repr

/-- The word for a type in messages. -/
def ValueType.word : ValueType → Text
  | undefined => "undefined"
  | none => "None"
  | bool => "bool"
  | int => "int"
  | float => "float"
  | text => "str"
  | list => "list"
  | dict => "dict"
  | function => "function"
  | stream => "stream"

/-- The name of a function in its text. -/
def Function.name (f : Function) : Text :=
  match f.kind with
  | .length => "len"
  | .text => "str"
  | .range => "range"
  | .defined => "defined"
  | .template signature _ => signature.name
  | .select _ => "select"
  | .host name _ => name

/-! ## Entries of dicts and frames -/

namespace Entries

/-- Binds a key in a list of entries sorted by key. -/
def insert (key : Text) (value : Value) : List (Text × Value) → List (Text × Value)
  | [] => [(key, value)]
  | (k, v) :: es =>
    match Text.order key k with
    | .lt => (key, value) :: (k, v) :: es
    | .eq => (key, value) :: es
    | .gt => (k, v) :: insert key value es

/-- The sorted entries of a list of pairs; a later pair wins. -/
def ofPairs (pairs : List (Text × Value)) : List (Text × Value) :=
  pairs.foldl (fun es (k, v) => insert k v es) []

def find? (key : Text) (es : List (Text × Value)) : Option Value :=
  (es.find? (·.1 == key)).map (·.2)

end Entries

namespace Value

def type : Value → ValueType
  | undefined => .undefined
  | none => .none
  | bool _ => .bool
  | int _ => .int
  | float _ => .float
  | text _ => .text
  | list _ => .list
  | dict _ => .dict
  | function _ => .function
  | stream _ => .stream

/-- None and undefined values stand for nothing. -/
def isNull : Value → Bool
  | undefined | none => true
  | _ => false

def isUndefined : Value → Bool
  | undefined => true
  | _ => false

/-- Nothing, `False`, zero and whatever is empty are false. -/
def isTrue : Value → Bool
  | undefined | none => false
  | bool b => b
  | int n => n != 0
  | float x => x != 0.0
  | text t => !t.isEmpty
  | list es => !es.isEmpty
  | dict es => !es.isEmpty
  | function _ | stream _ => true

/-! ## Text and representation -/

/-- The quote around a string: an apostrophe, unless the string has apostrophes and no double
quotes. -/
def quoteFor (s : Text) : Byte :=
  if s.contains ('\'' : Byte) && !s.contains ('\"' : Byte) then '\"' else '\''

/-- A byte of a string inside quotes. -/
def escape (quote c : Byte) : Text :=
  let body : Text := if c == '\n' then "\\n" else [c]
  if c == quote || c == '\\' then "\\" ++ body else body

/-- A string in quotes, with the quote, backslashes and newlines escaped. -/
def quoted (s : Text) : Text :=
  let quote := quoteFor s
  [quote] ++ s.flatMap (escape quote) ++ [quote]

mutual

/-- The text of a value inside lists, dicts and messages. -/
def represent : Value → Text
  | undefined => []
  | none => "None"
  | bool b => if b then "True" else "False"
  | int n => Text.ofInt n.toInt
  | float x => Binary64.toText x
  | text t => quoted t
  | list es => "[" ++ representAll es ++ "]"
  | dict es => "\x7b" ++ representEntries es ++ "\x7d"
  | function f => "<function " ++ f.name ++ ">"
  | stream _ => "<stream>"

/-- The elements of a list, separated by commas. -/
def representAll : List Value → Text
  | [] => []
  | [v] => represent v
  | v :: vs => represent v ++ ", " ++ representAll vs

/-- The entries of a dict, separated by commas. -/
def representEntries : List (Text × Value) → Text
  | [] => []
  | [(k, v)] => quoted k ++ ": " ++ represent v
  | (k, v) :: es => quoted k ++ ": " ++ represent v ++ ", " ++ representEntries es

end

/-- The text of a value in a document. -/
def toText : Value → Text
  | text t => t
  | v => represent v

end Value

end Stencil
