import Stencil.Expr.Evaluation

/-!
# Computing parts of events

The values that go into events while a template is expanded: attributes, texts, the frames of loops.
-/

namespace Stencil

/-! ## Attributes with expressions -/

namespace Attribute

/-- The text of a value with expressions. `none` where there is no literal piece and every expression
gives nothing. -/
def evalFragments (fuel : Nat) : List Fragment → Eval (Option Text)
  | [] => pure none
  | .literal t :: fs => do
    let rest ← evalFragments fuel fs
    return some (t ++ rest.getD [])
  | .expression e :: fs => do
    let v ← e.eval fuel
    let rest ← evalFragments fuel fs
    return if v.isNull then rest else some (v.toText ++ rest.getD [])

/-- The attribute with its value computed; `none` if the value is nothing. -/
def eval (fuel : Nat) (a : Attribute) : Eval (Option Attribute) :=
  if a.isLiteral then pure (some a)
  else do
    let t? ← evalFragments fuel a.value
    return t?.map fun t => ⟨a.name, [.literal t]⟩

end Attribute

namespace Attributes

/-- The attributes with their values computed; those whose value is nothing are left out. -/
def eval (fuel : Nat) : Attributes → Eval Attributes
  | [] => pure []
  | a :: as => do
    let a? ← a.eval fuel
    let rest ← eval fuel as
    return a?.toList ++ rest

/-! ## Merging attributes -/

/-- The pairs that a value gives to be merged. -/
def pairsOf : Value → Value.Result (List Value)
  | .dict es => .ok (es.map fun (k, v) => .list [.text k, v])
  | .list vs => .ok vs
  | v => .error (.noAttributes v.type)

/-- Sets the attribute of a pair, or removes it if its value is nothing. -/
def mergePair (as : Attributes) : Value → Value.Result Attributes
  | .list [.text name, v] =>
    .ok (if v.isNull then as.remove name else as.setText (.plain name) (Text.trimWhite v.toText))
  | v => .error (.badPair v)

/-- Merges the pairs of a value into attributes. -/
def merge (as : Attributes) (v : Value) : Value.Result Attributes := do
  let pairs ← pairsOf v
  pairs.foldlM mergePair as

end Attributes

/-! ## Loops -/

/-- The frame of an iteration: a single target is the item, several are the first parts of a list. -/
def loopFrame (targets : List Text) (item : Value) : Value.Result Frame :=
  match targets, item with
  | [t], v => .ok (Frame.bind [] t v)
  | ts, .list vs =>
    if vs.length < ts.length then .error (.unpack (.list vs) ts.length)
    else .ok ((ts.zip vs).foldl (fun f (t, v) => Frame.bind f t v) [])
  | ts, v => .error (.unpack v ts.length)

/-! ## White space -/

namespace Text

/-- Appends a byte to a text that is kept in reverse: before a line feed blanks and tabs go, and after
a line feed no other one follows. -/
def tidyByte (reversed : Text) (c : Byte) : Text :=
  if c == '\n' then
    let r := reversed.dropWhile isBlank
    if r.head? == some ('\n' : Byte) then r else c :: r
  else c :: reversed

/-- Removes blanks and tabs at the ends of lines, and makes one line feed of several in a row. -/
def tidy (t : Text) : Text := (t.foldl tidyByte []).reverse

/-- Indents every line but the first one. -/
def indent (columns : Nat) (t : Text) : Text :=
  t.flatMap fun (c : Byte) => if c == '\n' then c :: List.replicate columns (' ' : Byte) else [c]

end Text

end Stencil
