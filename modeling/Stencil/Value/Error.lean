import Stencil.Value.Basic
import Stencil.Expr.Syntax
import Stencil.Path.Parser

/-!
# What can fail while an expression is evaluated

Each way to fail is a constructor; `EvalError.message` is its wording.
-/

namespace Stencil

/-- The ways to ask for a value of a certain type. -/
inductive Accessor where
  | boolean | integer | number | string | list | map | callable | stream
deriving DecidableEq, Repr

namespace Accessor

def name : Accessor → Text
  | boolean => "getBoolean"
  | integer => "getInteger"
  | number => "getNumber"
  | string => "getString"
  | list => "getList"
  | map => "getMap"
  | callable => "getCallable"
  | stream => "getStream"

/-- The type that is asked for. -/
def wanted : Accessor → ValueType
  | boolean => .bool
  | integer => .int
  | number => .float
  | string => .text
  | list => .list
  | map => .dict
  | callable => .function
  | stream => .stream

end Accessor

inductive EvalError where
  | wrongType (accessor : Accessor) (found : ValueType)
  | noMember (type : ValueType) (name : Text)
  | keyNotText (found : ValueType)
  | indexNotInt (found : ValueType)
  | indexOutOfRange (index : Int64)
  | notIndexable (type : ValueType)
  | notCallable (type : ValueType)
  | notIterable (type : ValueType)
  | notContainer (type : ValueType)
  | soughtNotText
  | incomparable (left right : ValueType)
  | notDefined (name : Text)
  | dictKeyNotText (found : ValueType)
  | negationOverflow
  | badOperand (op : UnaryOperator) (type : ValueType)
  | overflow (op : Operator) (left right : Int64)
  | divisionByZero
  | moduloByZero
  | badOperands (op : Operator) (left right : ValueType)
  | lengthArguments
  | noLength (type : ValueType)
  | textArguments
  | rangeArguments
  | zeroStep
  | definedArguments
  | selectArguments
  | badPath (e : PathError)
  /-- an item of a loop has too few parts for the loop variables -/
  | unpack (item : Value) (targets : Nat)
  | noAttributes (type : ValueType)
  | badPair (pair : Value)
  /-- a function of the host fails -/
  | host (message : Text)

/-- How messages call an arithmetic operator. -/
def Operator.word : Operator → Text
  | add => "+"
  | subtract => "-"
  | multiply => "*"
  | divide => "/"
  | modulo => "%"
  | _ => "comparison"

def UnaryOperator.word : UnaryOperator → Text
  | negate => "-"
  | _ => "+"

namespace EvalError

/-- The wording of an error, which may quote the bytes of values. -/
def wording : EvalError → Text
  | wrongType accessor found =>
    "in Markup::Value::" ++ accessor.name ++ ": expected a value of type " ++ accessor.wanted.word
      ++ " but found one of type " ++ found.word ++ "!"
  | noMember type name =>
    "in Markup::Value::getAttribute: a value of type " ++ type.word ++ " has no attribute \"" ++ name ++ "\"!"
  | keyNotText found => "in Markup::Value::getItem: map keys must be strings, found " ++ found.word ++ "!"
  | indexNotInt found => "in Markup::Value::getItem: indices must be integers, found " ++ found.word ++ "!"
  | indexOutOfRange index => "in Markup::Value::getItem: index " ++ Text.ofInt index.toInt ++ " out of range!"
  | notIndexable type => "in Markup::Value::getItem: a value of type " ++ type.word ++ " can't be indexed!"
  | notCallable type => "in Markup::Value::call: a value of type " ++ type.word ++ " is not callable!"
  | notIterable type =>
    "in Markup::Value::getIterationItems: a value of type " ++ type.word ++ " is not iterable!"
  | notContainer type => "in Markup::Value::contains: a value of type " ++ type.word ++ " is not a container!"
  | soughtNotText => "in Markup::Value::contains: the left operand of \"in\" must be a string!"
  | incomparable left right =>
    "in Markup::Value::Compare: can't compare a value of type " ++ left.word ++ " with one of type " ++ right.word
      ++ "!"
  | notDefined name => "in Markup::CallNode::evaluate: \"" ++ name ++ "\" is not defined!"
  | dictKeyNotText found =>
    "in Markup::DictNode::evaluate: dict keys must be strings, found " ++ found.word ++ "!"
  | negationOverflow => "in Markup::UnaryNode::evaluate: integer overflow in unary -!"
  | badOperand op type =>
    "in Markup::UnaryNode::evaluate: bad operand type for unary " ++ op.word ++ ": " ++ type.word ++ "!"
  | overflow op left right =>
    "in Markup::BinaryNode::evaluateIntegerArithmetic: integer overflow in " ++ Text.ofInt left.toInt ++ " "
      ++ op.word ++ " " ++ Text.ofInt right.toInt ++ "!"
  | divisionByZero => "in Markup::BinaryNode::evaluateArithmetic: division by zero!"
  | moduloByZero => "in Markup::BinaryNode::evaluateArithmetic: modulo by zero!"
  | badOperands op left right =>
    "in Markup::BinaryNode::evaluateArithmetic: unsupported operand types for " ++ op.word ++ ": " ++ left.word
      ++ " and " ++ right.word ++ "!"
  | lengthArguments => "in Markup::Len: len() takes exactly one argument!"
  | noLength type => "in Markup::Len: a value of type " ++ type.word ++ " has no length!"
  | textArguments => "in Markup::Str: str() takes at most one argument!"
  | rangeArguments => "in Markup::Range: range() takes one to three arguments!"
  | zeroStep => "in Markup::Range: the step argument of range() must not be zero!"
  | definedArguments => "in Markup::Defined: defined() takes exactly one string argument!"
  | selectArguments => "in Markup::SelectFunction::call: select() takes exactly one string argument!"
  | badPath e => e.message
  | unpack item targets =>
    "in Markup::ForStream::makeFrame: can't unpack " ++ item.represent ++ " into " ++ Text.ofNat targets
      ++ " loop variables!"
  | noAttributes type =>
    "in Markup::MergeAttributes: expected a dict or a list of pairs but found a value of type " ++ type.word ++ "!"
  | badPair pair =>
    "in Markup::MergeAttributes: expected a (name, value) pair but found " ++ pair.represent ++ "!"
  | host message => message

/-- A message ends at a NUL. -/
def message (e : EvalError) : Text := Text.untilNul e.wording

end EvalError

end Stencil
