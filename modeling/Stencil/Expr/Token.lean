import Stencil.Text.Basic

/-!
# Tokens of the expression language

`scan` cuts a source into tokens, the last of which is the end of the input. Each token knows the
span of the source it covers, so that errors and default arguments can be located. Between the spans
there is only white space.
-/

namespace Stencil

inductive Keyword where
  | and | or | not | in | is | if | else | none | true | false
deriving DecidableEq, Repr

inductive Symbol where
  | openParen | closeParen | openBracket | closeBracket | openBrace | closeBrace
  | comma | colon | dot | plus | minus | star | slash | percent
  | assign | equal | notEqual | less | lessEqual | greater | greaterEqual
deriving DecidableEq, Repr

/-- What a token is, without its place and text. -/
inductive TokenKind where
  | endOfInput
  | name
  | integer
  | decimal
  | string
  | keyword (k : Keyword)
  | symbol (s : Symbol)
deriving DecidableEq, Repr

structure Token where
  kind : TokenKind
  /-- the word, the digits, or the decoded contents of a string constant -/
  text : Text
  offset : Nat
  length : Nat
deriving DecidableEq, Repr

namespace Keyword

def spelling : Keyword → Text
  | and => "and"
  | or => "or"
  | not => "not"
  | «in» => "in"
  | is => "is"
  | «if» => "if"
  | «else» => "else"
  | none => "None"
  | true => "True"
  | false => "False"

def all : List Keyword := [and, or, not, «in», is, «if», «else», none, true, false]

def ofSpelling? (word : Text) : Option Keyword := all.find? (·.spelling == word)

end Keyword

namespace Symbol

def spelling : Symbol → Text
  | openParen => "("
  | closeParen => ")"
  | openBracket => "["
  | closeBracket => "]"
  | openBrace => "\x7b"
  | closeBrace => "\x7d"
  | comma => ","
  | colon => ":"
  | dot => "."
  | plus => "+"
  | minus => "-"
  | star => "*"
  | slash => "/"
  | percent => "%"
  | assign => "="
  | equal => "=="
  | notEqual => "!="
  | less => "<"
  | lessEqual => "<="
  | greater => ">"
  | greaterEqual => ">="

/-- Every symbol, the longer ones before those they start with. -/
def all : List Symbol :=
  [equal, notEqual, lessEqual, greaterEqual, openParen, closeParen, openBracket, closeBracket,
    openBrace, closeBrace, comma, colon, dot, plus, minus, star, slash, percent, assign, less, greater]

/-- The longest symbol at the start of a text. -/
def ofStart? (s : Text) : Option Symbol := all.find? (·.spelling.isPrefixOf s)

end Symbol

/-- How messages call a kind of token. -/
def TokenKind.describe : TokenKind → Text
  | endOfInput => "end of input"
  | name => "name"
  | integer | decimal => "number"
  | string => "string"
  | keyword k => k.spelling
  | symbol s => "'" ++ s.spelling ++ "'"

/-- What is wrong with the source of an expression or a signature. -/
inductive SyntaxCause where
  | unexpectedCharacter (c : Byte)
  | unterminatedString
  | emptyExpression
  | unexpected (found : TokenKind)
  | expected (wanted found : TokenKind)
  | positionalAfterKeyword
  | integerOutOfRange (digits : Text)
  | badDecimal (digits : Text)
  /-- a parameter without a default after one with a default -/
  | defaultBefore (parameter : Text)
  /-- the parser was not allowed enough steps; its callers always allow enough -/
  | outOfSteps
deriving DecidableEq, Repr

/-- A syntax error in `source`, `offset` bytes from its start. -/
structure SyntaxError where
  cause : SyntaxCause
  offset : Nat
  source : Text
deriving DecidableEq, Repr

namespace SyntaxError

/-- Where an error is, as the end of its message. -/
def place (e : SyntaxError) : Text :=
  " at offset " ++ Text.ofNat e.offset ++ " in \"" ++ e.source ++ "\"!"

/-- The wording of an error, which may quote any bytes of the source. -/
def wording (e : SyntaxError) : Text :=
  match e.cause with
  | .unexpectedCharacter c =>
    "in Markup::ExpressionScanner::getToken: unexpected character '" ++ [c] ++ "'" ++ e.place
  | .unterminatedString =>
    "in Markup::ExpressionScanner::extractStringConstant: unterminated string constant starting" ++ e.place
  | .emptyExpression => "in Markup::ExpressionParser::parseExpression: empty expression!"
  | .unexpected found => "in Markup::ExpressionParser: unexpected " ++ found.describe ++ e.place
  | .expected wanted found =>
    "in Markup::ExpressionParser::expect: expected " ++ wanted.describe ++ " but found " ++ found.describe
      ++ e.place
  | .positionalAfterKeyword =>
    "in Markup::ExpressionParser::parseCallArguments: positional argument follows keyword argument" ++ e.place
  | .integerOutOfRange digits =>
    "in Markup::ExpressionParser::parseAtom: integer constant \"" ++ digits ++ "\" out of range!"
  | .badDecimal digits =>
    "in Markup::ExpressionParser::parseAtom: bad float constant \"" ++ digits ++ "\"!"
  | .defaultBefore parameter =>
    "in Markup::ExpressionParser::parseSignature: non-default parameter \"" ++ parameter
      ++ "\" follows a default parameter in \"" ++ e.source ++ "\"!"
  | .outOfSteps => "out of steps"

/-- A message ends at a NUL. -/
def message (e : SyntaxError) : Text := Text.untilNul e.wording

end SyntaxError

namespace Token

def isNameStart (c : Byte) : Bool := c.isLetter || c == '_'

def isNamePart (c : Byte) : Bool := c.isAlphanumeric || c == '_'

/-- The number of bytes of the number at the start of `s`, which starts with a digit, and whether it
has a fraction or an exponent. A point counts only before a digit, an `e` only before a digit that
may have a sign. -/
def numberSpan (s : Text) : Nat × Bool :=
  let whole := (s.takeWhile Byte.isDigit).length
  let afterWhole := s.drop whole
  let fraction :=
    match afterWhole with
    | c :: d :: r => if c == '.' && d.isDigit then 2 + (r.takeWhile Byte.isDigit).length else 0
    | _ => 0
  let afterFraction := afterWhole.drop fraction
  let exponent :=
    match afterFraction with
    | c :: r =>
      if c == 'e' || c == 'E' then
        let sign := match r with
          | d :: _ => if d == '+' || d == '-' then 1 else 0
          | [] => 0
        let digits := ((r.drop sign).takeWhile Byte.isDigit).length
        if digits == 0 then 0 else 1 + sign + digits
      else 0
    | [] => 0
  (whole + fraction + exponent, fraction + exponent != 0)

/-- What a backslash and the byte after it stand for. -/
def unescape (c : Byte) : Text :=
  if c == 'n' then ['\n']
  else if c == 't' then ['\t']
  else if c == 'r' then ['\r']
  else if c == '\\' || c == '\'' || c == '\"' then [c]
  else ['\\', c]

/-- Reads a string constant after its opening quote: its decoded contents and the number of bytes up
to and including the closing quote. -/
def takeString (quote : Byte) : Text → Option (Text × Nat)
  | [] => none
  | c :: s =>
    if c == quote then some ([], 1)
    else if c == '\\' then
      match s with
      | [] => none
      | d :: r => (takeString quote r).map fun (t, n) => (unescape d ++ t, n + 2)
    else (takeString quote s).map fun (t, n) => (c :: t, n + 1)

/-- The token at the start of `s`, which is not empty and does not start with white space. -/
def first (source : Text) (offset : Nat) (s : Text) : Except SyntaxError Token :=
  match s with
  | [] => .ok ⟨.endOfInput, [], offset, 0⟩
  | c :: r =>
    if isNameStart c then
      let word := s.takeWhile isNamePart
      let kind := match Keyword.ofSpelling? word with
        | some k => .keyword k
        | none => .name
      .ok ⟨kind, word, offset, word.length⟩
    else if c.isDigit then
      let (n, isDecimal) := numberSpan s
      .ok ⟨if isDecimal then .decimal else .integer, s.take n, offset, n⟩
    else if c == '\'' || c == '\"' then
      match takeString c r with
      | some (t, n) => .ok ⟨.string, t, offset, n + 1⟩
      | none => .error ⟨.unterminatedString, offset, source⟩
    else match Symbol.ofStart? s with
      | some k => .ok ⟨.symbol k, [], offset, k.spelling.length⟩
      | none => .error ⟨.unexpectedCharacter c, offset, source⟩

/-- The tokens of `s`, which starts at `offset` in the source. Every token but the last covers at
least one byte, so `steps` beyond the length of `s` are never needed. -/
def scanFrom (source : Text) : Nat → Nat → Text → Except SyntaxError (List Token)
  | 0, offset, _ => .error ⟨.outOfSteps, offset, source⟩
  | steps + 1, offset, s =>
    let blank := (s.takeWhile Byte.isWhite).length
    let rest := s.drop blank
    match first source (offset + blank) rest with
    | .error e => .error e
    | .ok t =>
      if t.kind = .endOfInput then .ok [t]
      else match scanFrom source steps (offset + blank + t.length) (rest.drop t.length) with
        | .error e => .error e
        | .ok ts => .ok (t :: ts)

/-- The tokens of a source, ending with `endOfInput`. -/
def scan (source : Text) : Except SyntaxError (List Token) :=
  scanFrom source (source.length + 1) 0 source

end Token

end Stencil
