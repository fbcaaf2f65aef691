/-!
# Text as bytes

Every text the engine reads, computes with or writes is a list of bytes: lengths, indices and
offsets count bytes, and texts are ordered by unsigned bytes. Character classes know ASCII only;
a byte above 127 is in none of them.

`Text.ascii` turns a Lean string literal into bytes, and a coercion inserts it, so messages are
written as ordinary literals.
-/

namespace Stencil

abbrev Byte := UInt8

/-- A byte string. -/
abbrev Text := List Byte

/-- An ASCII character stands for its code. -/
instance : Coe Char Byte := ⟨Char.toUInt8⟩

/-- The bytes of an ASCII literal. -/
def Text.ascii (s : String) : Text := s.toList.map Char.toUInt8

instance : Coe String Text := ⟨Text.ascii⟩

namespace Byte

/-- Blank, tab, line feed, vertical tab, form feed or carriage return. -/
def isWhite (c : Byte) : Bool := c == ' ' || (9 ≤ c && c ≤ 13)

def isLetter (c : Byte) : Bool := ('a' ≤ c && c ≤ 'z') || ('A' ≤ c && c ≤ 'Z')

def isDigit (c : Byte) : Bool := '0' ≤ c && c ≤ '9'

def isAlphanumeric (c : Byte) : Bool := isLetter c || isDigit c

/-- The value of a decimal digit. -/
def digitValue (c : Byte) : Nat := c.toNat - 48

/-- Capital letters become small ones, every other byte stays. -/
def toLower (c : Byte) : Byte := if 'A' ≤ c && c ≤ 'Z' then c + 32 else c

end Byte

namespace Text

/-! ## Trimming -/

def trimLeft (drop : Byte → Bool) (s : Text) : Text := s.dropWhile drop

def trimRight (drop : Byte → Bool) (s : Text) : Text := (s.reverse.dropWhile drop).reverse

def trim (drop : Byte → Bool) (s : Text) : Text := trimLeft drop (trimRight drop s)

/-- `s` without the white space at its ends. -/
def trimWhite (s : Text) : Text := trim Byte.isWhite s

/-- Blanks and tabs, the white space inside a line. -/
def isBlank (c : Byte) : Bool := c == ' ' || c == '\t'

/-! ## Splitting and joining -/

/-- The pieces of a text between the occurrences of `d`; there is always at least one. -/
def pieces (d : Byte) : Text → List Text
  | [] => [[]]
  | c :: s =>
    if c == d then [] :: pieces d s
    else match pieces d s with
      | [] => [[c]]
      | p :: ps => (c :: p) :: ps

/-- The pieces of `s` around `d`, without the empty ones if `suppress` is set. The empty text has
no pieces. -/
def split (d : Byte) (suppress : Bool) (s : Text) : List Text :=
  if s.isEmpty then []
  else if suppress then (pieces d s).filter (!·.isEmpty)
  else pieces d s

def join (separator : Text) (parts : List Text) : Text := separator.intercalate parts

/-! ## Searching and replacing -/

/-- The number of bytes before the first occurrence of `needle`. -/
def indexOf? (needle : Text) : Text → Option Nat
  | [] => if needle.isEmpty then some 0 else none
  | c :: s => if needle.isPrefixOf (c :: s) then some 0 else (indexOf? needle s).map (· + 1)

def hasInfix (needle s : Text) : Bool := (indexOf? needle s).isSome

/-- The text after the first occurrence of `needle`. -/
def after? (needle s : Text) : Option Text :=
  (indexOf? needle s).map fun n => s.drop (n + needle.length)

/-- Replaces the occurrences of `old` from left to right, none overlapping another, after skipping
`skip` bytes; counts them. -/
def replaceFrom (old new : Text) : Nat → Text → Nat × Text
  | _, [] => (0, [])
  | skip + 1, _ :: s => replaceFrom old new skip s
  | 0, c :: s =>
    if old.isPrefixOf (c :: s) then
      let (n, t) := replaceFrom old new (old.length - 1) s
      (n + 1, new ++ t)
    else
      let (n, t) := replaceFrom old new 0 s
      (n, c :: t)

/-- The number of replacements and the text with every `old` replaced by `new`; an empty `old`
occurs nowhere. -/
def replaceAll (old new s : Text) : Nat × Text :=
  if old.isEmpty then (0, s) else replaceFrom old new 0 s

/-! ## Texts that end at a NUL

File names, numbers in text form and switches are read up to the first NUL byte. -/

/-- The part of a text before its first NUL. -/
def untilNul (s : Text) : Text := s.takeWhile (· != 0)

def lower (s : Text) : Text := s.map Byte.toLower

/-- `s` starts with `start`; a NUL ends the comparison. -/
def startsWith (start s : Text) (ignoreCase : Bool) : Bool :=
  let fold := if ignoreCase then lower else id
  start.isEmpty ||
    (start.length ≤ s.length && fold ((untilNul s).take start.length) == fold (untilNul start))

/-- `s` ends with `tail`; a NUL ends the comparison. -/
def endsWith (tail s : Text) (ignoreCase : Bool) : Bool :=
  let fold := if ignoreCase then lower else id
  tail.isEmpty ||
    (tail.length ≤ s.length &&
      fold (untilNul (s.drop (s.length - tail.length))) == fold (untilNul tail))

/-- Reads `true`, `yes`, `on`, `false`, `no` and `off` in any mixture of cases. -/
def toBool? (s : Text) : Option Bool :=
  let word := lower (untilNul s)
  if word == "true" || word == "yes" || word == "on" then some true
  else if word == "false" || word == "off" || word == "no" then some false
  else none

/-! ## Order -/

/-- The lexicographic order by unsigned bytes. -/
def order : Text → Text → Ordering
  | [], [] => .eq
  | [], _ :: _ => .lt
  | _ :: _, [] => .gt
  | a :: s, b :: t => if a < b then .lt else if b < a then .gt else order s t

/-! ## Numbers -/

/-- The decimal digits of a natural number. -/
def ofNat (n : Nat) : Text := (Nat.toDigits 10 n).map Char.toUInt8

def ofInt : Int → Text
  | .ofNat n => ofNat n
  | .negSucc n => '-' :: ofNat (n + 1)

/-- The number a run of decimal digits denotes. -/
def digitsValue (s : Text) : Nat := s.foldl (fun n c => 10 * n + Byte.digitValue c) 0

/-- Splits off a sign; `true` stands for a minus. -/
def takeSign : Text → Bool × Text
  | [] => (false, [])
  | c :: s => if c == '-' then (true, s) else if c == '+' then (false, s) else (false, c :: s)

/-- The 64-bit integer equal to `n`, if there is one. -/
def fitInt64? (n : Int) : Option Int64 :=
  if Int64.minValue.toInt ≤ n ∧ n ≤ Int64.maxValue.toInt then some (Int64.ofInt n) else none

/-- Reads a decimal integer with leading white space and a sign, up to the end of the text or a
NUL. A text that is not empty but starts with a NUL reads as zero. -/
def toInt64? (s : Text) : Option Int64 :=
  let t := untilNul s
  if s.isEmpty then none
  else if t.isEmpty then some 0
  else
    let (negative, digits) := takeSign (trimLeft Byte.isWhite t)
    if digits.isEmpty || !digits.all Byte.isDigit then none
    else fitInt64? (if negative then -(digitsValue digits : Int) else digitsValue digits)

end Text

end Stencil
