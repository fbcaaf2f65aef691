import Stencil.Text.Basic

/-!
# Double-precision numbers

Exact conversions between double-precision numbers, rationals and text. A finite double is
`± m · 2 ^ q`; `roundRatio` is the nearest double to a quotient of natural numbers, ties to the even
mantissa, and `Decimal.round` the nearest decimal with a given number of significant digits, ties to
the even digit. Everything is computed in `Nat`.
-/

namespace Stencil

/-- The quotient `num / den` rounded to the nearest natural number, a tie going to the even one. -/
def roundQuotient (num den : Nat) : Nat :=
  let q := num / den
  let twice := 2 * (num % den)
  if twice < den then q
  else if den < twice then q + 1
  else if q % 2 == 0 then q else q + 1

namespace Binary64

/-- A finite double without its sign: `mantissa · 2 ^ exponent`. -/
structure Magnitude where
  mantissa : Nat
  exponent : Int
deriving DecidableEq, Repr

/-- What a double is: a signed magnitude, an infinity or no number. -/
inductive Decoded where
  | finite (negative : Bool) (m : Magnitude)
  | infinite (negative : Bool)
  | nan
deriving DecidableEq, Repr

def decode (x : Float) : Decoded :=
  let bits := x.toBits.toNat
  let negative := bits / Nat.pow 2 63 == 1
  let biased : Nat := bits / Nat.pow 2 52 % Nat.pow 2 11
  let fraction := bits % Nat.pow 2 52
  if biased == 2047 then
    if fraction == 0 then .infinite negative else .nan
  else if biased == 0 then .finite negative ⟨fraction, -1074⟩
  else .finite negative ⟨Nat.pow 2 52 + fraction, Int.ofNat biased - 1075⟩

/-- The unsigned bit pattern of infinity; larger ones are no numbers. -/
def infinityPattern : Nat := 2047 * Nat.pow 2 52

/-- The double with the given sign and unsigned bit pattern. -/
def ofPattern (negative : Bool) (pattern : Nat) : Float :=
  Float.ofBits (UInt64.ofNat (if negative then Nat.pow 2 63 + pattern else pattern))

/-- A power of two times a natural number, as a quotient. -/
def scaled (m : Nat) (e : Int) : Nat × Nat :=
  if 0 ≤ e then (m * Nat.pow 2 e.toNat, 1) else (m, Nat.pow 2 (-e).toNat)

/-- The exponent `k` with `2 ^ k ≤ num / den < 2 ^ (k + 1)`. -/
def binaryExponent (num den : Nat) : Int :=
  let k : Int := (num.log2 : Int) - den.log2
  let (a, b) := scaled 1 k
  if num * b < a * den then k - 1 else k

/-- `num / den` divided by `2 ^ q` and rounded. -/
def mantissaAt (num den : Nat) (q : Int) : Nat :=
  let (a, b) := scaled 1 q
  roundQuotient (num * b) (den * a)

/-- Why a quotient has no faithful double. -/
inductive RangeError where
  | overflow
  /-- The nearest double is too small to be normal and differs from the quotient. -/
  | underflow
deriving DecidableEq, Repr

/-- The bit pattern of the double nearest to `num / den`, for `den > 0`. -/
def roundRatio (num den : Nat) : Except RangeError Nat :=
  if num == 0 then .ok 0
  else
    let k := binaryExponent num den
    let q := max (k - 52) (-1074)
    let m := mantissaAt num den q
    let (a, b) := scaled 1 q
    let exact := m * a * den == num * b
    -- a number below the smallest normal one that would round up to it at full precision counts as normal
    let tiny := k < -1022 && !(k == -1023 && mantissaAt num den (k - 52) == Nat.pow 2 53)
    if m < Nat.pow 2 52 then
      if tiny && !exact then .error .underflow else .ok m
    else
      let pattern := (q + 1075).toNat * Nat.pow 2 52 + (m - Nat.pow 2 52)
      if infinityPattern ≤ pattern then .error .overflow
      else if tiny && !exact then .error .underflow
      else .ok pattern

/-- The double nearest to an integer. -/
def ofInt (n : Int) : Float :=
  match roundRatio n.natAbs 1 with
  | .ok pattern => ofPattern (n < 0) pattern
  | .error _ => ofPattern (n < 0) infinityPattern

/-- The remainder of `x` by `y` that has the sign of `x` and is smaller than `y` in magnitude; it is
always representable. -/
def remainder (x y : Float) : Float :=
  match decode x, decode y with
  | .finite negative a, .finite _ b =>
    if b.mantissa == 0 then 0.0 / 0.0
    else
      let e := min a.exponent b.exponent
      let r := a.mantissa * Nat.pow 2 (a.exponent - e).toNat % (b.mantissa * Nat.pow 2 (b.exponent - e).toNat)
      let (num, den) := scaled r e
      match roundRatio num den with
      | .ok pattern => ofPattern negative pattern
      | .error _ => 0.0 / 0.0
  | .finite .., .infinite _ => x
  | _, _ => 0.0 / 0.0

/-! ## Writing -/

/-- A positive decimal `digits · 10 ^ (exponent - places)`, where `digits` has `places + 1` digits. -/
structure Decimal where
  digits : Nat
  exponent : Int
deriving DecidableEq, Repr

/-- A power of ten times a natural number, as a quotient. -/
def scaledTen (m : Nat) (e : Int) : Nat × Nat :=
  if 0 ≤ e then (m * Nat.pow 10 e.toNat, 1) else (m, Nat.pow 10 (-e).toNat)

/-- The exponent `x` with `10 ^ x ≤ num / den < 10 ^ (x + 1)`, for a positive quotient. -/
def decimalExponent (num den : Nat) : Int :=
  if den ≤ num then ((Nat.toDigits 10 (num / den)).length : Int) - 1
  else -((Nat.toDigits 10 ((den + num - 1) / num - 1)).length : Int)

/-- The decimal with `places + 1` significant digits nearest to `num / den`, a tie going to the even
last digit. -/
def Decimal.round (places num den : Nat) : Decimal :=
  let x := decimalExponent num den
  let (a, b) := scaledTen 1 (places - x)
  let n := roundQuotient (num * a) (den * b)
  if n == Nat.pow 10 (places + 1) then ⟨Nat.pow 10 places, x + 1⟩ else ⟨n, x⟩

/-- How doubles are written: significant digits, and the decimal exponents from which on positional
notation is used and where it ends. -/
structure Format where
  places : Nat
  least : Int
  past : Int

/-- Twelve significant digits; positional notation from `1e-4` up to below `1e12`. -/
def format : Format := ⟨11, -4, 12⟩

/-- A text without its trailing zeros. -/
def dropZeros (s : Text) : Text := Text.trimRight (· == '0') s

/-- A decimal fraction after its point, with the point unless nothing follows it. -/
def withPoint (fraction : Text) : Text :=
  if fraction.isEmpty then [] else '.' :: fraction

def Decimal.toText (f : Format) (d : Decimal) : Text :=
  let digits := Text.ofNat d.digits
  if f.least ≤ d.exponent ∧ d.exponent < f.past then
    if 0 ≤ d.exponent then
      let whole := d.exponent.toNat + 1
      digits.take whole ++ withPoint (dropZeros (digits.drop whole))
    else
      "0" ++ withPoint (List.replicate ((-d.exponent).toNat - 1) ('0' : Byte) ++ dropZeros digits)
  else
    let e := Text.ofNat d.exponent.natAbs
    let mark : Text := if d.exponent < 0 then "e-" else "e+"
    let padded : Text := if e.length < 2 then ('0' : Byte) :: e else e
    digits.take 1 ++ withPoint (dropZeros (digits.drop 1)) ++ mark ++ padded

/-- The text of a double: its rounded decimal, with `.0` appended where neither a point nor an
exponent shows that it is not an integer. -/
def toText (x : Float) : Text :=
  match decode x with
  | .nan => "nan"
  | .infinite negative => if negative then "-inf" else "inf"
  | .finite negative m =>
    let body : Text :=
      if m.mantissa == 0 then "0"
      else
        let (num, den) := scaled m.mantissa m.exponent
        (Decimal.round format.places num den).toText format
    let sign : Text := if negative then "-" else []
    let pointed := body.any fun c => c == '.' || c == 'e'
    sign ++ body ++ (if pointed then [] else ".0")

/-! ## Reading -/

/-- The digits of a number in text form, scaled by a power of its radix. -/
structure Digits where
  value : Nat
  /-- digits after the point -/
  places : Nat
  /-- digits altogether -/
  count : Nat
  rest : Text

def hexDigitValue (c : Byte) : Nat :=
  if Byte.isDigit c then Byte.digitValue c else (Byte.toLower c).toNat - 87

def isHexDigit (c : Byte) : Bool :=
  let l := Byte.toLower c
  Byte.isDigit c || ('a' ≤ l && l ≤ 'f')

/-- Reads digits, optionally with one point among them. -/
def takeDigits (radix : Nat) (isDigit : Byte → Bool) (valueOf : Byte → Nat) (s : Text) : Digits :=
  let whole := s.takeWhile isDigit
  let rest := s.dropWhile isDigit
  let (fraction, rest) := match rest with
    | c :: r => if c == '.' then (r.takeWhile isDigit, r.dropWhile isDigit) else ([], rest)
    | [] => ([], rest)
  ⟨(whole ++ fraction).foldl (fun n c => radix * n + valueOf c) 0, fraction.length,
    whole.length + fraction.length, rest⟩

/-- Reads the exponent part introduced by the letter `e`; a letter without digits after it is no
exponent part. -/
def takeExponent (e : Byte) (s : Text) : Int × Text :=
  match s with
  | c :: r =>
    if Byte.toLower c == e then
      let (negative, t) := Text.takeSign r
      let digits := t.takeWhile Byte.isDigit
      if digits.isEmpty then (0, s)
      else
        let n : Int := Text.digitsValue digits
        (if negative then -n else n, t.dropWhile Byte.isDigit)
    else (0, s)
  | [] => (0, s)

/-- The double nearest to `value · 10 ^ exponent`. Exponents far outside the range of doubles are
decided without computing the power. -/
def ofDecimal (value : Nat) (exponent : Int) : Except RangeError Nat :=
  let magnitude : Int := exponent + (Nat.toDigits 10 value).length
  if value == 0 then .ok 0
  else if 400 < magnitude then .error .overflow
  else if magnitude < -400 then .error .underflow
  else
    let (a, b) := scaledTen value exponent
    roundRatio a b

/-- The double nearest to `value · 2 ^ exponent`. -/
def ofBinary (value : Nat) (exponent : Int) : Except RangeError Nat :=
  let magnitude : Int := exponent + value.log2
  if value == 0 then .ok 0
  else if 1100 < magnitude then .error .overflow
  else if magnitude < -1200 then .error .underflow
  else
    let (a, b) := scaled value exponent
    roundRatio a b

/-- The part in parentheses that may follow `nan`. -/
def skipNanPayload (s : Text) : Text :=
  match s with
  | c :: r =>
    let t := r.dropWhile fun c => Byte.isAlphanumeric c || c == '_'
    if c == '(' && t.head? == some (')' : Byte) then t.drop 1 else s
  | [] => s

/-- Reads an unsigned number: `inf`, `infinity`, `nan`, a hexadecimal or a decimal number. The
answer is the bit pattern and the rest of the text, or `none` if no number is there or it is out of
range. -/
def takeUnsigned (s : Text) : Option (Nat × Text) :=
  let low := Text.lower s
  let hex := takeDigits 16 isHexDigit hexDigitValue (s.drop 2)
  let dec := takeDigits 10 Byte.isDigit Byte.digitValue s
  if ("infinity" : Text).isPrefixOf low then some (infinityPattern, s.drop 8)
  else if ("inf" : Text).isPrefixOf low then some (infinityPattern, s.drop 3)
  else if ("nan" : Text).isPrefixOf low then some (infinityPattern + Nat.pow 2 51, skipNanPayload (s.drop 3))
  else if ("0x" : Text).isPrefixOf low && hex.count != 0 then
    let (e, rest) := takeExponent 'p' hex.rest
    (ofBinary hex.value (e - 4 * hex.places)).toOption.map (·, rest)
  else if dec.count == 0 then none
  else
    let (e, rest) := takeExponent 'e' dec.rest
    (ofDecimal dec.value (e - dec.places)).toOption.map (·, rest)

/-- Reads a number with leading white space and a sign, up to the end of the text or a NUL. A text
that is not empty but starts with a NUL reads as zero; a number that overflows, or is too small to
be normal and not exact, is refused. -/
def ofText? (s : Text) : Option Float :=
  let t := Text.untilNul s
  if s.isEmpty then none
  else if t.isEmpty then some 0.0
  else
    let (negative, u) := Text.takeSign (Text.trimLeft Byte.isWhite t)
    match takeUnsigned u with
    | some (pattern, []) => some (ofPattern negative pattern)
    | _ => none

end Binary64

end Stencil
