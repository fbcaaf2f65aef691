import Stencil.Document.Callback
import Stencil.Xml.Tag

/-!
# Tokens of a source

A source is first cut into character data and markup: a `<` starts markup, and a `>` ends it where
the markup is complete, so that one in a quoted value, a comment or an instruction does not. Each
piece is then one token.

Nothing is said here about which tags belong together, and what the names mean.
-/

namespace Stencil

namespace Xml

inductive Token where
  | characters (t : Text)
  /-- character data that was marked so as to need no references -/
  | verbatim (t : Text)
  | startTag (tag : Tag)
  | emptyTag (tag : Tag)
  | endTag (name : Text)
  | comment (t : Text)
  | instruction (target data : Text)
  | doctype (name publicId systemId : Text)
deriving DecidableEq, Repr

/-- Why a piece is no token. -/
inductive MarkupError where
  | unclosed
  | reference
  | tag
deriving DecidableEq, Repr

def MarkupError.message : MarkupError → Text
  | unclosed => "markup is not closed"
  | reference => "malformed reference"
  | tag => "malformed tag"

/-! ## Cutting -/

/-- A piece of a source: character data, what stands between a `<` and its `>`, or a `<` without
one. -/
inductive Piece where
  | characters (t : Text)
  | markup (t : Text)
  | unclosed
deriving DecidableEq, Repr

def commentOpening : Text := "!--"

def verbatimOpening : Text := "![CDATA["

def doctypeOpening : Text := "!DOCTYPE"

/-- The quote that is open after a text. -/
def openQuote? (t : Text) : Option Byte :=
  t.foldl (fun quote? c => match quote? with
    | some q => if c == q then none else some q
    | none => if TagReading.isQuote c then some c else none) none

/-- Whether a `>` ends the markup `t`. -/
def isComplete (t : Text) : Bool :=
  if commentOpening.isPrefixOf t then ("--" : Text).isSuffixOf (t.drop commentOpening.length)
  else if verbatimOpening.isPrefixOf t then ("]]" : Text).isSuffixOf (t.drop verbatimOpening.length)
  else if ("?" : Text).isPrefixOf t then ("?" : Text).isSuffixOf (t.drop 1)
  else if doctypeOpening.isPrefixOf t then
    (openQuote? t).isNone && t.count ('[' : Byte) ≤ t.count (']' : Byte)
  else (openQuote? t).isNone

/-- The place after a byte. The second and later bytes of a character take no column. -/
def placeAfter (p : Place) (c : Byte) : Place :=
  if c == '\n' then ⟨p.line + 1, 1⟩
  else if 128 ≤ c && c < 192 then p
  else ⟨p.line, p.column + 1⟩

/-- Cuts a source into pieces, each with the place of the byte that ends it; the last piece ends with
the source. `held` is what was read of the current piece, the last byte first. -/
def cut (place : Place) (inMarkup : Bool) (held : Text) : Text → List (Piece × Place)
  | [] => [(if inMarkup then .unclosed else .characters held.reverse, place)]
  | c :: s =>
    let next := placeAfter place c
    if inMarkup then
      if c == '>' && isComplete held.reverse then (.markup held.reverse, place) :: cut next false [] s
      else cut next true (c :: held) s
    else if c == '<' then (.characters held.reverse, place) :: cut next true [] s
    else cut next false (c :: held) s

/-! ## Reading the pieces -/

/-- The texts in quotes. -/
def quotedTexts (t : Text) : List Text :=
  let step : List Text × Option (Byte × Text) → Byte → List Text × Option (Byte × Text)
    | (done, some (q, held)), c =>
      if c == q then (held.reverse :: done, none) else (done, some (q, c :: held))
    | (done, none), c => (done, if TagReading.isQuote c then some (c, []) else none)
  (t.foldl step ([], none)).1.reverse

/-- Reads what follows the opening of a document type declaration. -/
def readDoctype (t : Text) : Token :=
  let outside := t.takeWhile (· != ('[' : Byte))
  let words := Text.trimWhite outside
  let name := words.takeWhile (!Byte.isWhite ·)
  let ids := Text.trimWhite (words.drop name.length)
  let quoted := quotedTexts ids
  if ("PUBLIC" : Text).isPrefixOf ids then .doctype name (quoted.headD []) (quoted.tail.headD [])
  else if ("SYSTEM" : Text).isPrefixOf ids then .doctype name [] (quoted.headD [])
  else .doctype name [] []

def readInstruction (t : Text) : Token :=
  let target := t.takeWhile (!Byte.isWhite ·)
  .instruction target (Text.trimLeft Byte.isWhite (t.drop target.length))

/-- Reads complete markup. -/
def readMarkup (t : Text) : Except MarkupError Token :=
  if commentOpening.isPrefixOf t then .ok (.comment ((t.drop commentOpening.length).dropLast.dropLast))
  else if verbatimOpening.isPrefixOf t then
    .ok (.verbatim ((t.drop verbatimOpening.length).dropLast.dropLast))
  else if doctypeOpening.isPrefixOf t then .ok (readDoctype (t.drop doctypeOpening.length))
  else if ("?" : Text).isPrefixOf t then .ok (readInstruction (t.drop 1).dropLast)
  else if ("/" : Text).isPrefixOf t then .ok (.endTag (Text.trimRight Byte.isWhite (t.drop 1)))
  else
    let isEmpty := t.getLast? == some ('/' : Byte)
    match Tag.ofText? (if isEmpty then t.dropLast else t) with
    | some tag => .ok (if isEmpty then .emptyTag tag else .startTag tag)
    | none => .error .tag

def readPiece : Piece → Except MarkupError Token
  | .characters t =>
    match unescape? t with
    | some u => .ok (.characters u)
    | none => .error .reference
  | .markup t => readMarkup t
  | .unclosed => .error .unclosed

/-- The pieces of a whole source. -/
def pieces (source : Text) : List (Piece × Place) := cut ⟨1, 1⟩ false [] source

/-- The tokens of a source. -/
def tokens (source : Text) : Except MarkupError (List Token) := (pieces source).mapM (readPiece ·.1)

end Xml

end Stencil
