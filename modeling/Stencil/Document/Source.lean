import Stencil.Xml.Token

/-!
# From a source to callbacks

The tokens of a source become callbacks. Tags have to be nested around one root element; the
namespaces that an element declares hold for its own name, its attributes and its content. White
space outside the root element is no part of the document.

The callback of a start tag is made at the place of the mark that closes the tag, every other one at
the place after the token. Nothing is read after a fatal error.
-/

namespace Stencil

namespace Document

/-- Why a source is no document. -/
inductive Flaw where
  | markup (e : Xml.MarkupError)
  | noStart
  /-- more than one root element, or text after it -/
  | extraContent
  | mismatch (opened closed : Text)
  | unclosed (name : Text)
  | noContent
deriving DecidableEq, Repr

def Flaw.message : Flaw → Text
  | markup e => e.message
  | noStart => "Start tag expected"
  | extraContent => "Extra content at the end of the document"
  | mismatch opened closed => "Opening and ending tag mismatch: " ++ opened ++ " and " ++ closed
  | unclosed name => "Premature end of data in tag " ++ name
  | noContent => "Document is empty"

/-- An element that is open: its name as written and the namespaces in force in it. -/
structure OpenElement where
  name : Text
  namespaces : List RawNamespace

/-- The elements that are open, the innermost one first, and whether the root was seen. -/
structure Nesting where
  elements : List OpenElement
  hadRoot : Bool

namespace Nesting

def outside : Nesting := ⟨[], false⟩

/-- The prefix that needs no declaration. -/
def reservedNamespace : RawNamespace := ⟨some "xml", some "http://www.w3.org/XML/1998/namespace"⟩

/-- The namespaces in force, the innermost declaration first. -/
def namespaces (n : Nesting) : List RawNamespace :=
  match n.elements with
  | e :: _ => e.namespaces
  | [] => [reservedNamespace]

end Nesting

/-- What a name as written is made of: its prefix, if it has one, and the rest. -/
def splitName (name : Text) : Option Text × Text :=
  let pre := name.takeWhile (· != (':' : Byte))
  if pre.isEmpty || pre.length == name.length then (none, name)
  else (some pre, name.drop (pre.length + 1))

/-- The namespace an attribute declares, if it is a declaration. -/
def declaration? : Text × Text → Option RawNamespace
  | (name, value) =>
    if name == "xmlns" then some ⟨none, some value⟩
    else if ("xmlns:" : Text).isPrefixOf name then some ⟨some (name.drop 6), some value⟩
    else none

/-- The URI a prefix stands for; an empty one is none. -/
def uriOf? (inForce : List RawNamespace) (pre? : Option Text) : Option Text :=
  match inForce.find? (·.pre? == pre?) with
  | some n => n.uri?.bind fun uri => if uri.isEmpty then none else some uri
  | none => none

/-- The name of an element. -/
def elementName (inForce : List RawNamespace) (name : Text) : RawName :=
  let (pre?, base) := splitName name
  ⟨base, pre?, uriOf? inForce pre?⟩

/-- The name of an attribute; without a prefix it is in no namespace. -/
def attributeName (inForce : List RawNamespace) (name : Text) : RawName :=
  let (pre?, base) := splitName name
  ⟨base, pre?, if pre?.isSome then uriOf? inForce pre? else none⟩

/-- The name has a prefix that was not declared. -/
def isUndeclared (n : RawName) : Bool := n.pre?.isSome && n.uri?.isNone

/-- The callbacks of a start tag whose closing mark is at `place`, and the element it opens. -/
def openTag (n : Nesting) (place : Place) (tag : Xml.Tag) : List Callback × OpenElement :=
  let declared := tag.attributes.filterMap declaration?
  let inForce := declared.reverse ++ n.namespaces
  let name := elementName inForce tag.name
  let attributes := (tag.attributes.filter (declaration? · |>.isNone)).map fun (a, value) =>
    (⟨attributeName inForce a, value⟩ : RawAttribute)
  let undeclared := (name :: attributes.map (·.name)).filter isUndeclared
  let errors := undeclared.map fun u =>
    Callback.error place ("Namespace prefix " ++ Text.ofRaw u.pre? ++ " of " ++ u.base ++ " is not defined")
  (errors ++ [.startElement place name declared attributes], ⟨tag.name, inForce⟩)

/-- The callback of an end tag. -/
def closeElement (place : Place) (e : OpenElement) : Callback :=
  .endElement place (elementName e.namespaces e.name)

/-- An element may not start after the root element has ended. -/
def mayOpen (n : Nesting) : Bool := !n.elements.isEmpty || !n.hadRoot

/-- Character data; outside the root element there may be white space only. -/
def characters (n : Nesting) (place : Place) (t : Text) : Except Flaw (List Callback) :=
  if !n.elements.isEmpty then .ok (if t.isEmpty then [] else [.characters place t])
  else if t.all Byte.isWhite then .ok []
  else if n.hadRoot then .error .extraContent
  else .error .noStart

/-- The place next to a place. -/
def after (p : Place) : Place := ⟨p.line, p.column + 1⟩

/-- The callbacks of a token that ends with the byte at `place`. -/
def stepToken (n : Nesting) (place : Place) : Xml.Token → Except Flaw (List Callback × Nesting)
  | .characters t => (characters n place t).map (·, n)
  | .verbatim t => (characters n (after place) t).map (·, n)
  | .startTag tag =>
    if mayOpen n then
      let (callbacks, e) := openTag n place tag
      .ok (callbacks, ⟨e :: n.elements, true⟩)
    else .error .extraContent
  | .emptyTag tag =>
    if mayOpen n then
      let (callbacks, e) := openTag n ⟨place.line, place.column - 1⟩ tag
      .ok (callbacks ++ [closeElement (after place) e], { n with hadRoot := true })
    else .error .extraContent
  | .endTag name =>
    match n.elements with
    | [] => .error .extraContent
    | e :: outer =>
      if e.name == name then
        .ok ([closeElement (after place) e], { n with elements := outer })
      else .error (.mismatch e.name name)
  | .comment t => .ok ([.comment (after place) (some t)], n)
  | .instruction target data =>
    if target == "xml" then .ok ([], n)
    else .ok ([.instruction (after place) (some target) (some data)], n)
  | .doctype name publicId systemId =>
    .ok ([.doctype (after place) (some name) (some publicId) (some systemId)], n)

/-- What is wrong at the end of a source. -/
def endFlaw? (n : Nesting) : Option Flaw :=
  match n.elements with
  | e :: _ => some (.unclosed e.name)
  | [] => if n.hadRoot then none else some .noContent

/-- The callbacks of the pieces of a source, of which the last was read up to `place`. -/
def ofPieces (n : Nesting) (place : Place) : List (Xml.Piece × Place) → List Callback
  | [] => match endFlaw? n with
    | some f => [.fatal place f.message]
    | none => []
  | (piece, place) :: rest =>
    match Xml.readPiece piece with
    | .error e => [.fatal place (Flaw.markup e).message]
    | .ok token =>
      match stepToken n place token with
      | .error f => [.fatal place f.message]
      | .ok (callbacks, n) => callbacks ++ ofPieces n place rest

/-- The callbacks of a source. -/
def ofSource (source : Text) : List Callback := ofPieces .outside ⟨1, 1⟩ (Xml.pieces source)

end Document

end Stencil
