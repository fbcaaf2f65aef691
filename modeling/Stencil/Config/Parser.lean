import Stencil.Config.Basic
import Stencil.Config.Line
import Stencil.File.System

/-!
# Lines read into a configuration

A line is a section header, an include of another file, or an entry of the section opened last. A
value is a text in double quotes with escapes, or else taken as it is; a name without a value means
`true`.
-/

namespace Stencil

namespace Config

/-- What is wrong with an escaped text. -/
inductive EscapeError where
  | trailingBackslash
  | unknown (c : Byte)
deriving DecidableEq, Repr

/-- The message about an escape; it ends at a NUL. -/
def EscapeError.message : EscapeError → Text
  | trailingBackslash => "trailing backslash"
  | unknown c => Text.untilNul ("unknown escape \\" ++ [c])

/-- What is wrong with a line. -/
inductive LineCause where
  | garbledHeader
  | emptySection
  | duplicateSection (name : Text)
  | equalsInInclude
  | garbledInclude
  | badName (name : Text)
  | missingValue
  | badQuotes
  | badEscape (e : EscapeError)
deriving DecidableEq, Repr

/-- Why a configuration can't be read. -/
inductive ReadError where
  | cantOpen (filename : Text) (e : FileError)
  | line (cause : LineCause) (number : Nat) (filename : Text)
  | duplicate (d : DuplicateEntry)
deriving DecidableEq, Repr

namespace ReadError

/-- The wording of an error, which may quote any bytes of a line. -/
def wording : ReadError → Text
  | cantOpen filename e =>
    "in IniFile::processFile: can't open \"" ++ filename ++ "\"! (" ++ e.describe ++ ")"
  | duplicate d => d.message
  | line cause number filename =>
    let place : Text := " on line " ++ Text.ofNat number ++ " in file \"" ++ filename ++ "\"!"
    match cause with
    | .garbledHeader => "in IniFile::processSectionHeader: garbled section header" ++ place
    | .emptySection => "in IniFile::processSectionHeader: empty section name" ++ place
    | .duplicateSection name =>
      "in IniFile::processSectionHeader: duplicate section \"" ++ name ++ "\"" ++ place
    | .equalsInInclude => "in IniFile::processInclude: unexpected '='" ++ place
    | .garbledInclude => "in IniFile::processInclude: garbled include file name" ++ place
    | .badName name => "in IniFile::processSectionEntry: invalid variable name \"" ++ name ++ "\"" ++ place
    | .missingValue => "in IniFile::processSectionEntry: missing variable value" ++ place
    | .badQuotes => "in IniFile::processSectionEntry: improperly quoted value" ++ place
    | .badEscape e =>
      "in IniFile::processSectionEntry: bad escape" ++ place ++ " (" ++ e.message ++ ")"

/-- A message ends at a NUL. -/
def message (e : ReadError) : Text := Text.untilNul e.wording

end ReadError

/-! ## Pieces of lines -/

/-- A letter followed by letters, digits, hyphens, underscores and points. -/
def isValidName : Text → Bool
  | [] => false
  | c :: s => c.isLetter && s.all fun d => d.isAlphanumeric || d == '-' || d == '_' || d == '.'

/-- What a backslash and a byte stand for. -/
def unescapeByte (c : Byte) : Except EscapeError Byte :=
  if c == 'n' then .ok '\n'
  else if c == 't' then .ok '\t'
  else if c == '\\' || c == '\"' || c == '#' then .ok c
  else .error (.unknown c)

/-- Replaces escapes by what they stand for. -/
def unescape : Text → Except EscapeError Text
  | [] => .ok []
  | c :: s =>
    if c == '\\' then
      match s with
      | [] => .error .trailingBackslash
      | d :: r => do
        let b ← unescapeByte d
        let t ← unescape r
        return b :: t
    else do
      let t ← unescape s
      return c :: t

/-- The text between the first and the last byte. -/
def inner (t : Text) : Text := t.tail.dropLast

/-- Reads a value. -/
def readValue (t : Text) : Except LineCause Text :=
  match t with
  | [] => .error .missingValue
  | c :: s =>
    if c == '\"' then
      if s.getLast? == some ('\"' : Byte) then
        match unescape (inner t) with
        | .ok v => .ok v
        | .error e => .error (.badEscape e)
      else .error .badQuotes
    else .ok (Text.replaceAll "\\#" "#" t).2

/-- Reads an entry; a line without a value has no comment. -/
def readEntry (l : Line) : Except LineCause Entry :=
  match Text.indexOf? "=" l.text with
  | none =>
    let name := Text.trimWhite l.text
    if isValidName name then .ok ⟨name, "true", []⟩ else .error (.badName name)
  | some n => do
    let name := Text.trim Text.isBlank (l.text.take n)
    if isValidName name then
      let value ← readValue (Text.trim Text.isBlank (l.text.drop (n + 1)))
      return ⟨name, value, l.comment⟩
    else .error (.badName name)

/-- Reads a section header, which starts with a bracket. -/
def readHeader (t : Text) : Except LineCause Text :=
  if t.getLast? == some (']' : Byte) then
    let name := Text.trim Text.isBlank (inner t)
    if name.isEmpty then .error .emptySection else .ok name
  else .error .garbledHeader

def includeKeyword : Text := "include"

/-- The line includes a file. -/
def isInclude (t : Text) : Bool :=
  includeKeyword.isPrefixOf t && (t[includeKeyword.length]?).any Text.isBlank

/-- The file name after the include keyword, with or without quotes. -/
def readInclude (t : Text) : Except LineCause Text :=
  if t.contains ('=' : Byte) then .error .equalsInInclude
  else
    let name := Text.trim Text.isBlank (t.drop includeKeyword.length)
    if name.head? == some ('\"' : Byte) then
      if name.length < 3 || name.getLast? != some ('\"' : Byte) then .error .garbledInclude
      else .ok (inner name)
    else .ok name

/-! ## Lines -/

/-- Opens a section with a new name. -/
def addSection (c : Config) (name : Text) : Except LineCause Config :=
  if c.hasSection name then .error (.duplicateSection name)
  else .ok ⟨c.sections ++ [.empty name]⟩

/-- Adds an entry to the section opened last, or to one without a name if there is none. -/
def addEntry (c : Config) (e : Entry) : Except DuplicateEntry Config :=
  let last := c.sections.getLast?.getD (.empty [])
  match last.insert e with
  | .ok s => .ok ⟨c.sections.dropLast ++ [s]⟩
  | .error d => .error d

/-- Reads a line of a file: the configuration after it, and the name of the file that it includes, if it
does. -/
def readLine (filename : Text) (c : Config) (l : Line) : Except ReadError (Config × Option Text) :=
  let located {α : Type} (r : Except LineCause α) : Except ReadError α :=
    match r with
    | .ok a => .ok a
    | .error cause => .error (.line cause l.number filename)
  if l.text.head? == some ('[' : Byte) then do
    let name ← located (readHeader l.text)
    let c ← located (c.addSection name)
    return (c, none)
  else if isInclude l.text then do
    let name ← located (readInclude l.text)
    return (c, some (FileName.resolve filename name))
  else do
    let e ← located (readEntry l)
    match c.addEntry e with
    | .ok c => return (c, none)
    | .error d => .error (.duplicate d)

end Config

end Stencil
