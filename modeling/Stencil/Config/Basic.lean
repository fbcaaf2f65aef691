import Stencil.Text.Basic

/-!
# Configurations

A configuration is a list of sections, each a list of named values with comments. Values are looked up
as texts or as truth values, with or without a default.
-/

namespace Stencil

namespace Config

structure Entry where
  name : Text
  value : Text
  comment : Text
deriving DecidableEq, Repr

structure Section where
  name : Text
  entries : List Entry
deriving DecidableEq, Repr

/-- Why a value can't be given. -/
inductive LookupError where
  | noEntry (sectionName name : Text)
  | noSection (sectionName name : Text)
  | badBool (sectionName name value : Text)
deriving DecidableEq, Repr

def LookupError.message : LookupError → Text
  | noEntry sectionName name => "can't find \"" ++ name ++ "\" in section \"" ++ sectionName ++ "\"!"
  | noSection sectionName name => "no such section: \"" ++ sectionName ++ "\"! (variable: \"" ++ name ++ "\")"
  | badBool sectionName name value =>
    "invalid boolean value in section \"" ++ sectionName ++ "\", entry \"" ++ name ++ "\" (bad value is \"" ++ value
      ++ "\")!"

/-- A name that a section has already. -/
structure DuplicateEntry where
  sectionName : Text
  name : Text
deriving DecidableEq, Repr

/-- The message about a name; it ends at a NUL. -/
def DuplicateEntry.message (d : DuplicateEntry) : Text :=
  Text.untilNul ("in IniFile::Section::insert: attempting to insert a duplicate variable name: \"" ++ d.name
    ++ "\" in section \"" ++ d.sectionName ++ "\"!")

namespace Section

def empty (name : Text) : Section := ⟨name, []⟩

def find? (s : Section) (name : Text) : Option Entry := s.entries.find? (·.name == name)

/-- Appends an entry with a new name. -/
def insert (s : Section) (e : Entry) : Except DuplicateEntry Section :=
  match s.find? e.name with
  | some _ => .error ⟨s.name, e.name⟩
  | none => .ok { s with entries := s.entries ++ [e] }

/-- Gives the entry of a name another value and comment, or appends it. -/
def put (s : Section) (e : Entry) : Section :=
  match s.find? e.name with
  | some _ => { s with entries := s.entries.map fun d => if d.name == e.name then e else d }
  | none => { s with entries := s.entries ++ [e] }

def text (s : Section) (name : Text) : Except LookupError Text :=
  match s.find? name with
  | some e => .ok e.value
  | none => .error (.noEntry s.name name)

def textD (s : Section) (name default : Text) : Text :=
  match s.find? name with
  | some e => e.value
  | none => default

def boolD (s : Section) (name : Text) (default : Bool) : Except LookupError Bool :=
  match s.find? name with
  | none => .ok default
  | some e =>
    match Text.toBool? e.value with
    | some b => .ok b
    | none => .error (.badBool s.name name e.value)

/-- The names of the entries that have one. -/
def names (s : Section) : List Text := (s.entries.map (·.name)).filter (!·.isEmpty)

end Section

end Config

structure Config where
  sections : List Config.Section
deriving DecidableEq, Repr

namespace Config

def section? (c : Config) (name : Text) : Option Section := c.sections.find? (·.name == name)

def hasSection (c : Config) (name : Text) : Bool := (c.section? name).isSome

def text (c : Config) (sectionName name : Text) : Except LookupError Text :=
  match c.section? sectionName with
  | some s => s.text name
  | none => .error (.noSection sectionName name)

def textD (c : Config) (sectionName name default : Text) : Text :=
  match c.section? sectionName with
  | some s => s.textD name default
  | none => default

def boolD (c : Config) (sectionName name : Text) (default : Bool) : Except LookupError Bool :=
  match c.section? sectionName with
  | some s => s.boolD name default
  | none => .ok default

def names (c : Config) (sectionName : Text) : List Text :=
  match c.section? sectionName with
  | some s => s.names
  | none => []

end Config

end Stencil
