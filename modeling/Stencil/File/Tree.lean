import Stencil.File.System

/-!
# A tree of files

A system of files that is kept in memory: directories, and files that hold a text or a document, all
of which can be read. There are no links. On the way to a file every component but the last has to be
a directory.
-/

namespace Stencil

inductive Node where
  | directory (modified : Timestamp)
  | file (content : Content) (modified : Timestamp)
deriving DecidableEq, Repr

namespace Node

/-- A directory that was never touched. -/
def plainDirectory : Node := .directory ⟨0, 0⟩

def modified : Node → Timestamp
  | directory time => time
  | file _ time => time

/-- The node with another modification time. -/
def touch (time : Timestamp) : Node → Node
  | directory _ => directory time
  | file content _ => file content time

end Node

/-- Nodes by their components from the root on. The root is always there. -/
structure FileTree where
  nodes : List (List Text × Node)
  workingDirectory : List Text

namespace FileTree

/-- A tree that has only its working directory. -/
def empty (workingDirectory : List Text) : FileTree :=
  ⟨(List.range workingDirectory.length).map fun k => (workingDirectory.take (k + 1), .plainDirectory),
    workingDirectory⟩

/-- The name of the working directory. -/
def workingName (t : FileTree) : Text := "/" ++ Text.join "/" t.workingDirectory

def at? (t : FileTree) (place : List Text) : Option Node :=
  if place.isEmpty then some .plainDirectory else (t.nodes.find? (·.1 == place)).map (·.2)

/-- Follows components from a place. -/
def walk (t : FileTree) (place : List Text) : List Text → Except FileError (List Text)
  | [] => .ok place
  | part :: parts =>
    match t.at? place with
    | none => .error .missing
    | some (.file ..) => .error .notDirectory
    | some (.directory _) =>
      if part.isEmpty || part == "." then walk t place parts
      else if part == ".." then walk t place.dropLast parts
      else walk t (place ++ [part]) parts

/-- The place a name stands for, whether or not there is something. -/
def locate (t : FileTree) (name : Text) : Except FileError (List Text) :=
  let name := Text.untilNul name
  if name.isEmpty then .error .missing
  else if FileName.isAbsolute name then walk t [] (Text.pieces '/' name)
  else walk t t.workingDirectory (Text.pieces '/' name)

/-- The place and the node of a name. -/
def find (t : FileTree) (name : Text) : Except FileError (List Text × Node) :=
  match t.locate name with
  | .error e => .error e
  | .ok place => match t.at? place with
    | some node => .ok (place, node)
    | none => .error .missing

def isReadable (t : FileTree) (name : Text) : Bool :=
  match t.find name with
  | .ok (_, .file ..) => true
  | _ => false

def isDirectory (t : FileTree) (name : Text) : Bool :=
  match t.find name with
  | .ok (_, .directory _) => true
  | _ => false

/-- The content of a file. -/
def content (t : FileTree) (name : Text) : Except FileError Content :=
  match t.find name with
  | .ok (_, .file content _) => .ok content
  | .ok (_, .directory _) => .error .isDirectory
  | .error e => .error e

/-- The text of a file. A document is no text and reads as the empty one. -/
def text (t : FileTree) (name : Text) : Except FileError Text :=
  match t.content name with
  | .ok (.text s) => .ok s
  | .ok (.document _) => .ok []
  | .error e => .error e

/-- When a file or directory was modified. -/
def modified? (t : FileTree) (name : Text) : Option Timestamp :=
  match t.find name with
  | .ok (_, node) => some node.modified
  | .error _ => none

/-- Puts a node at a place. -/
def put (t : FileTree) (place : List Text) (node : Node) : FileTree :=
  { t with nodes := t.nodes.filter (·.1 != place) ++ [(place, node)] }

/-- Writes a file into an existing directory, if there is no directory of that name. -/
def write? (t : FileTree) (name : Text) (content : Content) (time : Timestamp) : Option FileTree :=
  match t.locate name with
  | .error _ => none
  | .ok place =>
    match t.at? place.dropLast, t.at? place with
    | some (.directory _), some (.directory _) => none
    | some (.directory _), _ => some (t.put place (.file content time))
    | _, _ => none

/-- Gives a file or directory another modification time. -/
def touch? (t : FileTree) (name : Text) (time : Timestamp) : Option FileTree :=
  match t.find name with
  | .ok (place, node) => some (t.put place (node.touch time))
  | .error _ => none

/-- Makes a directory in an existing one. Its name may end in a slash. -/
def makeDirectory? (t : FileTree) (name : Text) : Option FileTree :=
  match t.locate (Text.trimRight (· == ('/' : Byte)) (Text.untilNul name)) with
  | .error _ => none
  | .ok place =>
    match t.at? place.dropLast, t.at? place with
    | some (.directory _), none => some (t.put place .plainDirectory)
    | _, _ => none

/-- Removes a directory with everything in it. -/
def removeDirectory? (t : FileTree) (name : Text) : Option FileTree :=
  match t.find name with
  | .ok (place, .directory _) => some { t with nodes := t.nodes.filter fun n => !place.isPrefixOf n.1 }
  | _ => none

/-- Removes a file. -/
def remove? (t : FileTree) (name : Text) : Option FileTree :=
  match t.find name with
  | .ok (place, .file ..) => some { t with nodes := t.nodes.filter (·.1 != place) }
  | _ => none

/-- Writes a file, making the directories it needs. -/
def add (t : FileTree) (name : Text) (content : Content) (time : Timestamp) : FileTree :=
  let canonical := FileName.Canonical.ofText name
  let place := if canonical.absolute then canonical.parts else t.workingDirectory ++ canonical.parts
  let parents := (List.range (place.length - 1)).map fun k => place.take (k + 1)
  let t := parents.foldl (fun t p => if (t.at? p).isSome then t else t.put p .plainDirectory) t
  t.put place (.file content time)

/-- The tree as a system that lets at most so many files be open. A directory can be opened and holds no
text. -/
def system (t : FileTree) (openLimit : Nat) : FileSystem where
  workingName := t.workingName
  isReadable := t.isReadable
  modified? := t.modified?
  content := t.content
  openText opened name :=
    if openLimit ≤ opened then .error .tooManyOpen
    else match t.text name with
      | .error .isDirectory => .ok []
      | r => r

end FileTree

end Stencil
