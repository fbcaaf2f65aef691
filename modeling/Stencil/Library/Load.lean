import Stencil.Store
import Stencil.Template.Compile

/-!
# Loading templates

A name that is not absolute is looked for next to the template that refers to it, then in the
directories of the search path. The first readable file is loaded: what the library keeps for it, or
what it is compiled to now.
-/

namespace Stencil

namespace Library

/-- Where a name may be found, in the order of trying. -/
def candidates (l : Library) (name relativeTo : Text) : List Text :=
  if FileName.isAbsolute name then [name]
  else
    let beside := if relativeTo.isEmpty then [] else [FileName.resolve relativeTo name]
    beside ++ l.searchPath.map fun directory =>
      if directory.getLast? == some ('/' : Byte) then directory ++ name else directory ++ "/" ++ name

/-- The directories that were tried for a name. -/
def tried (l : Library) (name relativeTo : Text) : List Text :=
  if relativeTo.isEmpty || FileName.isAbsolute name then l.searchPath
  else FileName.directory relativeTo :: l.searchPath

/-- The kept template can be used for a file modified at the given time. -/
def isCurrent (l : Library) (h : Holding) (modified : Timestamp) : Bool :=
  !l.autoReload || h.modified == modified

end Library

namespace Store

/-- What a template file holds as a document; a text is none. -/
def documentOf : Content → List Callback
  | .document callbacks => callbacks
  | .text _ => [.malformed]

/-- Compiles a file into a template that can include others. -/
def compileFile (s : Store) (path : Text) : Except Fault Template × Store :=
  match s.files.content path with
  | .error _ => (.error (.templateUnreadable path), s)
  | .ok content =>
    let c := Compilation.ofDocument ⟨s.nextTemplate, path, s.registry⟩ (documentOf content)
    let s := { s.reportAll c.log with nextTemplate := s.nextTemplate + 1 }
    match c.result with
    | .ok t => (.ok { t with preFilters := t.preFilters ++ [.inclusion path] }, s)
    | .error e => (.error (.source e), s)

/-- Compiles a file and keeps the template. -/
def compileAndKeep (s : Store) (l : Library) (path : Text) (modified : Timestamp) :
    Except Fault Template × Store :=
  match s.compileFile path with
  | (.ok t, s) => (.ok t, { s with library? := some (l.keep path ⟨t, modified⟩) })
  | r => r

/-- The template of a file, which was modified at the given time. -/
def loadFile (s : Store) (l : Library) (path : Text) (modified : Timestamp) : Except Fault Template × Store :=
  match l.find? path with
  | some h =>
    if l.isCurrent h modified then
      (.ok h.template, s.report .debug ("cache hit for \"" ++ path ++ "\""))
    else
      (s.report .info ("\"" ++ path ++ "\" has been modified, reloading it")).compileAndKeep l path modified
  | none => (s.report .debug ("cache miss for \"" ++ path ++ "\"")).compileAndKeep l path modified

/-- The canonical name of a candidate that is a readable file, and when it was modified. -/
def present? (s : Store) (candidate : Text) : Option (Text × Timestamp) :=
  if s.files.isReadable candidate then
    let path := s.files.fullName candidate
    (s.files.modified? path).map fun time => (path, time)
  else none

/-- Loads the template of a name that the template in the file `relativeTo` refers to, or no template
if that is empty. -/
def load (s : Store) (l : Library) (name relativeTo : Text) : Except Fault Template × Store :=
  match (l.candidates name relativeTo).findSome? s.present? with
  | some (path, modified) => s.loadFile l path modified
  | none => (.error (.templateNotFound name (l.tried name relativeTo)), s)

end Store

end Stencil
