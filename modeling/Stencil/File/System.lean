import Stencil.File.Path
import Stencil.Document.Callback

/-!
# Systems of files

The engine asks the system it runs on about files, by their names. It knows the system only by the
answers: which names are those of files that can be read, when a file was modified, what it holds.
Names that are not absolute start at the working directory.
-/

namespace Stencil

structure Timestamp where
  seconds : Int
  nanoseconds : Int
deriving DecidableEq, Repr

/-- What a file holds. -/
inductive Content where
  | text (t : Text)
  | document (callbacks : List Callback)
deriving DecidableEq, Repr

/-- Why a file can't be opened. -/
inductive FileError where
  | missing
  | notDirectory
  | isDirectory
  | tooManyOpen
  /-- another reason, in the words of the system -/
  | other (description : Text)
deriving DecidableEq, Repr

def FileError.describe : FileError → Text
  | missing => "No such file or directory"
  | notDirectory => "Not a directory"
  | isDirectory => "Is a directory"
  | tooManyOpen => "Too many open files"
  | other description => description

/-- The answers of a system. -/
structure FileSystem where
  /-- the name of the working directory -/
  workingName : Text
  /-- there is a regular file of that name, and it can be read -/
  isReadable : Text → Bool
  /-- when a file or directory was modified, if there is one -/
  modified? : Text → Option Timestamp
  /-- what the file of a template holds -/
  content : Text → Except FileError Content
  /-- the text of a file that is opened while so many others are open -/
  openText : Nat → Text → Except FileError Text

namespace FileSystem

/-- A system without files. -/
def empty (workingDirectory : List Text) : FileSystem where
  workingName := "/" ++ Text.join "/" workingDirectory
  isReadable _ := false
  modified? _ := none
  content _ := .error .missing
  openText _ _ := .error .missing

/-- The canonical form of a name, from the root on. -/
def fullName (fs : FileSystem) (name : Text) : Text := FileName.resolve (fs.workingName ++ "/") name

end FileSystem

end Stencil
