import Stencil.CommandLine
import Stencil.Document.Source
import Stencil.File.Tree

/-!
# The program

Reads the files below the working directory, expands the template that the command line names and
writes the result. A file whose first byte that is not white space is a `<` is a document, any other
one a text. Links to directories are not followed.
-/

namespace Stencil

namespace Program

/-- The name of the program in its messages. -/
def name : Text := "stencil"

def textOf (s : String) : Text := s.toUTF8.toList

/-- What a file with these bytes holds. -/
def contentOf (bytes : Text) : Content :=
  if (Text.trimLeft Byte.isWhite bytes).head? == some ('<' : Byte) then .document (Document.ofSource bytes)
  else .text bytes

def timestampOf (t : IO.FS.SystemTime) : Timestamp := ⟨t.sec, t.nsec.toNat⟩

/-- The number of directories below the working directory that are read. -/
def depth : Nat := 64

/-- Adds the files of a directory to a tree. -/
def addDirectory : Nat → IO.FS.DirEntry → FileTree → IO FileTree
  | 0, _, files => return files
  | depth + 1, directory, files => do
    let entries ← directory.path.readDir
    entries.foldlM (fun files entry => do
      let about ← entry.path.symlinkMetadata
      match about.type with
      | .dir => addDirectory depth entry files
      | .file =>
        let bytes ← IO.FS.readBinFile entry.path
        return files.add (textOf entry.path.toString) (contentOf bytes.toList) (timestampOf about.modified)
      | _ => return files) files

/-- The files below the working directory. -/
def readFiles : IO FileTree := do
  let working ← IO.currentDir
  let components := (Text.pieces '/' (textOf working.toString)).filter (!·.isEmpty)
  addDirectory depth ⟨working, ""⟩ (.empty components)

/-- The number of files that can be open at a time: a process has 1024 of them unless it asks for more, three of which are
its standard streams. -/
def openLimit : Nat := 1021

/-- Writes bytes. -/
def write (stream : IO.FS.Stream) (t : Text) : IO Unit := do
  stream.write ⟨t.toArray⟩
  stream.flush

end Program

end Stencil

def main (arguments : List String) : IO UInt32 := do
  let files ← Stencil.Program.readFiles
  let result := Stencil.CommandLine.run (files.system Stencil.Program.openLimit) .empty Stencil.Program.name
    .info (arguments.map Stencil.Program.textOf)
  Stencil.Program.write (← IO.getStdout) result.output
  Stencil.Program.write (← IO.getStderr) result.errors
  return result.exitCode
