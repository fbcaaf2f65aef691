import Stencil.Proofs.File.Canonical

/-!
# What is relied on in systems of files

The engine tests one name of a file and then uses its canonical name, and it takes for granted that a file which can be
read can be asked for its time and opened. `FileSystem.Lawful` says so of a system. With symbolic links it need not hold:
behind a link the component `..` does not lead back. A tree of files has no links, and keeps to it
(`FileTree.lawful_system`).
-/

namespace Stencil

namespace FileSystem

variable {fs : FileSystem} {name : Text} {c c' : Content} {time time' : Timestamp}

/-- A readable file of that name holds `c` since it was modified at `time`. -/
structure Has (fs : FileSystem) (name : Text) (c : Content) (time : Timestamp) : Prop where
  readable : fs.isReadable name = true
  content : fs.content name = .ok c
  modified : fs.modified? name = some time

theorem Has.unique (h : fs.Has name c time) (h' : fs.Has name c' time') : c = c' ∧ time = time' := by
  constructor
  · cases h.content.symm.trans h'.content
    rfl
  · cases h.modified.symm.trans h'.modified
    rfl

structure Lawful (fs : FileSystem) : Prop where
  /-- the working directory is named from the root on, as `getcwd` does -/
  working : FileName.isAbsolute fs.workingName = true
  /-- a regular file that `access` says can be read has a time, and can be read -/
  has : ∀ name, fs.isReadable name = true → ∃ c time, fs.Has name c time
  /-- no symbolic link leads astray: the canonical name of a file is a name of the same file -/
  straight : ∀ name c time, fs.Has name c time → fs.Has (fs.fullName name) c time

/-! ## Canonical names -/

/-- The name is canonical and starts at the root. -/
def IsFull (path : Text) : Prop := FileName.isAbsolute path = true ∧ FileName.canonical path = path

theorem isFull_canonical (absolute : FileName.isAbsolute name = true) : IsFull (FileName.canonical name) :=
  ⟨by rw [FileName.isAbsolute_canonical, absolute], by rw [FileName.canonical, FileName.ofText_canonical, FileName.canonical]⟩

theorem isFull_fullName (absolute : FileName.isAbsolute fs.workingName = true) (name : Text) : IsFull (fs.fullName name) := by
  rw [fullName, FileName.resolve]
  cases given : FileName.isAbsolute name with
  | true => exact isFull_canonical given
  | false =>
    have some : (fs.workingName ++ "/").isEmpty = false :=
      Bool.eq_false_iff.2 fun none => by simp [Text.ascii] at none
    have last : ((fs.workingName ++ "/").getLast? == Option.some ('/' : Byte)) = true := by
      rw [List.getLast?_append]
      rfl
    rw [some, last]
    simp only [Bool.false_or, Bool.false_eq_true, if_false, if_true, some]
    exact isFull_canonical (FileName.isAbsolute_append (FileName.isAbsolute_append (FileName.isAbsolute_append absolute _) _) _)

/-- The file with this canonical name. -/
structure Holds (fs : FileSystem) (path : Text) (c : Content) (time : Timestamp) : Prop extends fs.Has path c time where
  full : IsFull path

end FileSystem

/-! ## Trees of files -/

namespace FileTree

variable {t : FileTree} {limit : Nat} {name : Text} {c : Content} {time : Timestamp}

/-- The documents in a tree of files. -/
def documents (t : FileTree) : List (List Callback) :=
  t.nodes.filterMap fun
    | (_, .file (.document callbacks) _) => some callbacks
    | _ => none

theorem mem_documents {path : Text} {document : List Callback}
    (h : t.content path = .ok (.document document)) : document ∈ t.documents := by
  have there {place : List Text} {time : Timestamp} (found : t.at? place = some (.file (.document document) time)) :
      document ∈ t.documents := by
    unfold at? at found
    split at found
    · cases found
    · obtain ⟨node, hn, same⟩ := Option.map_eq_some_iff.1 found
      exact List.mem_filterMap.2 ⟨node, List.mem_of_find?_eq_some hn, by obtain ⟨place, node⟩ := node; cases same; rfl⟩
  unfold content find at h
  cases located : t.locate path with
  | error e => rw [located] at h; cases h
  | ok place =>
    rw [located] at h
    cases found : t.at? place with
    | none => simp only [found] at h; cases h
    | some node =>
      simp only [found] at h
      split at h <;> cases h
      rename_i same
      cases same
      exact there found

end FileTree

end Stencil
