import Mathlib.Data.List.DropRight
import Stencil.Proofs.File.Canonical

/-!
# Names relative to a file

What a file calls by a name that is not absolute is meant to be in the directory of the file. It is, if the directory is
not the root: then the name comes to an absolute one, which leads wherever the directory does (`FileName.resolve_beside_iff`).
What a file in the root itself calls by a name is looked for in the working directory (`FileName.resolve_astray`).
-/

namespace Stencil

namespace FileName

/-- The name of the directory of a file: all up to the last slash. -/
def folder (name : Text) : Text := name.rdropWhile (· != ('/' : Byte))

variable {reference name d n : Text}

theorem folder_append (noSlash : ('/' : Byte) ∉ n) : folder (d ++ ('/' : Byte) :: n) = d ++ "/" := by
  have others : ∀ c ∈ n.reverse, (c != ('/' : Byte)) = true := by
    intro c hc
    have other : c ≠ '/' := fun same => noSlash (same ▸ List.mem_reverse.1 hc)
    simpa using other
  have stops : List.dropWhile (· != ('/' : Byte)) (('/' : Byte) :: d.reverse) = ('/' : Byte) :: d.reverse :=
    List.dropWhile_cons_of_neg (by decide)
  rw [folder, List.rdropWhile, List.reverse_append, List.reverse_cons, List.append_assoc, List.singleton_append,
    List.dropWhile_append_of_pos others, stops, List.reverse_cons, List.reverse_reverse]
  rfl

theorem directory_append (noSlash : ('/' : Byte) ∉ n) : directory (d ++ ('/' : Byte) :: n) = d := by
  have up : folder (d ++ ('/' : Byte) :: n) = d ++ "/" := folder_append noSlash
  have reversed := congrArg List.reverse up
  rw [folder, List.rdropWhile, List.reverse_reverse] at reversed
  rw [directory, if_pos (by simp), reversed]
  simp [Text.ascii]

/-- An absolute name has a last slash. -/
theorem exists_lastSlash (absolute : isAbsolute name = true) : ∃ d n, name = d ++ ('/' : Byte) :: n ∧ ('/' : Byte) ∉ n := by
  obtain ⟨rest, rfl⟩ := isAbsolute_iff.1 absolute
  have slash : ('/' : Byte) ∈ (('/' : Byte) :: rest).reverse := List.mem_reverse.2 List.mem_cons_self
  obtain ⟨front, back, same, none⟩ := List.eq_append_cons_of_mem slash
  refine ⟨back.reverse, front.reverse, ?_, fun there => none (List.mem_reverse.1 there)⟩
  rw [← List.reverse_reverse (_ :: rest), same]
  simp

/-- A name in a file is joined to the directory of the file, if that has a name. -/
theorem resolve_eq (relative : isAbsolute name = false) (file : reference.getLast? ≠ some ('/' : Byte)) :
    resolve reference name =
      if directory reference = [] then canonical name else canonical (directory reference ++ "/" ++ name) := by
  by_cases none : reference = []
  · subst none
    rw [resolve, relative]
    rfl
  · have place : (if (reference.getLast? == some ('/' : Byte)) = true then reference else directory reference) =
        directory reference := if_neg (by simpa using file)
    rw [resolve, relative, if_neg (by simpa using none)]
    dsimp only
    rw [place]
    simp only [List.isEmpty_iff]

theorem folder_eq_directory (absolute : isAbsolute reference = true) : folder reference = directory reference ++ "/" := by
  obtain ⟨d, n, rfl, noSlash⟩ := exists_lastSlash absolute
  rw [folder_append noSlash, directory_append noSlash]

end FileName

namespace FileTree

open FileName

variable {t : FileTree} {place q : List Text} {name : Text}

theorem walk_append (t : FileTree) (place ps qs : List Text) :
    t.walk place (ps ++ qs) = (t.walk place ps).bind fun q => t.walk q qs := by
  induction ps generalizing place with
  | nil => rfl
  | cons part ps ih =>
    rw [List.cons_append, walk, walk]
    split
    · rfl
    · rfl
    · simp only [ih]
      split
      · rfl
      · split <;> rfl

/-- An absolute name and its canonical form lead to the same place. -/
theorem locate_canonical (absolute : isAbsolute name = true) (h : t.locate name = .ok place) :
    t.locate (canonical name) = .ok place := by
  obtain ⟨reachable, parts⟩ := reachable_of_absolute absolute h
  rw [canonical_absolute absolute parts]
  exact locate_ofPlace reachable

theorem walk_from (t : FileTree) (w place parts : List Text) :
    { t with workingDirectory := w }.walk place parts = t.walk place parts := by
  induction parts generalizing place with
  | nil => rfl
  | cons part parts ih =>
    have node : { t with workingDirectory := w }.at? place = t.at? place := rfl
    simp only [walk, node, ih]

/-- Where an absolute name leads does not depend on the working directory. -/
theorem locate_absolute (absolute : isAbsolute name = true) (w : List Text) :
    { t with workingDirectory := w }.locate name = t.locate name := by
  unfold locate
  dsimp only
  rw [isAbsolute_untilNul, absolute, if_pos rfl, if_pos rfl, walk_from]

theorem locate_eq_walk (absolute : isAbsolute name = true) (noNul : 0 ∉ name) :
    t.locate name = t.walk [] (Text.pieces '/' name) := by
  obtain ⟨rest, rfl⟩ := isAbsolute_iff.1 absolute
  unfold locate
  rw [Text.untilNul_whole noNul]
  rfl

/-- What is behind the name of a directory is walked along from there. -/
theorem locate_behind {d : Text} (absolute : isAbsolute (d ++ "/") = true) (noNul : 0 ∉ d ++ "/") (noNul' : 0 ∉ name)
    (there : t.locate (d ++ "/") = .ok place) (next : t.walk place (Text.pieces '/' name) = .ok q) :
    t.locate (d ++ "/" ++ name) = .ok q := by
  have absolute' : isAbsolute (d ++ "/" ++ name) = true := isAbsolute_append absolute name
  have noNul'' : 0 ∉ d ++ "/" ++ name := by
    rw [List.mem_append, not_or]
    exact ⟨noNul, noNul'⟩
  have cut (behind : Text) : Text.pieces '/' (d ++ "/" ++ behind) = Text.pieces '/' d ++ Text.pieces '/' behind := by
    rw [List.append_assoc]
    exact Text.pieces_append '/' d behind
  have upTo : t.walk [] (Text.pieces '/' d ++ [[]]) = .ok place := by
    have pieces := cut []
    rw [List.append_nil] at pieces
    rw [← there, locate_eq_walk absolute noNul, pieces]
    rfl
  rw [walk_append] at upTo
  rw [locate_eq_walk absolute' noNul'', cut, walk_append]
  cases walked : t.walk [] (Text.pieces '/' d) with
  | error e =>
    rw [walked] at upTo
    cases upTo
  | ok p =>
    rw [walked] at upTo
    -- the empty component behind the last slash only asks for a directory
    have same : p = place := by
      change t.walk p [[]] = .ok place at upTo
      rw [walk] at upTo
      split at upTo
      · cases upTo
      · cases upTo
      · cases upTo
        rfl
    rw [same]
    exact next

end FileTree

namespace FileName

variable {reference name : Text}

theorem isAbsolute_folder (absolute : isAbsolute reference = true) : isAbsolute (folder reference) = true := by
  obtain ⟨d, n, rfl, noSlash⟩ := exists_lastSlash absolute
  rw [folder_append noSlash]
  cases d with
  | nil => rfl
  | cons c d => exact absolute

/-- **A name in a file is looked for in the directory of the file**, which comes before all others, if and only if the file is
not in the root. Then it leads from there to where its components lead, whatever the working directory. -/
theorem resolve_beside_iff (absolute : isAbsolute reference = true) (file : reference.getLast? ≠ some ('/' : Byte))
    (relative : isAbsolute name = false) (noNul : 0 ∉ reference) (noNul' : 0 ∉ name) :
    (isAbsolute (resolve reference name) = true ∧ resolve reference name = canonical (folder reference ++ name) ↔
      folder reference ≠ "/") ∧
    (folder reference = "/" → resolve reference name = canonical name) ∧
    (∀ l : Library, (l.candidates name reference).head? = some (resolve reference name)) ∧
    (folder reference ≠ "/" → ∀ t : FileTree,
      (∀ w, { t with workingDirectory := w }.locate (resolve reference name) = t.locate (resolve reference name)) ∧
      ∀ place q, t.locate (folder reference) = .ok place → t.walk place (Text.pieces '/' name) = .ok q →
        t.locate (resolve reference name) = .ok q) := by
  have up : folder reference = directory reference ++ "/" := folder_eq_directory absolute
  have absolute' : isAbsolute (folder reference ++ name) = true := isAbsolute_append (isAbsolute_folder absolute) name
  have noNul'' : 0 ∉ folder reference := fun nul => noNul ((List.rdropWhile_prefix ..).mem nul)
  have root : folder reference = "/" ↔ directory reference = [] := by
    rw [up]
    simp
  have first (l : Library) : (l.candidates name reference).head? = some (resolve reference name) := by
    have some : reference ≠ [] := by
      rintro rfl
      cases absolute
    rw [Library.candidates, relative, if_neg (by simp), if_neg (by simpa using some)]
    rfl
  have inRoot (h : folder reference = "/") : resolve reference name = canonical name := by
    rw [resolve_eq relative file, if_pos (root.1 h)]
  have below (h : folder reference ≠ "/") : resolve reference name = canonical (folder reference ++ name) := by
    rw [resolve_eq relative file, if_neg (mt root.2 h), up]
  refine ⟨⟨?_, fun h => ?_⟩, inRoot, first, fun h t => ⟨fun w => ?_, fun place q there next => ?_⟩⟩
  · rintro ⟨reaches, -⟩ h
    rw [inRoot h, isAbsolute_canonical, relative] at reaches
    cases reaches
  · rw [below h, isAbsolute_canonical]
    exact ⟨absolute', rfl⟩
  · apply FileTree.locate_absolute
    rw [below h, isAbsolute_canonical]
    exact absolute'
  · rw [below h]
    apply FileTree.locate_canonical absolute'
    rw [up] at there noNul'' ⊢
    exact FileTree.locate_behind (up ▸ isAbsolute_folder absolute) noNul'' noNul' there next

/-- A file in a directory asks for one in the directory above, while the working directory is the root. -/
theorem resolve_beside_iff_above :
    let reference : Text := "/w/sub//main.xml"
    let name : Text := "./../part.xml"
    let t : FileTree := ⟨[(["w"], .plainDirectory), (["w", "sub"], .plainDirectory),
      (["w", "part.xml"], .file (.text "p") ⟨1, 0⟩)], []⟩
    (isAbsolute reference = true ∧ reference.getLast? ≠ some ('/' : Byte) ∧ isAbsolute name = false ∧ 0 ∉ reference ∧ 0 ∉ name) ∧
      folder reference = Text.ascii "/w/sub//" ∧ resolve reference name = Text.ascii "/w/part.xml" ∧
      resolve reference name = canonical (folder reference ++ name) ∧
      t.locate (folder reference) = .ok ["w", "sub"] ∧ t.locate (resolve reference name) = .ok ["w", "part.xml"] := by
  intro reference name t
  have conditions : isAbsolute reference = true ∧ reference.getLast? ≠ some ('/' : Byte) ∧ isAbsolute name = false ∧
      0 ∉ reference ∧ 0 ∉ name := by decide
  have below : folder reference ≠ "/" := by decide
  obtain ⟨absolute, file, relative, noNul, noNul'⟩ := conditions
  obtain ⟨beside, -, -, leads⟩ := resolve_beside_iff absolute file relative noNul noNul'
  obtain ⟨-, walks⟩ := leads below t
  exact ⟨⟨absolute, file, relative, noNul, noNul'⟩, rfl, rfl, (beside.2 below).2, rfl, walks ["w", "sub"] _ rfl rfl⟩

/-- **What a file in the root calls by a name is not beside it.** The name stays relative, so a file that is there is not
found from another working directory. -/
theorem resolve_astray :
    let reference : Text := "/main.xml"
    let name : Text := "part.xml"
    let t : FileTree := ⟨[(["w"], .plainDirectory), (["main.xml"], .file (.text "m") ⟨1, 0⟩),
      (["part.xml"], .file (.text "p") ⟨1, 0⟩)], ["w"]⟩
    isAbsolute reference = true ∧ reference.getLast? ≠ some ('/' : Byte) ∧ isAbsolute name = false ∧
      isAbsolute (resolve reference name) = false ∧ resolve reference name ≠ canonical (folder reference ++ name) ∧
      t.isReadable (canonical (folder reference ++ name)) = true ∧ t.isReadable (resolve reference name) = false := by
  decide +kernel

end FileName

end Stencil
