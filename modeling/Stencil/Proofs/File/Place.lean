import Mathlib.Data.List.Basic
import Stencil.File.Tree
import Stencil.Proofs.Text.Pieces

/-!
# The place of a file and its canonical name

Whatever name a file is found under, the canonical form of the name is made of the components of its place
in the tree, and the file is found under that name too (`FileTree.find_canonical`). So names of one file have
one canonical form.
-/

namespace Stencil

/-! ## Components -/

namespace FileName

/-- A component that names a file or directory inside of the one before it. -/
def IsPart (p : Text) : Prop := p ≠ [] ∧ p ≠ "." ∧ p ≠ ".." ∧ ('/' : Byte) ∉ p ∧ 0 ∉ p

instance : DecidablePred IsPart := fun _ => inferInstanceAs (Decidable (_ ∧ _))

/-- The canonical name of a place. -/
def ofPlace (place : List Text) : Text := "/" ++ Text.join "/" place

variable {place parts : List Text} {part : Text}

theorem addPart_skip (h : (part.isEmpty || part == ".") = true) (parts : List Text) : addPart true parts part = parts :=
  if_pos h

theorem addPart_nil (parts : List Text) : addPart true parts [] = parts := addPart_skip rfl parts

theorem addPart_part (h : IsPart part) (parts : List Text) : addPart true parts part = part :: parts := by
  obtain ⟨filled, dot, dots, -, -⟩ := h
  unfold addPart
  rw [if_neg (by simp [filled, dot]), if_neg (by simpa using dots)]

/-- One component up; at the root there is none. -/
theorem addPart_up (h : ∀ p ∈ place, IsPart p) : addPart true place.reverse ".." = place.dropLast.reverse := by
  have tail : ∀ ps : List Text, (∀ p ∈ ps, IsPart p) → addPart true ps ".." = ps.tail := by
    intro ps plain
    cases ps with
    | nil => rfl
    | cons last before =>
      have other : ¬ (last == "..") = true := by simpa using (List.forall_mem_cons.1 plain).1.2.2.1
      exact if_neg other
  rw [tail _ fun p hp => h p (List.mem_reverse.1 hp), List.tail_reverse]

theorem foldl_addPart (h : ∀ p ∈ parts, IsPart p) (before : List Text) :
    parts.foldl (addPart true) before = parts.reverse ++ before := by
  induction parts generalizing before with
  | nil => rfl
  | cons p parts ih =>
    obtain ⟨first, others⟩ := List.forall_mem_cons.1 h
    rw [List.foldl_cons, addPart_part first, ih others]
    simp

/-- The pieces of joined components are these components, but for one empty piece if there are none. -/
theorem pieces_join (h : ∀ p ∈ parts, IsPart p) :
    Text.pieces '/' (Text.join "/" parts) = if parts = [] then [[]] else parts := by
  split
  · rename_i none
    subst none
    rfl
  · rename_i some
    exact Text.pieces_join (fun p hp => (h p hp).2.2.2.1) some

theorem pieces_ofPlace (place : List Text) :
    Text.pieces '/' (ofPlace place) = [] :: Text.pieces '/' (Text.join "/" place) :=
  Text.pieces_append '/' [] (Text.join "/" place)

theorem foldl_pieces_join (h : ∀ p ∈ parts, IsPart p) (before : List Text) :
    (Text.pieces '/' (Text.join "/" parts)).foldl (addPart true) before = parts.reverse ++ before := by
  rw [pieces_join h]
  split
  · rename_i none
    subst none
    exact addPart_nil before
  · exact foldl_addPart h before

theorem nul_not_mem_join (h : ∀ p ∈ parts, IsPart p) : 0 ∉ Text.join "/" parts :=
  Text.not_mem_join (by decide) fun p hp => (h p hp).2.2.2.2

theorem nul_not_mem_ofPlace (h : ∀ p ∈ place, IsPart p) : 0 ∉ ofPlace place := by
  rw [ofPlace, List.mem_append, not_or]
  exact ⟨by decide, nul_not_mem_join h⟩

/-- The canonical form of a name that starts at the root, from what its components come to. -/
theorem canonical_absolute {name : Text} (absolute : isAbsolute name = true)
    (h : (Text.pieces '/' (Text.untilNul name)).foldl (addPart true) [] = place.reverse) : canonical name = ofPlace place := by
  obtain ⟨rest, rfl⟩ : ∃ rest, name = ('/' : Byte) :: rest := by
    cases name with
    | nil => cases absolute
    | cons c rest => exact ⟨rest, congrArg (· :: rest) (Option.some.inj (beq_iff_eq.1 absolute))⟩
  have stays : isAbsolute (Text.untilNul (('/' : Byte) :: rest)) = true := rfl
  rw [canonical, Canonical.ofText, stays, h, List.reverse_reverse]
  rfl

/-- The canonical form of a name below a place. -/
theorem canonical_below {before : List Text} {name : Text} (h : ∀ p ∈ before, IsPart p)
    (after : (Text.pieces '/' (Text.untilNul name)).foldl (addPart true) before.reverse = place.reverse) :
    canonical (ofPlace before ++ "/" ++ "/" ++ name) = ofPlace place := by
  have noNul : 0 ∉ ofPlace before ++ [('/' : Byte), ('/' : Byte)] := by
    rw [List.mem_append, not_or]
    exact ⟨nul_not_mem_ofPlace h, by decide⟩
  have cut : Text.untilNul (ofPlace before ++ "/" ++ "/" ++ name) =
      ofPlace before ++ ('/' : Byte) :: ('/' : Byte) :: Text.untilNul name := by
    have whole := Text.untilNul_eq noNul name
    simpa [Text.ascii] using whole
  refine canonical_absolute rfl ?_
  rw [cut, Text.pieces_append, List.foldl_append, pieces_ofPlace, List.foldl_cons, addPart_nil,
    foldl_pieces_join h, List.append_nil]
  exact after

end FileName

/-! ## Walking to a place -/

namespace FileTree

open FileName

variable {t : FileTree} {place q parts : List Text} {name : Text} {node : Node}

/-- There is a directory at the place. -/
def IsDirectoryAt (t : FileTree) (place : List Text) : Prop := ∃ time, t.at? place = some (.directory time)

/-- The place is given by plain components, and on the way to it there are directories. -/
structure Reachable (t : FileTree) (place : List Text) : Prop where
  parts : ∀ p ∈ place, IsPart p
  onWay : ∀ n < place.length, t.IsDirectoryAt (place.take n)

/-- The working directory can be reached. -/
def Grounded (t : FileTree) : Prop := t.Reachable t.workingDirectory

theorem reachable_root (t : FileTree) : t.Reachable [] := ⟨by simp, by simp⟩

theorem Reachable.dropLast (h : t.Reachable place) : t.Reachable place.dropLast := by
  refine ⟨fun p hp => h.parts p (List.dropLast_subset _ hp), fun n lt => ?_⟩
  rw [List.length_dropLast] at lt
  rw [List.dropLast_eq_take, List.take_take, Nat.min_eq_left (by omega)]
  exact h.onWay n (by omega)

theorem Reachable.snoc (h : t.Reachable place) (directory : t.IsDirectoryAt place) {part : Text} (plain : IsPart part) :
    t.Reachable (place ++ [part]) := by
  refine ⟨fun p hp => ?_, fun n lt => ?_⟩
  · rcases List.mem_append.1 hp with hp | hp
    · exact h.parts p hp
    · exact List.mem_singleton.1 hp ▸ plain
  · rw [List.length_append, List.length_singleton] at lt
    rw [List.take_append_of_le_length (by omega)]
    rcases Nat.lt_or_eq_of_le (show n ≤ place.length by omega) with shorter | rfl
    · exact h.onWay n shorter
    · rwa [List.take_length]

/-- Where a walk ends is what its components come to without looking at the tree. -/
theorem reachable_walk (start : t.Reachable place) (clean : ∀ part ∈ parts, ('/' : Byte) ∉ part ∧ 0 ∉ part)
    (h : t.walk place parts = .ok q) : t.Reachable q ∧ parts.foldl (addPart true) place.reverse = q.reverse := by
  induction parts generalizing place with
  | nil =>
    cases h
    exact ⟨start, rfl⟩
  | cons part parts ih =>
    obtain ⟨first, others⟩ := List.forall_mem_cons.1 clean
    rw [walk] at h
    rw [List.foldl_cons]
    split at h
    · cases h
    · cases h
    · rename_i time found
      split at h
      · rename_i skipped
        rw [addPart_skip skipped]
        exact ih start others h
      · rename_i visible
        simp only [Bool.or_eq_true, List.isEmpty_iff, beq_iff_eq, not_or] at visible
        split at h
        · rename_i up
          rw [beq_iff_eq.1 up, addPart_up start.parts]
          exact ih start.dropLast others h
        · rename_i other
          have plain : IsPart part := ⟨visible.1, visible.2, by simpa using other, first⟩
          rw [addPart_part plain, ← List.reverse_concat]
          exact ih (start.snoc ⟨time, found⟩ plain) others h

/-- Plain components are walked along if there are directories on the way. -/
theorem walk_reachable (h : t.Reachable (place ++ parts)) : t.walk place parts = .ok (place ++ parts) := by
  induction parts generalizing place with
  | nil => rw [walk, List.append_nil]
  | cons part parts ih =>
    have plain : IsPart part := h.parts part (by simp)
    obtain ⟨time, found⟩ : t.IsDirectoryAt place := by
      have onWay := h.onWay place.length (by simp)
      rwa [List.take_left] at onWay
    have rest : t.Reachable ((place ++ [part]) ++ parts) := by rwa [List.append_assoc]
    rw [walk, found]
    dsimp only
    rw [if_neg (by simp [plain.1, plain.2.1]), if_neg (by simpa using plain.2.2.1), ih rest, List.append_assoc]
    rfl

/-! ## Names and places -/

theorem clean_pieces (name : Text) : ∀ part ∈ Text.pieces '/' (Text.untilNul name), ('/' : Byte) ∉ part ∧ 0 ∉ part :=
  fun _ hp => ⟨Text.not_mem_pieces hp, fun zero => Text.nul_not_mem_untilNul name (Text.mem_of_mem_pieces hp zero)⟩

/-- A place that can be reached is where its canonical name leads. -/
theorem locate_ofPlace (h : t.Reachable place) : t.locate (ofPlace place) = .ok place := by
  have whole : Text.untilNul (ofPlace place) = ofPlace place :=
    Text.untilNul_whole (nul_not_mem_ofPlace h.parts)
  have root : t.walk [] ([] :: Text.pieces '/' (Text.join "/" place)) = t.walk [] (Text.pieces '/' (Text.join "/" place)) := rfl
  have arrives : t.walk [] (Text.pieces '/' (Text.join "/" place)) = .ok place := by
    rw [pieces_join h.parts]
    split
    · rename_i none
      subst none
      rfl
    · exact @walk_reachable t [] place h
  rw [locate, whole]
  exact (congrArg (t.walk []) (pieces_ofPlace place)).trans (root.trans arrives)

/-- Where an absolute name leads, its components say by themselves. -/
theorem reachable_of_absolute (absolute : isAbsolute name = true) (h : t.locate name = .ok place) :
    t.Reachable place ∧ (Text.pieces '/' (Text.untilNul name)).foldl (addPart true) [] = place.reverse := by
  obtain ⟨rest, rfl⟩ : ∃ rest, name = ('/' : Byte) :: rest := by
    cases name with
    | nil => cases absolute
    | cons c rest => exact ⟨rest, congrArg (· :: rest) (Option.some.inj (beq_iff_eq.1 absolute))⟩
  exact reachable_walk t.reachable_root (clean_pieces _) h

/-- A name that does not start at the root is walked along from the working directory. -/
theorem walk_of_relative (relative : isAbsolute name = false) (h : t.locate name = .ok place) :
    t.walk t.workingDirectory (Text.pieces '/' (Text.untilNul name)) = .ok place := by
  have cut : isAbsolute (Text.untilNul name) = false := by
    cases name with
    | nil => rfl
    | cons c rest =>
      rw [Text.untilNul, List.takeWhile_cons]
      split
      · exact relative
      · rfl
  rw [locate] at h
  split at h
  · cases h
  · rwa [cut, if_neg (by decide)] at h

/-- **The canonical form of a name is that of the place it leads to.** -/
theorem resolve_of_locate (grounded : t.Grounded) (h : t.locate name = .ok place) :
    t.Reachable place ∧ resolve (t.workingName ++ "/") name = ofPlace place := by
  cases absolute : isAbsolute name with
  | true =>
    obtain ⟨reachable, parts⟩ := reachable_of_absolute absolute h
    have whole : resolve (t.workingName ++ "/") name = canonical name := by
      rw [resolve, absolute, Bool.true_or, if_pos rfl]
    exact ⟨reachable, whole.trans (canonical_absolute absolute parts)⟩
  | false =>
    have below : resolve (t.workingName ++ "/") name = canonical (ofPlace t.workingDirectory ++ "/" ++ "/" ++ name) := by
      have last : (t.workingName ++ "/").getLast? = some ('/' : Byte) := by
        rw [List.getLast?_append]
        rfl
      rw [resolve, absolute, last]
      rfl
    obtain ⟨reachable, parts⟩ := reachable_walk grounded (clean_pieces name) (walk_of_relative absolute h)
    exact ⟨reachable, below.trans (canonical_below grounded.parts parts)⟩

/-- **A file is found under its canonical name too**, at the same place. -/
theorem find_canonical (grounded : t.Grounded) (h : t.find name = .ok (place, node)) :
    resolve (t.workingName ++ "/") name = ofPlace place ∧ t.find (ofPlace place) = .ok (place, node) ∧
      ∀ p ∈ place, IsPart p := by
  rw [find] at h
  split at h
  · cases h
  · rename_i q located
    split at h
    · rename_i n found
      cases h
      obtain ⟨reachable, canonical⟩ := resolve_of_locate grounded located
      refine ⟨canonical, ?_, reachable.parts⟩
      rw [find, locate_ofPlace reachable]
      simp only [found]
    · cases h

end FileTree

end Stencil
