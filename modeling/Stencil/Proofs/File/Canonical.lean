import Stencil.Library.Load
import Stencil.Proofs.File.Place

/-!
# Canonical names

The components of a canonical name are those of the name with all taken out that can be (`FileName.Reduced`): empty
components, `.`, and each component with the `..` after it. Each component of a name keeps what is left so far reduced
(`FileName.Reduced.addPart`), and reduced components come to themselves (`FileName.Reduced.ofText_toText`). So the
canonical names are the names with reduced components, and a directory can be replaced by its canonical name
(`FileName.canonical_normal`).
-/

namespace Stencil

namespace FileName

/-- The components of a name: what stands between its slashes, not counting the one that makes it absolute. -/
def components (name : Text) : List Text := Text.split '/' false (if isAbsolute name then name.drop 1 else name)

/-- Nothing can be taken out of the components. -/
structure Reduced (absolute : Bool) (parts : List Text) : Prop where
  filled : ∀ p ∈ parts, p ≠ [] ∧ p ≠ "."
  /-- before a `..` there is nothing else -/
  leading : parts.Pairwise fun (p q : Text) => q = ".." → p = ".."
  rooted : absolute = true → (".." : Text) ∉ parts

variable {absolute : Bool} {before parts : List Text} {part name : Text}

/-! ## Reducing components -/

theorem reduced_snoc : Reduced absolute (parts ++ [part]) ↔
    Reduced absolute parts ∧ (part ≠ [] ∧ part ≠ ".") ∧ (part = ".." → absolute = false ∧ ∀ p ∈ parts, p = "..") := by
  constructor
  · rintro ⟨filled, leading, rooted⟩
    simp only [List.forall_mem_append, List.forall_mem_singleton] at filled
    simp only [List.pairwise_append, List.mem_singleton, forall_eq] at leading
    simp only [List.mem_append, List.mem_singleton, not_or] at rooted
    obtain ⟨leading, -, last⟩ := leading
    refine ⟨⟨filled.1, leading, fun h => (rooted h).1⟩, filled.2, fun up => ⟨?_, fun p hp => last p hp up⟩⟩
    exact Bool.eq_false_iff.2 fun h => (rooted h).2 up.symm
  · rintro ⟨⟨filled, leading, rooted⟩, visible, last⟩
    refine ⟨?_, ?_, fun h => ?_⟩
    · simp only [List.forall_mem_append, List.forall_mem_singleton]
      exact ⟨filled, visible⟩
    · simp only [List.pairwise_append, List.mem_singleton, forall_eq]
      exact ⟨leading, List.pairwise_singleton _ _, fun p hp up => (last up).2 p hp⟩
    · simp only [List.mem_append, List.mem_singleton, not_or]
      exact ⟨rooted h, fun up => Bool.false_ne_true ((last up.symm).1.symm.trans h)⟩

/-- **One more component keeps what is left reduced**, `before` being what is left of those before it, from the last to
the first. -/
theorem Reduced.addPart (h : Reduced absolute before.reverse) (part : Text) :
    Reduced absolute (FileName.addPart absolute before part).reverse := by
  unfold FileName.addPart
  split
  · exact h
  rename_i visible
  have filled : part ≠ [] ∧ part ≠ "." := by simpa using visible
  split
  · rename_i up
    rw [beq_iff_eq] at up
    cases before with
    | nil =>
      dsimp only
      split
      · exact h
      · rename_i relative
        exact reduced_snoc.2 ⟨h, filled, fun _ => ⟨by simpa using relative, by simp⟩⟩
    | cons last before =>
      rw [List.reverse_cons, reduced_snoc] at h
      obtain ⟨h, visible, last⟩ := h
      dsimp only
      split
      · -- all that is left are others, so one more can be kept
        rename_i climbs
        have climbs := beq_iff_eq.1 climbs
        obtain ⟨relative, others⟩ := last climbs
        rw [List.reverse_cons, List.reverse_cons, reduced_snoc, reduced_snoc]
        refine ⟨⟨h, visible, last⟩, filled, fun _ => ⟨relative, ?_⟩⟩
        simp only [List.forall_mem_append, List.forall_mem_singleton]
        exact ⟨others, climbs⟩
      · exact h
  · rename_i other
    rw [List.reverse_cons, reduced_snoc]
    exact ⟨h, filled, fun up => absurd (beq_iff_eq.2 up) other⟩

theorem Reduced.foldl (h : Reduced absolute before.reverse) (parts : List Text) :
    Reduced absolute (parts.foldl (FileName.addPart absolute) before).reverse := by
  induction parts generalizing before with
  | nil => exact h
  | cons part parts ih => exact ih (h.addPart part)

/-- A component that can stay does. -/
theorem addPart_of_reduced (h : Reduced absolute (before.reverse ++ [part])) :
    addPart absolute before part = part :: before := by
  obtain ⟨-, ⟨some, visible⟩, last⟩ := reduced_snoc.1 h
  unfold addPart
  rw [if_neg (by simp [some, visible])]
  split
  · rename_i up
    obtain ⟨relative, others⟩ := last (beq_iff_eq.1 up)
    cases before with
    | nil => simp [relative]
    | cons previous before =>
      have climbs := others previous (by simp)
      dsimp only
      rw [if_pos (beq_iff_eq.2 climbs)]
  · rfl

theorem foldl_of_reduced (h : Reduced absolute (before.reverse ++ parts)) :
    parts.foldl (addPart absolute) before = parts.reverse ++ before := by
  induction parts generalizing before with
  | nil => rfl
  | cons part parts ih =>
    have first : Reduced absolute (before.reverse ++ [part]) := by
      have whole : before.reverse ++ part :: parts = (before.reverse ++ [part]) ++ parts := by simp
      rw [whole] at h
      exact ⟨fun p hp => h.filled p (List.mem_append_left _ hp), (List.pairwise_append.1 h.leading).1,
        fun rooted up => h.rooted rooted (List.mem_append_left _ up)⟩
    rw [List.foldl_cons, addPart_of_reduced first, ih (by simpa using h)]
    simp

theorem mem_addPart (h : name ∈ addPart absolute before part) : name = part ∨ name ∈ before := by
  unfold addPart at h
  split at h
  · exact .inr h
  · split at h
    · split at h
      · split at h
        · exact .inr h
        · exact .inl (List.mem_singleton.1 h)
      · split at h
        · exact List.mem_cons.1 h
        · exact .inr (List.mem_cons_of_mem _ h)
    · exact List.mem_cons.1 h

theorem mem_foldl_addPart (h : name ∈ parts.foldl (addPart absolute) before) : name ∈ parts ∨ name ∈ before := by
  induction parts generalizing before with
  | nil => exact .inr h
  | cons part parts ih =>
    rcases ih h with there | there
    · exact .inl (List.mem_cons_of_mem _ there)
    · rcases mem_addPart there with rfl | there
      · exact .inl List.mem_cons_self
      · exact .inr there

/-! ## Names and their components -/

theorem isAbsolute_iff : isAbsolute name = true ↔ ∃ rest, name = ('/' : Byte) :: rest := by
  rw [isAbsolute, beq_iff_eq, List.head?_eq_some_iff]

theorem isAbsolute_append (h : isAbsolute name = true) (behind : Text) : isAbsolute (name ++ behind) = true := by
  obtain ⟨rest, rfl⟩ := isAbsolute_iff.1 h
  rfl

theorem isAbsolute_untilNul (name : Text) : isAbsolute (Text.untilNul name) = isAbsolute name := by
  cases name with
  | nil => rfl
  | cons c rest =>
    rw [Text.untilNul, List.takeWhile_cons]
    split
    · rfl
    · rename_i nul
      obtain rfl : c = 0 := by simpa using nul
      rfl

/-- A name is put together of its components again. -/
theorem toText_components (name : Text) : Canonical.toText ⟨isAbsolute name, components name⟩ = name := by
  have joined (s : Text) : Text.join "/" (Text.split '/' false s) = s := by
    cases s with
    | nil => rfl
    | cons c s => exact Text.join_pieces '/' (c :: s)
  unfold Canonical.toText components
  dsimp only
  rw [joined]
  split
  · rename_i absolute
    obtain ⟨rest, rfl⟩ := isAbsolute_iff.1 absolute
    rfl
  · rfl

namespace Canonical

variable {n : Canonical}

theorem ofText_eq (name : Text) : ofText name = ⟨isAbsolute (Text.untilNul name),
    ((Text.pieces '/' (Text.untilNul name)).foldl (addPart (isAbsolute (Text.untilNul name))) []).reverse⟩ := rfl

/-- Components that can be joined to a name and read again. -/
structure IsClean (n : Canonical) : Prop where
  reduced : Reduced n.absolute n.parts
  noSlash : ∀ p ∈ n.parts, ('/' : Byte) ∉ p
  noNul : ∀ p ∈ n.parts, 0 ∉ p

theorem isClean_ofText (name : Text) : (ofText name).IsClean := by
  have clean : ∀ p ∈ (ofText name).parts, ('/' : Byte) ∉ p ∧ 0 ∉ p := by
    intro p hp
    rcases mem_foldl_addPart (List.mem_reverse.1 hp) with there | there
    · exact FileTree.clean_pieces name p there
    · cases there
  have empty (absolute : Bool) : Reduced absolute ([] : List Text).reverse := ⟨by simp, by simp, by simp⟩
  exact ⟨(empty _).foldl _, fun p hp => (clean p hp).1, fun p hp => (clean p hp).2⟩

theorem split_join (h : n.IsClean) : Text.split '/' false (Text.join "/" n.parts) = n.parts :=
  Text.split_join h.noSlash fun empty => (h.reduced.filled [] empty).1 rfl

theorem isAbsolute_toText (h : n.IsClean) : isAbsolute n.toText = n.absolute := by
  obtain ⟨absolute, parts⟩ := n
  cases absolute with
  | true => rfl
  | false =>
    cases parts with
    | nil => rfl
    | cons p ps =>
      have noSlash := h.noSlash p List.mem_cons_self
      obtain ⟨c, p, rfl⟩ := List.exists_cons_of_ne_nil (h.reduced.filled p List.mem_cons_self).1
      have first : (Text.join "/" ((c :: p) :: ps)).head? = some c := by
        cases ps with
        | nil => rw [Text.join_singleton, List.head?_cons]
        | cons q ps => rw [Text.join_cons_cons, List.cons_append, List.head?_cons]
      have other : c ≠ '/' := fun same => noSlash (by simp [same])
      change ((Text.join "/" ((c :: p) :: ps)).head? == some ('/' : Byte)) = false
      rw [first]
      simpa using other

theorem components_toText (h : n.IsClean) : components n.toText = n.parts := by
  have parts := split_join h
  rw [components, isAbsolute_toText h]
  obtain ⟨absolute, ps⟩ := n
  cases absolute <;> exact parts

theorem nul_not_mem_toText (h : n.IsClean) : 0 ∉ n.toText := by
  have joined : 0 ∉ Text.join "/" n.parts := Text.not_mem_join (by decide) h.noNul
  obtain ⟨absolute, parts⟩ := n
  cases absolute with
  | false => exact joined
  | true => exact List.not_mem_cons_of_ne_of_not_mem (by decide) joined

/-- **Reduced components are read again from the name they are joined to.** -/
theorem IsClean.ofText_toText (h : n.IsClean) : ofText n.toText = n := by
  have left : (Text.pieces '/' (Text.join "/" n.parts)).foldl (addPart n.absolute) [] = n.parts.reverse := by
    by_cases none : n.parts = []
    · rw [none]
      rfl
    · have cut : Text.pieces '/' (Text.join "/" n.parts) = n.parts := Text.pieces_join h.noSlash none
      rw [cut, foldl_of_reduced h.reduced, List.append_nil]
  have whole : (Text.pieces '/' n.toText).foldl (addPart n.absolute) [] = n.parts.reverse := by
    obtain ⟨absolute, parts⟩ := n
    cases absolute with
    | false => exact left
    | true => exact (congrArg _ (Text.pieces_append '/' [] (Text.join "/" parts))).trans left
  rw [ofText_eq, Text.untilNul_whole (nul_not_mem_toText h), isAbsolute_toText h, whole, List.reverse_reverse]

end Canonical

open Canonical

/-! ## Canonical names -/

theorem ofText_canonical (name : Text) : ofText (canonical name) = ofText name := (isClean_ofText name).ofText_toText

theorem isAbsolute_canonical (name : Text) : isAbsolute (canonical name) = isAbsolute name :=
  (isAbsolute_toText (isClean_ofText name)).trans (isAbsolute_untilNul name)

theorem components_canonical (name : Text) : components (canonical name) = (ofText name).parts :=
  components_toText (isClean_ofText name)

theorem reduced_canonical (name : Text) : Reduced (isAbsolute (canonical name)) (components (canonical name)) := by
  have reduced := (isClean_ofText name).reduced
  rwa [components_canonical, isAbsolute_canonical, ← isAbsolute_untilNul]

/-- What follows a directory is reduced behind the components of the directory. -/
theorem ofText_append {directory : Text} (h : isAbsolute directory = true) (noNul : 0 ∉ directory) (name : Text) :
    ofText (directory ++ "/" ++ name) =
      ⟨true, ((Text.pieces '/' (Text.untilNul name)).foldl (addPart true) (ofText directory).parts.reverse).reverse⟩ := by
  have below : isAbsolute (directory ++ ('/' : Byte) :: Text.untilNul name) = true := isAbsolute_append h _
  have cut : Text.untilNul (directory ++ "/" ++ name) = directory ++ ('/' : Byte) :: Text.untilNul name := by
    have slash : 0 ∉ directory ++ (("/" : String) : Text) := by
      simp only [List.mem_append, not_or]
      exact ⟨noNul, by decide⟩
    rw [Text.untilNul_eq slash, List.append_assoc]
    rfl
  rw [ofText_eq, ofText_eq directory, cut, below, Text.untilNul_whole noNul, h, Text.pieces_append, List.foldl_append,
    List.reverse_reverse]

/-- The canonical names are those with reduced components. -/
theorem canonical_eq_self_iff (noNul : 0 ∉ name) : canonical name = name ↔ Reduced (isAbsolute name) (components name) := by
  constructor
  · intro same
    have reduced := reduced_canonical name
    rwa [same] at reduced
  · intro reduced
    have pieces : ∀ p ∈ components name, p ∈ Text.pieces '/' (if isAbsolute name then name.drop 1 else name) :=
      fun p hp => Text.mem_pieces_of_mem_split hp
    have clean : Canonical.IsClean ⟨isAbsolute name, components name⟩ := by
      refine ⟨reduced, fun p hp => Text.not_mem_pieces (pieces p hp), fun p hp nul => noNul ?_⟩
      have there := Text.mem_of_mem_pieces (pieces p hp) nul
      split at there
      · exact List.mem_of_mem_drop there
      · exact there
    have read := clean.ofText_toText
    rw [toText_components] at read
    exact (congrArg toText read).trans (toText_components name)

/-- **Canonical names are a normal form.** The canonical form of a name starts at the root if the name does, and its
components are reduced; a name is its own canonical form if and only if its components are reduced, so the canonical form
of a canonical form is that form again. What follows an absolute name may as well follow its canonical form. And where no
links are, a library looks for one file at one place, whichever of its names it is asked for. -/
theorem canonical_normal (name : Text) :
    (isAbsolute (canonical name) = isAbsolute name ∧ Reduced (isAbsolute name) (components (canonical name)) ∧
      canonical (canonical name) = canonical name) ∧
    (0 ∉ name → (canonical name = name ↔ Reduced (isAbsolute name) (components name))) ∧
    (0 ∉ name → isAbsolute name = true → ∀ behind : Text,
      canonical (name ++ "/" ++ behind) = canonical (canonical name ++ "/" ++ behind)) ∧
    ∀ (s : Store) (files : FileTree) (limit : Nat), s.files = files.system limit → files.Grounded →
      ∀ other found, files.find name = .ok found → files.find other = .ok found → s.present? name = s.present? other := by
  refine ⟨⟨isAbsolute_canonical name, ?_, ?_⟩, canonical_eq_self_iff, fun noNul absolute behind => ?_, ?_⟩
  · have reduced := reduced_canonical name
    rwa [isAbsolute_canonical] at reduced
  · exact congrArg toText (ofText_canonical name)
  · have clean := nul_not_mem_toText (isClean_ofText name)
    have below := ofText_append ((isAbsolute_canonical name).trans absolute) clean behind
    rw [canonical, canonical, ofText_append absolute noNul, below, ofText_canonical]
  · rintro s files limit system grounded other ⟨place, node⟩ found found'
    obtain ⟨path, -, -⟩ := FileTree.find_canonical grounded found
    obtain ⟨path', -, -⟩ := FileTree.find_canonical grounded found'
    have one : s.files.fullName name = s.files.fullName other := by
      rw [system]
      exact path.trans path'.symm
    have readable : s.files.isReadable name = s.files.isReadable other := by
      rw [system]
      show files.isReadable name = files.isReadable other
      rw [FileTree.isReadable, FileTree.isReadable, found, found']
    rw [Store.present?, Store.present?, one, readable]

/-- A file is found under a name that goes astray on the way, and under one from the working directory. -/
theorem canonical_normal_detour :
    let files : FileTree :=
      ⟨[(["w"], .plainDirectory), (["w", "x"], .plainDirectory), (["w", "a"], .file (.text "t") ⟨1, 0⟩)], ["w"]⟩
    let s : Store := Store.ofContext (.ofBase []) (files.system 0)
    let name : Text := "/../w//x/.././a/"
    let found : List Text × Node := (["w", "a"], .file (.text "t") ⟨1, 0⟩)
    0 ∉ name ∧ isAbsolute name = true ∧ canonical name = Text.ascii "/w/a" ∧
      canonical (name ++ "/" ++ "../../b") = canonical (canonical name ++ "/" ++ "../../b") ∧
      files.Grounded ∧ files.find "/../w//x/.././a" = .ok found ∧ files.find "x/../a" = .ok found ∧
      s.present? "/../w//x/.././a" = s.present? "x/../a" := by
  intro files s name found
  have noNul : 0 ∉ name := by decide
  have grounded : files.Grounded :=
    ⟨List.forall_mem_singleton.2 (by decide), fun n lt => ⟨⟨0, 0⟩, by rw [Nat.lt_one_iff.1 lt]; rfl⟩⟩
  obtain ⟨-, -, joined, -⟩ := canonical_normal name
  obtain ⟨-, -, -, spelled⟩ := canonical_normal "/../w//x/.././a"
  exact ⟨noNul, rfl, rfl, joined noNul rfl _, grounded, rfl, rfl, spelled s files 0 rfl grounded "x/../a" found rfl rfl⟩

end FileName

end Stencil
