import Mathlib.Data.List.Basic
import Stencil.Text.Basic

/-!
# Pieces of texts

A text is cut into pieces at each occurrence of a byte (`Text.pieces_append`, `Text.pieces_whole`), joined from
pieces, and cut off at its first NUL.
-/

namespace Stencil

namespace Text

variable {d : Byte} {s t : Text}

theorem pieces_ne_nil (d : Byte) (s : Text) : pieces d s ≠ [] := by
  cases s with
  | nil => simp [pieces]
  | cons c s =>
    rw [pieces]
    split
    · simp
    · split <;> simp

theorem pieces_append (d : Byte) (s t : Text) : pieces d (s ++ d :: t) = pieces d s ++ pieces d t := by
  induction s with
  | nil => simp [pieces]
  | cons c s ih =>
    rw [List.cons_append, pieces, pieces]
    split
    · rw [ih, List.cons_append]
    · rw [ih]
      cases first : pieces d s with
      | nil => exact absurd first (pieces_ne_nil d s)
      | cons p ps => rfl

theorem pieces_whole (h : d ∉ s) : pieces d s = [s] := by
  induction s with
  | nil => rfl
  | cons c s ih =>
    obtain ⟨other, rest⟩ := not_or.1 (mt List.mem_cons.2 h)
    have differs : (c == d) = false := by simpa using Ne.symm other
    rw [pieces, differs, ih rest]
    rfl

theorem not_mem_pieces {p : Text} (h : p ∈ pieces d s) : d ∉ p := by
  induction s generalizing p with
  | nil =>
    rw [List.mem_singleton.1 h]
    exact List.not_mem_nil
  | cons c s ih =>
    rw [pieces] at h
    split at h
    · rcases List.mem_cons.1 h with rfl | h
      · exact List.not_mem_nil
      · exact ih h
    · rename_i differs
      have other : d ≠ c := fun same => differs (by simp [same])
      split at h
      · rw [List.mem_singleton.1 h]
        simpa using other
      · rename_i first ps cut
        rw [cut] at ih
        rcases List.mem_cons.1 h with rfl | h
        · exact List.not_mem_cons_of_ne_of_not_mem other (ih (by simp))
        · exact ih (by simp [h])

theorem mem_of_mem_pieces {p : Text} (h : p ∈ pieces d s) {c : Byte} (hc : c ∈ p) : c ∈ s := by
  induction s generalizing p with
  | nil =>
    rw [List.mem_singleton.1 h] at hc
    exact hc
  | cons b s ih =>
    rw [pieces] at h
    split at h
    · rcases List.mem_cons.1 h with rfl | h
      · exact absurd hc List.not_mem_nil
      · exact List.mem_cons_of_mem b (ih h hc)
    · split at h
      · rw [List.mem_singleton.1 h, List.mem_singleton] at hc
        exact hc ▸ List.mem_cons_self
      · rename_i first ps cut
        rw [cut] at ih
        rcases List.mem_cons.1 h with rfl | h
        · rcases List.mem_cons.1 hc with rfl | hc
          · exact List.mem_cons_self
          · exact List.mem_cons_of_mem b (ih List.mem_cons_self hc)
        · exact List.mem_cons_of_mem b (ih (List.mem_cons_of_mem _ h) hc)

theorem join_singleton (separator p : Text) : join separator [p] = p := by
  simp [join]

theorem join_cons_cons (separator p q : Text) (ps : List Text) :
    join separator (p :: q :: ps) = p ++ (separator ++ join separator (q :: ps)) := by
  simp [join, List.intercalate, List.intersperse]

/-- Pieces joined by the byte that they do not hold are cut apart there again. -/
theorem pieces_join {ps : List Text} (h : ∀ p ∈ ps, d ∉ p) (some : ps ≠ []) : pieces d (join [d] ps) = ps := by
  induction ps with
  | nil => exact absurd rfl some
  | cons p ps ih =>
    obtain ⟨first, others⟩ := List.forall_mem_cons.1 h
    cases ps with
    | nil => rw [join_singleton, pieces_whole first]
    | cons q ps =>
      rw [join_cons_cons, List.singleton_append, pieces_append, pieces_whole first, ih others (by simp)]
      rfl

theorem join_pieces (d : Byte) (s : Text) : join [d] (pieces d s) = s := by
  induction s with
  | nil => rfl
  | cons c s ih =>
    obtain ⟨p, ps, cut⟩ := List.exists_cons_of_ne_nil (pieces_ne_nil d s)
    rw [cut] at ih
    rw [pieces, cut]
    split
    · rename_i same
      rw [join_cons_cons, ih, eq_of_beq same]
      rfl
    · cases ps with
      | nil =>
        rw [join_singleton] at ih ⊢
        rw [ih]
      | cons q ps =>
        rw [join_cons_cons] at ih ⊢
        rw [List.cons_append, ih]

theorem split_of_ne_nil (some : s ≠ []) : split d false s = pieces d s := by
  rw [split, if_neg (by simpa using some)]
  rfl

theorem split_eq_nil_iff : split d false s = [] ↔ s = [] := by
  by_cases none : s = []
  · rw [none]
    exact iff_of_true rfl rfl
  · rw [split_of_ne_nil none]
    exact iff_of_false (pieces_ne_nil d s) none

/-- Pieces that were joined are found again, unless there is a single one and nothing in it. -/
theorem split_join {ps : List Text} (h : ∀ p ∈ ps, d ∉ p) (filled : [] ∉ ps) : split d false (join [d] ps) = ps := by
  by_cases none : ps = []
  · rw [none]
    rfl
  · have cut := pieces_join h none
    have some : join [d] ps ≠ [] := by
      intro empty
      rw [empty] at cut
      exact filled (cut ▸ List.mem_singleton_self [])
    rw [split_of_ne_nil some, cut]

theorem mem_pieces_of_mem_split {p : Text} (h : p ∈ split d false s) : p ∈ pieces d s := by
  by_cases none : s = []
  · rw [none] at h
    cases h
  · rwa [split_of_ne_nil none] at h

theorem not_mem_join {separator : Text} {c : Byte} {ps : List Text} (outside : c ∉ separator) (h : ∀ p ∈ ps, c ∉ p) :
    c ∉ join separator ps := by
  induction ps with
  | nil => exact List.not_mem_nil
  | cons p ps ih =>
    obtain ⟨first, others⟩ := List.forall_mem_cons.1 h
    cases ps with
    | nil => rwa [join_singleton]
    | cons q ps =>
      rw [join_cons_cons]
      simp only [List.mem_append, not_or]
      exact ⟨first, outside, ih others⟩

theorem untilNul_eq (h : 0 ∉ s) (t : Text) : untilNul (s ++ t) = s ++ untilNul t := by
  rw [untilNul, List.takeWhile_append_of_pos]
  · rfl
  · intro c hc
    have other : c ≠ 0 := fun zero => h (zero ▸ hc)
    simpa using other

theorem untilNul_whole (h : 0 ∉ s) : untilNul s = s := by
  simpa [untilNul] using untilNul_eq h []

theorem nul_not_mem_untilNul (s : Text) : 0 ∉ untilNul s := by
  intro member
  have passes := List.all_eq_true.1 (List.all_takeWhile (p := fun c : Byte => c != 0) (l := s)) 0 member
  simp at passes

end Text

end Stencil
