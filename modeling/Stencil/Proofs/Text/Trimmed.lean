import Mathlib.Data.List.DropRight
import Mathlib.Data.List.Induction
import Stencil.Text.Basic

/-!
# Trimmed texts

A text stays as it is when it is trimmed if neither its first nor its last byte is one to be dropped
(`Text.trim_of_ends`). What is put around such a text is trimmed from it (`Text.trim_around`).
-/

namespace Stencil

namespace Text

variable {drop : Byte → Bool} {s t u : Text}

theorem trimRight_concat (t : Text) (c : Byte) :
    trimRight drop (t ++ [c]) = if drop c then trimRight drop t else t ++ [c] := by
  unfold trimRight
  rw [List.reverse_append, List.reverse_singleton, List.singleton_append, List.dropWhile_cons]
  split
  · rfl
  · rw [List.reverse_cons, List.reverse_reverse]

theorem trimRight_of_last (last : ∀ c ∈ t.getLast?, drop c = false) : trimRight drop t = t := by
  rcases t.eq_nil_or_concat with rfl | ⟨r, c, rfl⟩
  · rfl
  · have stays : drop c = false := last c (by simp)
    rw [List.concat_eq_append, trimRight_concat, stays]
    rfl

theorem trimLeft_of_first (first : ∀ c ∈ t.head?, drop c = false) : trimLeft drop t = t := by
  cases t with
  | nil => rfl
  | cons c r =>
    have stays : drop c = false := first c rfl
    simp [trimLeft, stays]

/-- Nothing is trimmed from a text whose ends stay. -/
theorem trim_of_ends (first : ∀ c ∈ t.head?, drop c = false) (last : ∀ c ∈ t.getLast?, drop c = false) :
    trim drop t = t := by
  rw [trim, trimRight_of_last last, trimLeft_of_first first]

theorem trimRight_append (s : Text) (dropped : ∀ c ∈ u, drop c = true) : trimRight drop (s ++ u) = trimRight drop s := by
  unfold trimRight
  rw [List.reverse_append, List.dropWhile_append_of_pos]
  exact fun c hc => dropped c (List.mem_reverse.1 hc)

theorem getLast?_trimRight (t : Text) : ∀ c ∈ (trimRight drop t).getLast?, drop c = false := by
  rw [trimRight, List.getLast?_reverse]
  intro c first
  have stays := List.head?_dropWhile_not drop t.reverse
  rw [first] at stays
  exact stays

theorem trimRight_append_of_last (last : ∀ c ∈ s.getLast?, drop c = false) (t : Text) :
    trimRight drop (s ++ t) = s ++ trimRight drop t := by
  induction t using List.reverseRecOn with
  | nil => rw [List.append_nil, trimRight_of_last last]; exact (List.append_nil s).symm
  | append_singleton t c ih =>
    rw [← List.append_assoc, trimRight_concat, trimRight_concat]
    split
    · exact ih
    · exact List.append_assoc ..

/-- What is around a text whose ends stay is trimmed from it. -/
theorem trim_around (before : ∀ c ∈ s, drop c = true) (first : ∀ c ∈ t.head?, drop c = false)
    (last : ∀ c ∈ t.getLast?, drop c = false) (after : ∀ c ∈ u, drop c = true) : trim drop (s ++ t ++ u) = t := by
  rw [trim, trimRight_append _ after]
  rcases t.eq_nil_or_concat with rfl | ⟨r, c, same⟩
  · rw [List.append_nil, ← List.nil_append s, trimRight_append [] before]
    rfl
  · have ends : (s ++ t).getLast? = t.getLast? := by
      rw [same, List.concat_eq_append, ← List.append_assoc, List.getLast?_concat, List.getLast?_concat]
    rw [trimRight_of_last (ends ▸ last), trimLeft, List.dropWhile_append_of_pos before]
    exact trimLeft_of_first first

theorem trimWhite_of_black {s : Text} (black : ∀ c ∈ s, c.isWhite = false) : trimWhite s = s :=
  trim_of_ends (fun c first => black c (List.mem_of_mem_head? first)) fun c last => black c (List.mem_of_mem_getLast? last)

theorem trimWhite_trimWhite (s : Text) : trimWhite (trimWhite s) = trimWhite s := by
  have right : trimRight Byte.isWhite (trimWhite s) = trimWhite s := by
    refine List.rdropWhile_eq_self_iff.2 fun some => ?_
    have suffix : trimWhite s <:+ List.rdropWhile Byte.isWhite s := List.dropWhile_suffix _
    have whole : List.rdropWhile Byte.isWhite s ≠ [] := fun empty => some (List.suffix_nil.1 (empty ▸ suffix))
    rw [suffix.getLast some]
    exact List.rdropWhile_last_not _ _ whole
  rw [trimWhite, trim, right]
  exact List.dropWhile_idempotent ..

end Text

end Stencil
