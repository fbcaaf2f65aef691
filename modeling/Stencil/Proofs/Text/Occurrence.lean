import Mathlib.Data.List.Infix
import Stencil.Text.Basic

/-!
# The first occurrence of a text

What stands before the first occurrence of a text is skipped as long as the text does not start anywhere in it
(`Text.indexOf?_skip`).
-/

namespace Stencil

namespace Text

variable {needle s u : Text} {c : Byte} {n : Nat}

theorem indexOf?_eq_zero_iff : indexOf? needle s = some 0 ↔ needle <+: s := by
  cases s with
  | nil => simp [indexOf?]
  | cons c s =>
    rw [indexOf?]
    split
    · rename_i here
      exact iff_of_true rfl (List.isPrefixOf_iff_prefix.1 here)
    · rename_i elsewhere
      refine iff_of_false ?_ (mt List.isPrefixOf_iff_prefix.2 elsewhere)
      rw [Option.map_eq_some_iff]
      rintro ⟨n, -, absurd⟩
      exact Nat.succ_ne_zero n absurd

theorem length_of_indexOf? (h : indexOf? needle s = some n) : n + needle.length ≤ s.length := by
  induction s generalizing n with
  | nil =>
    rw [indexOf?] at h
    split at h
    · rename_i empty
      cases h
      simp [List.isEmpty_iff.1 empty]
    · cases h
  | cons c s ih =>
    rw [indexOf?] at h
    split at h
    · rename_i here
      cases h
      simpa using (List.isPrefixOf_iff_prefix.1 here).length_le
    · obtain ⟨m, later, rfl⟩ := Option.map_eq_some_iff.1 h
      have inside := ih later
      rw [List.length_cons]
      omega

/-- Nothing is found before a place up to which the text does not start. -/
theorem indexOf?_skip (h : ∀ before behind, u = before ++ behind → behind ≠ [] → ¬ needle <+: behind ++ s) :
    indexOf? needle (u ++ s) = (indexOf? needle s).map (· + u.length) := by
  induction u with
  | nil => simp
  | cons c u ih =>
    have here : ¬ needle <+: c :: (u ++ s) := h [] (c :: u) rfl (by simp)
    have later := ih fun before behind same some => h (c :: before) behind (by rw [same, List.cons_append]) some
    rw [List.cons_append, indexOf?, if_neg (by rwa [List.isPrefixOf_iff_prefix]), later, Option.map_map]
    congr 1

/-- Bytes that the text does not start with are skipped. -/
theorem indexOf?_skip_of_not_mem (h : c ∉ u) : indexOf? (c :: needle) (u ++ s) = (indexOf? (c :: needle) s).map (· + u.length) := by
  refine indexOf?_skip fun before behind same some starts => ?_
  obtain ⟨d, behind, rfl⟩ := List.exists_cons_of_ne_nil some
  obtain ⟨rfl, -⟩ := List.cons_prefix_cons.1 starts
  exact h (by simp [same])

theorem indexOf?_byte (h : c ∉ s) (t : Text) : indexOf? [c] (s ++ c :: t) = some s.length := by
  have found : indexOf? [c] (c :: t) = some 0 := indexOf?_eq_zero_iff.2 ⟨t, rfl⟩
  rw [indexOf?_skip_of_not_mem h, found, Option.map_some, Nat.zero_add]

theorem exists_of_indexOf?_byte (h : indexOf? [c] s = some n) : ∃ u t, s = u ++ c :: t ∧ u.length = n ∧ c ∉ u := by
  induction s generalizing n with
  | nil => cases h
  | cons d s ih =>
    rw [indexOf?] at h
    split at h
    · rename_i here
      cases h
      obtain ⟨rfl, -⟩ := List.cons_prefix_cons.1 (List.isPrefixOf_iff_prefix.1 here)
      exact ⟨[], s, rfl, rfl, List.not_mem_nil⟩
    · rename_i elsewhere
      obtain ⟨m, later, rfl⟩ := Option.map_eq_some_iff.1 h
      obtain ⟨u, t, rfl, rfl, bare⟩ := ih later
      have other : c ≠ d := by
        rintro rfl
        exact elsewhere (by simp [List.isPrefixOf])
      exact ⟨d :: u, t, rfl, rfl, by simp [other, bare]⟩

end Text

end Stencil
