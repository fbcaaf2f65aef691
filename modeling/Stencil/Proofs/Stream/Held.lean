import Stencil.Proofs.Stream.Scope

/-!
# Which streams variables hold

`Store.held` lists the streams that can be reached from the variables of a context, through the streams of
calls that have not begun (`Store.Holds`). It looks at each stream once, which finds all of them as a call is
only passed streams that were made before its own (`Store.mem_held_iff`).
-/

namespace Stencil

namespace Store

/-- A variable holds the stream, or it was passed to a call that has not begun and whose stream is held. -/
inductive Holds (s : Store) : Nat → Prop
  | bound {id : Nat} (bound : id ∈ s.context.streams) : Holds s id
  | passed {n id : Nat} (outer : Holds s n) (passed : id ∈ (s.replay n).streams) : Holds s id

variable {s : Store} {n id : Nat} {ids : List Nat}

theorem holds_of_mem_heldBelow (h : ∀ id ∈ ids, s.Holds id) (member : id ∈ s.heldBelow n ids) : s.Holds id := by
  induction n generalizing ids with
  | zero => exact h id member
  | succ n ih =>
    refine ih (fun j hj => ?_) member
    split at hj
    · rename_i there
      rcases List.mem_append.1 hj with hj | hj
      · exact .passed (h n (List.contains_iff_mem.1 there)) hj
      · exact h j hj
    · exact h j hj

theorem holds_of_mem_held (member : id ∈ s.held) : s.Holds id := holds_of_mem_heldBelow (fun _ => .bound) member

theorem subset_heldBelow (s : Store) (n : Nat) (ids : List Nat) : ids ⊆ s.heldBelow n ids := by
  induction n generalizing ids with
  | zero => exact List.Subset.refl ids
  | succ n ih =>
    refine List.Subset.trans ?_ (ih _)
    split
    · exact List.subset_append_right _ _
    · exact List.Subset.refl ids

section

variable (older : ∀ n, ∀ id ∈ (s.replay n).streams, id < n)
include older

/-- The streams that are added are older than those that were to be looked at. -/
theorem mem_or_lt_of_mem_heldBelow (member : id ∈ s.heldBelow n ids) : id ∈ ids ∨ id < n := by
  induction n generalizing ids with
  | zero => exact .inl member
  | succ n ih =>
    rcases ih member with first | first
    · split at first
      · rcases List.mem_append.1 first with passed | known
        · exact .inr (Nat.lt_succ_of_lt (older n id passed))
        · exact .inl known
      · exact .inl first
    · exact .inr (Nat.lt_succ_of_lt first)

/-- What the streams that were looked at have been passed is there too. -/
theorem streams_subset_heldBelow {m : Nat} (less : m < n) (member : m ∈ s.heldBelow n ids) :
    (s.replay m).streams ⊆ s.heldBelow n ids := by
  induction n generalizing ids with
  | zero => omega
  | succ n ih =>
    by_cases last : m = n
    · subst last
      have known : m ∈ ids := by
        rcases mem_or_lt_of_mem_heldBelow (n := m) older member with known | less
        · split at known
          · exact (List.mem_append.1 known).resolve_left fun passed => absurd (older m m passed) (Nat.lt_irrefl m)
          · exact known
        · omega
      refine List.Subset.trans ?_ (subset_heldBelow s m _)
      rw [if_pos (List.contains_iff_mem.2 known)]
      exact List.subset_append_left _ _
    · exact ih (by omega) member

/-- **All streams that variables hold are found.** -/
theorem mem_held_iff : id ∈ s.held ↔ s.Holds id := by
  refine ⟨holds_of_mem_held, fun held => ?_⟩
  induction held with
  | bound bound => exact subset_heldBelow s _ _ bound
  | @passed n id _ passed ih =>
    by_cases there : n < s.replays.size
    · exact streams_subset_heldBelow older there ih passed
    · rw [replay_absent there] at passed
      cases passed

end

end Store

end Stencil
