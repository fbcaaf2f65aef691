import Mathlib.Data.List.Basic

/-!
# Brackets that match

In a list some members open a bracket and some close one. If no bracket is closed that is not open, and none
stays open (`bracketDepth`), then the list has the shape of a forest (`Bracketed.of_depth`).
-/

namespace Stencil

variable {α : Type} {opens closes : α → Bool}

/-- The number of open brackets after a member of a list; one that closes needs an open one. -/
def bracketDepth (opens closes : α → Bool) (depth : Nat) (a : α) : Option Nat :=
  if opens a then some (depth + 1)
  else if closes a then (if depth = 0 then none else some (depth - 1))
  else some depth

/-- The shape of a forest: brackets around a forest and members that are no brackets, one after another. -/
inductive Bracketed (opens closes : α → Bool) : List α → Prop
  | nil : Bracketed opens closes []
  | leaf {a : α} {as : List α} (noOpen : opens a = false) (noClose : closes a = false)
    (rest : Bracketed opens closes as) : Bracketed opens closes (a :: as)
  | pair {a b : α} {inner as : List α} (opened : opens a = true) (closed : closes b = true)
    (inside : Bracketed opens closes inner) (rest : Bracketed opens closes as) :
    Bracketed opens closes (a :: (inner ++ b :: as))

namespace Bracketed

/-- What comes before the bracket that closes the innermost open one is a forest. -/
theorem before_close (as : List α) (d : Nat) (h : as.foldlM (bracketDepth opens closes) d = some 0) :
    (d = 0 ∧ Bracketed opens closes as) ∨
      ∃ before b rest, as = before ++ b :: rest ∧ closes b = true ∧ Bracketed opens closes before ∧ d ≠ 0 ∧
        rest.foldlM (bracketDepth opens closes) (d - 1) = some 0 := by
  induction hn : as.length using Nat.strongRecOn generalizing as d with
  | ind n ih =>
    subst hn
    cases as with
    | nil =>
      simp only [List.foldlM_nil, Option.pure_def, Option.some.injEq] at h
      exact .inl ⟨h, nil⟩
    | cons a as =>
      simp only [List.foldlM_cons, bracketDepth, Option.bind_eq_bind] at h
      by_cases opened : opens a = true
      · simp only [opened, if_true, Option.bind_some] at h
        -- the bracket ends where what is inside does; what follows is shorter
        obtain ⟨h0, -⟩ | ⟨inner, b, rest, rfl, closed, inside, -, hrest⟩ := ih as.length (by simp) as (d + 1) h rfl
        · omega
        obtain ⟨h0, after⟩ | ⟨before, c, rest', rfl, closed', after, h0, hrest'⟩ :=
          ih rest.length (by simp only [List.length_cons, List.length_append]; omega) rest d hrest rfl
        · exact .inl ⟨h0, pair opened closed inside after⟩
        · exact .inr ⟨a :: (inner ++ b :: before), c, rest', by simp, closed', pair opened closed inside after, h0,
            hrest'⟩
      · by_cases closed : closes a = true
        · by_cases h0 : d = 0
          · simp [opened, closed, h0] at h
          · simp only [opened, closed, h0, if_true, if_false] at h
            exact .inr ⟨[], a, as, rfl, closed, nil, h0, h⟩
        · simp only [opened, closed, Bool.false_eq_true, if_false, Option.bind_some] at h
          simp only [Bool.not_eq_true] at opened closed
          obtain ⟨h0, after⟩ | ⟨before, b, rest, rfl, closed', after, h0, hrest⟩ := ih as.length (by simp) as d h rfl
          · exact .inl ⟨h0, leaf opened closed after⟩
          · exact .inr ⟨a :: before, b, rest, by simp, closed', leaf opened closed after, h0, hrest⟩

/-- A list in which no bracket is left over has the shape of a forest. -/
theorem of_depth {as : List α} (h : as.foldlM (bracketDepth opens closes) 0 = some 0) : Bracketed opens closes as := by
  obtain ⟨-, bracketed⟩ | ⟨before, b, rest, -, -, -, h0, -⟩ := before_close as 0 h
  · exact bracketed
  · exact absurd rfl h0

end Bracketed

end Stencil
