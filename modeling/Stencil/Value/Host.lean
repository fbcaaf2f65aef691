import Stencil.Value.Operations
import Stencil.Value.Parts

/-!
# Functions of the host

A host can bind functions of its own, which are code outside of any template. Of that code it is only known
that it computes with values: what it answers is made of its arguments, with no functions or streams of its
own, and does not depend on which number a stream has.
-/

namespace Stencil

/-- Arguments by position, and by keyword sorted by name. -/
structure Arguments where
  positional : List Value
  keywords : List (Text × Value)

namespace Arguments

/-- The arguments are made from a stock. -/
structure From (k : Stock) (a : Arguments) : Prop where
  positional : ∀ v ∈ a.positional, v.From k
  keywords : Entries.From k a.keywords

/-- Arguments with other numbers for their streams. -/
def rename (ρ : Nat → Nat) (a : Arguments) : Arguments :=
  ⟨a.positional.map (Value.rename ρ), Entries.rename ρ a.keywords⟩

end Arguments

/-- The code of a host's functions: what each of them answers, or the message of its error. -/
structure Host where
  answer (number : Nat) (a : Arguments) : Except Text Value
  made : ∀ {k : Stock} {number : Nat} {a : Arguments} {v : Value}, answer number a = .ok v → a.From k → v.From k
  renamed : ∀ {ρ : Nat → Nat} (number : Nat) (a : Arguments), ρ.Injective →
    answer number (a.rename ρ) = (answer number a).map (Value.rename ρ)

namespace Host

/-- A host without functions. -/
def empty : Host where
  answer _ _ := .ok .none
  made := by
    rintro k number a v ⟨⟩ -
    trivial
  renamed _ _ _ := rfl

/-- Calls a function of the host. -/
def call (h : Host) (number : Nat) (a : Arguments) : Value.Result Value := (h.answer number a).mapError .host

end Host

end Stencil
