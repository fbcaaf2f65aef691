import Stencil.Proofs.Expr.Effect
import Stencil.Stream.Step

/-!
# Fuel of steps

A step with more fuel for its expressions is the same step, unless the first one fails for want of
fuel (`Stream.step_upTo`).
-/

namespace Stencil

namespace Advance

/-- The step has failed for want of fuel. -/
def Lacks (a : Advance) : Prop := ∃ u s, a = .fail .outOfFuel u s

theorem lacks_fail (u : Stream) (s : Store) : (fail .outOfFuel u s).Lacks := ⟨u, s, rfl⟩

/-- The first step lacks fuel, or the second one is the same. -/
def UpTo (a b : Advance) : Prop := a.Lacks ∨ b = a

theorem UpTo.refl (a : Advance) : UpTo a a := .inr rfl

/-- What is made of a step goes on lacking fuel. -/
theorem UpTo.map {a b : Advance} (h : UpTo a b) (f : Advance → Advance)
    (lacks : ∀ u s, (f (.fail .outOfFuel u s)).Lacks) : UpTo (f a) (f b) := by
  rcases h with ⟨u, s, rfl⟩ | rfl
  · exact .inl (lacks u s)
  · exact .refl _

end Advance

open Advance

namespace Stream

variable {k k' : Nat} {u : Stream} {s : Store}

/-- An expression lacks fuel, or its value is the one it has with more of it. -/
theorem eval_upTo (le : k ≤ k') (e : Expression) (s : Store) :
    e.eval k s = .error .outOfFuel ∨ e.eval k' s = e.eval k s := by
  by_cases enough : e.eval k s = .error .outOfFuel
  · exact .inl enough
  · exact .inr (Expression.eval_of_le le enough)

theorem test_upTo (le : k ≤ k') (wanted : Bool) (e : Expression) (rest : List Directive) :
    UpTo (test k wanted e rest u s) (test k' wanted e rest u s) := by
  unfold test
  rcases eval_upTo le e s with lacks | same
  · rw [lacks]
    exact .inl (lacks_fail _ _)
  · rw [same]
    exact .refl _

theorem applyDirective_upTo (le : k ≤ k') (d : Directive) (rest : List Directive) :
    UpTo (applyDirective k d rest u s) (applyDirective k' d rest u s) := by
  unfold applyDirective
  split
  case h_2 | h_7 => exact test_upTo le _ _ rest
  all_goals exact .refl _

theorem startLoop_upTo (le : k ≤ k') (targets : List Text) (items : Expression) :
    UpTo (startLoop k targets items u s) (startLoop k' targets items u s) := by
  unfold startLoop
  rcases eval_upTo le items s with lacks | same
  · rw [lacks]
    exact .inl (lacks_fail _ _)
  · rw [same]
    exact .refl _

theorem mergeInto_upTo (le : k ≤ k') (e : Expression) (first : Event) :
    UpTo (mergeInto k e first u s) (mergeInto k' e first u s) := by
  unfold mergeInto
  rcases eval_upTo le e s with lacks | same
  · split
    · rw [lacks]
      exact .inl (lacks_fail _ _)
    · exact .refl _
  · rw [same]
    exact .refl _

theorem testStrip_upTo (le : k ≤ k') (test : Option Expression) :
    UpTo (testStrip k test u s) (testStrip k' test u s) := by
  cases test with
  | none => exact .refl _
  | some e =>
    unfold testStrip
    rcases eval_upTo le e s with lacks | same
    · simp only [lacks]
      exact .inl (lacks_fail _ _)
    · simp only [same]
      exact .refl _

theorem evaluateEvent_upTo (le : k ≤ k') (e : Event) : UpTo (evaluateEvent k e u s) (evaluateEvent k' e u s) := by
  unfold evaluateEvent
  split
  · rename_i p name as
    by_cases enough : Attributes.eval k as s = .error .outOfFuel
    · rw [enough]
      exact .inl (lacks_fail _ _)
    · rw [Attributes.eval_of_le le enough]
      exact .refl _
  · rename_i p x
    rcases eval_upTo le x s with lacks | same
    · rw [lacks]
      exact .inl (lacks_fail _ _)
    · rw [same]
      exact .refl _
  · exact .refl _

/-- More fuel changes no step but one that lacks it. -/
theorem step_upTo (le : k ≤ k') (u : Stream) (s : Store) : UpTo (step k u s) (step k' u s) := by
  induction u generalizing s with
  | replay | shared | ended | looping => exact .refl _
  | append first rest ih | replaced e u ih | gathering targets items body u ih =>
    simp only [step]
    rcases ih s with ⟨v, t, lacks⟩ | same
    · rw [lacks]
      exact .inl (lacks_fail _ _)
    · rw [same]
      exact .refl _
  | loop targets items u => exact startLoop_upTo le targets items
  | attributes e u ih =>
    simp only [step]
    rcases ih s with ⟨v, t, lacks⟩ | same
    · rw [lacks]
      exact .inl (lacks_fail _ _)
    · rw [same]
      split
      · exact mergeInto_upTo le e _
      · exact .refl _
      · exact .refl _
  | content e phase u ih =>
    cases phase with
    | expression p => exact .refl _
    | start | last => exact (ih s).map (stepContent e _) fun _ _ => lacks_fail _ _
  | strip test phase u ih =>
    cases phase with
    | untested => exact testStrip_upTo le test
    | first | second | holding => exact (ih s).map (stepStrip test _) fun _ _ => lacks_fail _ _
  | directed directives read u ih =>
    cases directives with
    | nil => exact .refl _
    | cons d rest =>
      simp only [step]
      split
      · rcases ih s with ⟨v, t, lacks⟩ | same
        · rw [lacks]
          exact .inl (lacks_fail _ _)
        · rw [same]
          exact .refl _
      · exact applyDirective_upTo le d rest
  | evaluated u ih =>
    simp only [step]
    rcases ih s with ⟨v, t, lacks⟩ | same
    · rw [lacks]
      exact .inl (lacks_fail _ _)
    · rw [same]
      split
      · exact evaluateEvent_upTo le _
      · exact .refl _
      · exact .refl _
  | tidied pending? text? u ih =>
    cases pending? with
    | some e => exact .refl _
    | none => exact (ih s).map (stepTidied text?) fun _ _ => lacks_fail _ _
  | substituted path body openElements u ih =>
    exact (ih s).map (stepSubstituted path body openElements) fun _ _ => lacks_fail _ _
  | matching path body openElements p depth matched u ih =>
    exact (ih s).map (stepMatching path body openElements p depth matched) fun _ _ => lacks_fail _ _
  | included filename prefixes u ih => exact (ih s).map (stepIncluded filename prefixes) fun _ _ => lacks_fail _ _
  | including filename prefixes i u ih =>
    exact (ih s).map (stepIncluding filename prefixes i) fun _ _ => lacks_fail _ _
  | inserting filename prefixes indentation inserted u ih =>
    exact (ih s).map (stepInserting filename prefixes indentation u) fun _ _ => lacks_fail _ _
  | expanded t last u ih => exact (ih s).map (stepExpanded t last) fun _ _ => lacks_fail _ _

end Stream

end Stencil
