import Stencil.Proofs.Stream.Substitution
import Stencil.Proofs.Template.History

/-!
# Elements with a condition

An element whose condition holds is expanded as if it had none, and one whose condition does not hold as if it
were not there, but for one thing: the filters it goes through are new ones, which have seen nothing of what is
around it (`Stream.run_expanded_condition`). So a match template whose path names a parent is not applied to it
(`Template.condition_hides_parents`).
-/

namespace Stencil

namespace Stream

variable {k : Nat} {u v : Stream} {s r : Store}

/-- Skipped steps are skipped by filters that have read nothing. -/
theorem Run.filtered_silent (fs : List Filter) (h : Run k u s [] v r) :
    Run k (u.filtered fs) s [] (v.filtered fs) r := by
  induction fs generalizing u v with
  | nil => exact h
  | cons f fs ih =>
    refine @ih (f.apply u) (f.apply v) ?_
    cases f with
    | evaluate => exact h.through .evaluated
    | tidy => exact h.through (.tidied none)
    | substitute path body => exact h.substituted_silent
    | inclusion filename => exact h.through (.included filename [])

/-- Filters add nothing to a stream that is at its end. -/
theorem done_filtered (fs : List Filter) (h : step k u s = .done v s) (inert : Inert v) :
    ∃ w, step k (u.filtered fs) s = .done w s ∧ Inert w := by
  induction fs generalizing u v with
  | nil => exact ⟨v, h, inert⟩
  | cons f fs ih =>
    obtain ⟨w, ends, inert⟩ : ∃ w, step k (f.apply u) s = .done w s ∧ Inert w := by
      cases f with
      | evaluate => exact ⟨.empty, by simp [Filter.apply, step, h, inert s], fun _ => rfl⟩
      | tidy => exact ⟨.tidied none none v, by simp [Filter.apply, step, stepTidied, h], inert⟩
      | substitute path body =>
        exact ⟨.substituted path body [] v, by simp [Filter.apply, step, stepSubstituted, h, Advance.map], inert⟩
      | inclusion filename =>
        exact ⟨.included filename [] v, by simp [Filter.apply, step, stepIncluded, h, Advance.map], inert⟩
    exact ih ends inert

/-- A condition keeps its element or drops it. -/
theorem run_condition {x : Expression} {w : Value} (value : x.eval k s = .ok (w, r)) (es : List Event) :
    Run k (.directed [.condition x] [] (.ofEvents es)) s [] (if w.isTrue then .ofEvents es else .empty) r := by
  have tests : step k (.directed [.condition x] [] (.ofEvents es)) s = test k true x [] (.ofEvents es) s := rfl
  unfold test at tests
  rw [value] at tests
  by_cases truth : w.isTrue = true
  · rw [if_pos truth]
    exact .skip (tests.trans (if_pos truth)) (.silent rfl)
  · rw [if_neg truth]
    exact .skip (tests.trans (if_neg truth)) (.silent rfl)

/-- **An element with a condition is expanded as a document of its own, or not at all.** The filters that the
events of the element then go through are as they are at the start of the template. -/
theorem run_expanded_condition {t : Template} {last p : Position} {x : Expression} {es : List Event} {w : Value}
    {s' : Store} (yields : step k u s = .yield (.sub p [.condition x] es) v s') (value : x.eval k s' = .ok (w, r)) :
    Run k (.expanded t last u) s []
      (.expanded t p (if w.isTrue then .append ((ofEvents es).filtered t.expansionFilters) v else v)) r := by
  have opens : step k (.expanded t last u) s =
      .skip (.expanded t p (.append ((directed [.condition x] [] (.ofEvents es)).filtered t.expansionFilters) v)) s' := by
    simp [step, yields, stepExpanded]
  have decided := (run_condition value es).filtered_silent t.expansionFilters
  have inner : Run k (.expanded t p (.append ((directed [.condition x] [] (.ofEvents es)).filtered t.expansionFilters) v)) s'
      [] (.expanded t p (.append ((if w.isTrue then ofEvents es else empty).filtered t.expansionFilters) v)) r :=
    (decided.through (.append v)).through (.expanded t p)
  refine .skip opens (inner.trans ?_ : Run k _ _ ([] ++ []) _ _)
  by_cases truth : w.isTrue = true
  · simp only [truth, if_true]
    exact .refl _ _
  · simp only [truth]
    -- nothing comes out of the element, so the rest of the stream comes next
    obtain ⟨v', ends, inert⟩ := done_filtered (k := k) (s := r) t.expansionFilters
      (show step k empty r = .done empty r from rfl) fun _ => rfl
    refine .silent ?_
    simp [step, stepExpanded, ends, inert r]

end Stream

namespace Template

/-- A match template for an element in another one. -/
def parentDocument (directives : List (Text × Text)) : List Callback :=
  [startOf "a" [], startOf "b" [("match", "a/e")], characters "M", endOf "b", startOf "e" directives, endOf "e", endOf "a"]

/-- With a condition that holds, the element is no longer found in the other one. -/
theorem condition_hides_parents :
    let s := firstStore.against [("n", .int 2)]
    ∃ t t', (Compilation.ofDocument ⟨0, "t.xml", .empty⟩ (parentDocument [])).result = .ok t ∧
      (Compilation.ofDocument ⟨0, "t.xml", .empty⟩ (parentDocument [("if", "True")])).result = .ok t' ∧
      (t.render 60 s).1.toOption = some "<a><b>M</b></a>" ∧ (t'.render 60 s).1.toOption = some "<a><e/></a>" :=
  ⟨_, _, rfl, rfl, by decide +kernel, by decide +kernel⟩

end Template

end Stencil
