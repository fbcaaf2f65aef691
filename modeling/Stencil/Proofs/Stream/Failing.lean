import Stencil.Proofs.Stream.Run
import Stencil.Proofs.Stream.ScopedStep

/-!
# Where failures are located

A step may fail because the expressions of an event can't be computed (`Stream.failure?`). The evaluation of the event
gives the failure the position of the event, and the innermost expansion around it the name of a file. So each failure
of an expansion is located, at the place of its event in the file of the template that is expanded
(`Stream.step_of_failure`).
-/

namespace Stencil

/-! ## Located failures -/

namespace Stop

/-- The failure is none of an expression, or it has been located in a file. -/
def Located : Stop → Prop
  | .fault (.badSyntax ..) | .fault (.badEvaluation ..) => False
  | _ => True

theorem located_locate (why : Stop) (file : Text) (last : Position) : (why.locate file last).Located := by
  cases why with
  | outOfFuel => trivial
  | fault f => cases f <;> trivial

/-- What has been located stays there. -/
@[simp] theorem locate_locate (why : Stop) (file file' : Text) (p q : Position) :
    (why.locate file p).locate file' q = why.locate file p := by
  cases why with
  | outOfFuel => rfl
  | fault f => cases f <;> rfl

/-- A failure with a position is located there, wherever the expansion has come to. -/
theorem locate_placedAt (why : Stop) (file : Text) (p last : Position) :
    (why.placedAt p).locate file last = (why.placedAt p).locate file p := by
  cases why with
  | outOfFuel => rfl
  | fault f =>
    cases f with
    | badSyntax e p? | badEvaluation e p? => cases p? <;> rfl
    | _ => rfl

end Stop

/-- Why a step has failed, if it has. -/
def Advance.why? : Advance → Option Stop
  | fail why _ _ => some why
  | _ => none

theorem Advance.why_eq_some {a : Advance} {why : Stop} : a.why? = some why ↔ ∃ v r, a = .fail why v r := by
  cases a <;> simp [why?]

/-! ## The event that fails -/

/-- The expressions of the event can't be computed. -/
def Event.stop? (k : Nat) (e : Event) (s : Store) : Option Stop :=
  match e with
  | .startTag _ _ as => match Attributes.eval k as s with
    | .error why => some why
    | .ok _ => none
  | .expression _ x => match x.eval k s with
    | .error why => some why
    | .ok _ => none
  | _ => none

/-- An event can't be computed because one of its expressions can't. -/
theorem Event.stops_of_stop {k : Nat} {e : Event} {s : Store} {why : Stop} (h : e.stop? k s = some why) :
    ∃ x ∈ e.expressions, x.Stops k why := by
  cases e with
  | startTag p name as =>
    simp only [stop?] at h
    split at h
    · rename_i result
      cases h
      exact Attributes.stops_of_eval result
    · cases h
  | expression p x =>
    simp only [stop?] at h
    split at h
    · rename_i result
      cases h
      exact ⟨x, List.mem_singleton_self x, s, result⟩
    · cases h
  | _ => cases h

/-- An event whose expressions can't be computed, and the file of the template that is expanded. -/
structure Failure where
  file : Text
  event : Event
  cause : Stop

/-- The cause, located in the file. -/
def Failure.located (f : Failure) : Stop := (f.cause.placedAt f.event.position).locate f.file f.event.position

namespace Stream

/-- The failure of the event that a step evaluates, if it is one; `file` is that of the expansion around the stream. -/
def failure? (k : Nat) (file : Text) : Stream → Store → Option Failure
  | evaluated u, s =>
    match step k u s with
    | .yield e _ r => (e.stop? k r).map (⟨file, e, ·⟩)
    | _ => failure? k file u s
  | expanded t _ u, s => failure? k t.filename u s
  | directed (d :: _) _ u, s => if needsEvents d s then failure? k file u s else none
  | content _ .start u, s | content _ (.last _) u, s | strip _ .first u, s | strip _ .second u, s
  | strip _ (.holding _) u, s | tidied none _ u, s | append u _, s | gathering _ _ _ u, s | attributes _ u, s
  | replaced _ u, s | substituted _ _ _ u, s | matching _ _ _ _ _ _ u, s | included _ _ u, s | including _ _ _ u, s
  | inserting _ _ _ u _, s => failure? k file u s
  | _, _ => none

variable {k : Nat} {u : Stream} {s : Store} {file : Text} {f : Failure}

theorem evaluateEvent_of_stop {e : Event} {why : Stop} (h : e.stop? k s = some why) :
    evaluateEvent k e u s = .fail (why.placedAt e.position) (.evaluated u) s := by
  cases e with
  | startTag p name as =>
    simp only [Event.stop?] at h
    split at h
    · cases h
      simp only [evaluateEvent, *]
      rfl
    · cases h
  | expression p x =>
    simp only [Event.stop?] at h
    split at h
    · cases h
      simp only [evaluateEvent, *]
      rfl
    · cases h
  | _ => cases h

/-- The failure is located in its file, or not located yet and in the given file. -/
def Reports (file : Text) (f : Failure) (why : Stop) : Prop :=
  why = f.located ∨ f.file = file ∧ why = f.cause.placedAt f.event.position

/-- **A failure is that of an expression of its event, and located there**, in the file of the expansion around it. -/
theorem step_of_failure (h : u.failure? k file s = some f) :
    (∃ x ∈ f.event.expressions, x.Stops k f.cause) ∧ ∃ why, (step k u s).why? = some why ∧ Reports file f why := by
  induction u generalizing s file with
  | replay | shared | ended | loop | looping => cases h
  | evaluated u ih =>
    simp only [failure?] at h
    split at h
    · rename_i inner
      obtain ⟨why, stops, rfl⟩ := Option.map_eq_some_iff.1 h
      exact ⟨Event.stops_of_stop stops, _, by simp only [step, inner, evaluateEvent_of_stop stops, Advance.why?],
        .inr ⟨rfl, rfl⟩⟩
    · obtain ⟨stops, why, fails, reports⟩ := ih h
      obtain ⟨v, r, fails⟩ := Advance.why_eq_some.1 fails
      exact ⟨stops, why, by simp only [step, fails, Advance.map, Advance.why?], reports⟩
  | expanded t last u ih =>
    change u.failure? k t.filename s = some f at h
    obtain ⟨stops, why, fails, reports⟩ := ih h
    obtain ⟨v, r, fails⟩ := Advance.why_eq_some.1 fails
    refine ⟨stops, why.locate t.filename last, by simp only [step, fails, stepExpanded, Advance.why?], .inl ?_⟩
    rcases reports with rfl | ⟨same, rfl⟩
    · exact Stop.locate_locate ..
    · rw [Stop.locate_placedAt, ← same]
      rfl
  | directed ds read u ih =>
    cases ds with
    | nil => cases h
    | cons d ds =>
      simp only [failure?] at h
      split at h
      · rename_i needs
        obtain ⟨stops, why, fails, reports⟩ := ih h
        obtain ⟨v, r, fails⟩ := Advance.why_eq_some.1 fails
        exact ⟨stops, why, by simp only [step, needs, fails, if_true, refuse, Advance.why?], reports⟩
      · cases h
  | content x phase u ih =>
    cases phase with
    | expression => cases h
    | start | last =>
      obtain ⟨stops, why, fails, reports⟩ := ih h
      obtain ⟨v, r, fails⟩ := Advance.why_eq_some.1 fails
      exact ⟨stops, why, by simp only [step, fails, stepContent, Advance.why?], reports⟩
  | strip test phase u ih =>
    cases phase with
    | untested => cases h
    | first | second | holding =>
      obtain ⟨stops, why, fails, reports⟩ := ih h
      obtain ⟨v, r, fails⟩ := Advance.why_eq_some.1 fails
      exact ⟨stops, why, by simp only [step, fails, stepStrip, Advance.why?], reports⟩
  | tidied pending? text? u ih =>
    cases pending? with
    | some e => cases h
    | none =>
      obtain ⟨stops, why, fails, reports⟩ := ih h
      obtain ⟨v, r, fails⟩ := Advance.why_eq_some.1 fails
      exact ⟨stops, why, by simp only [step, fails, stepTidied, Advance.why?], reports⟩
  | append u rest ih | inserting filename prefixes n u rest ih | gathering targets items body u ih | attributes x u ih
  | replaced x u ih | substituted path body openElements u ih | matching path body openElements p depth matched u ih
  | included filename prefixes u ih | including filename prefixes i u ih =>
    obtain ⟨stops, why, fails, reports⟩ := ih h
    obtain ⟨v, r, fails⟩ := Advance.why_eq_some.1 fails
    exact ⟨stops, why, by
      simp only [step, fails, stepSubstituted, stepMatching, stepIncluded, stepIncluding, stepInserting, Advance.map,
        Advance.why?], reports⟩

/-! ## Expansions -/

/-- The stream is the expansion of a template, and texts may be tidied after it. -/
def Expands : Stream → Prop
  | expanded .. | replay _ => True
  | tidied _ _ u => u.Expands
  | _ => False

theorem expands_stepTidied (text? : Option (Position × Text)) {a : Advance} (h : a.stream.Expands) :
    (stepTidied text? a).stream.Expands ∧ (stepTidied text? a).why? = a.why? := by
  unfold stepTidied
  split
  · exact ⟨h, rfl⟩
  · split <;> exact ⟨h, rfl⟩
  · exact ⟨h, rfl⟩
  · split <;> exact ⟨h, rfl⟩
  · exact ⟨h, rfl⟩

/-- **The failures of an expansion are located.** -/
theorem step_expands (h : u.Expands) : (step k u s).stream.Expands ∧ ∀ why, (step k u s).why? = some why → why.Located := by
  induction u generalizing s with
  | replay q =>
    simp only [step, stepReplay]
    split <;> exact ⟨trivial, by simp [Advance.why?]⟩
  | tidied pending? text? u ih =>
    cases pending? with
    | some e => exact ⟨h, by simp [step, Advance.why?]⟩
    | none =>
      obtain ⟨stays, located⟩ := ih (s := s) h
      obtain ⟨kept, same⟩ := expands_stepTidied text? stays
      exact ⟨kept, fun why fails => located why (same ▸ fails)⟩
  | expanded t last u ih =>
    simp only [step, stepExpanded]
    split
    case h_5 => exact ⟨trivial, by rintro _ ⟨⟩; exact Stop.located_locate ..⟩
    all_goals exact ⟨trivial, by simp [Advance.why?]⟩
  | _ => exact h.elim

theorem Run.expands {es : List Event} {v : Stream} {r : Store} (run : Run k u s es v r) (h : u.Expands) : v.Expands := by
  induction run with
  | refl => exact h
  | skip first _ ih | yield first _ ih => exact ih ((congrArg (·.stream.Expands) first).mp (step_expands h).1)

end Stream

theorem Template.expands_expansion {t : Template} (last : t.postFilters = [.tidy]) : t.expansion.Expands := by
  unfold Template.expansion
  rw [last]
  trivial

end Stencil
