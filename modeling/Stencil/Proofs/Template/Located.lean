import Stencil.Proofs.Library.Loading
import Stencil.Proofs.Template.Origin

/-!
# The places of errors

A failure to compute the expressions of an event is raised at the place of the event in the file of the template that is
expanded, and never without a place. That is the file the event comes from if no file has functions or match templates,
or if the file takes part alone (`Template.failure_located`). A function that is defined in an included template and
called in the including one reports the wrong file (`Template.included_function_misplaced`).
-/

open Stencil.Compile Stencil.Stream

namespace Stencil

variable {w : Sources}

/-! ## Errors of events -/

/-- The error that is raised for a failure: one of the source of the file or of an evaluation, at the place of the
event. It is in the file where an expression can't be read as far to the right as it is in the expression. -/
inductive Failure.Raises (f : Failure) : Stop → Prop
  | lacking (cause : f.cause = .outOfFuel) : f.Raises .outOfFuel
  | unreadable {e : SyntaxError} (cause : f.cause = .fault (.badSyntax e none)) :
      f.Raises (.fault (.source ⟨.expression e, (SourcePlace.ofPosition f.file f.event.position).shift e.offset⟩))
  | failing {e : EvalError} (cause : f.cause = .fault (.badEvaluation e none)) :
      f.Raises (.fault (.evaluation e (.ofPosition f.file f.event.position)))

theorem Failure.raises_located {f : Failure} (plain : f.cause.OfExpression) : f.Raises f.located := by
  obtain ⟨file, event, cause⟩ := f
  cases cause with
  | outOfFuel => exact .lacking rfl
  | fault g =>
    cases g with
    | badSyntax e p? =>
      cases p? with
      | none => exact .unreadable rfl
      | some => exact plain.elim
    | badEvaluation e p? =>
      cases p? with
      | none => exact .failing rfl
      | some => exact plain.elim
    | _ => exact plain.elim

/-- A failure that has been located is raised as an error at its place. -/
theorem Failure.raises_of_reports {f : Failure} {file : Text} {why : Stop} (plain : f.cause.OfExpression)
    (located : why.Located) (reports : Reports file f why) : f.Raises why := by
  rcases reports with rfl | ⟨-, rfl⟩
  · exact raises_located plain
  · obtain ⟨file, event, cause⟩ := f
    cases cause with
    | outOfFuel => exact .lacking rfl
    | fault g =>
      cases g with
      | badSyntax e p? | badEvaluation e p? => cases p? <;> exact located.elim
      | _ => exact plain.elim

/-! ## Runs -/

variable {k : Nat} {u : Stream} {s r : Store}

theorem Stream.Run.in {es : List Event} {v : Stream} {file? : Option Text} (run : Run k u s es v r) (stream : u.In w file?)
    (takes : ∀ file ∈ file?, w.TakesPart file) (h : s.Of w) : v.In w file? ∧ r.Of w := by
  induction run with
  | refl => exact ⟨stream, h⟩
  | skip first _ ih =>
    have next := step_in k stream takes h
    rw [first] at next
    exact ih next.1 next.2
  | yield first _ ih =>
    have next := step_in k stream takes h
    rw [first] at next
    exact ih next.2.1 next.2.2

namespace Template

/-- **Errors are located correctly.** Take a template that a library has loaded from files none of which has functions or
match templates, or from a file that takes part alone, and pull events of its expansion. Whatever makes this fail, it
is no error of an expression without a place. If the expressions of an event can't be computed, the event comes from the
file that is named in the error, and the error is at its place. -/
theorem failure_located {s₀ : Store} {l : Library} {name relativeTo : Text} {t : Template} (before : s₀.Of w)
    (found : s₀.library? = some l) (loaded : (s₀.load l name relativeTo).1 = .ok t)
    (alone : ∀ file ∈ w.only?, t.filename = file) (store : s.Of w) {es : List Event} (run : Run k t.expansion s es u r) :
    (∀ why, (step k u r).why? = some why → why.Located) ∧
      ∀ f, u.failure? k t.filename r = some f →
        f.event.Stems (w.Reads f.file) ∧ (∃ x ∈ f.event.expressions, x.Stops k f.cause) ∧
          ∃ why, (step k u r).why? = some why ∧ f.Raises why := by
  obtain ⟨file, compiled⟩ := (before.load found name relativeTo).2 t loaded
  have takes : w.TakesPart file := compiled.filename ▸ alone
  have template := compiled.of takes
  have expands := run.expands (expands_expansion template.last)
  have located : ∀ why, (step k u r).why? = some why → why.Located := (step_expands expands).2
  obtain ⟨stream, store⟩ := run.in (in_expansion template) (by simp) store
  refine ⟨located, fun f failure => ?_⟩
  obtain ⟨⟨x, hx, q, stops⟩, why, fails, reports⟩ := step_of_failure failure
  exact ⟨(of_failure stream (by simp) store (by simp) failure).stems, ⟨x, hx, q, stops⟩, why, fails,
    Failure.raises_of_reports (Expression.eval_stops stops) (located why fails) reports⟩

end Template

/-! ## Trees of files -/

/-- The files of a tree none of whose documents has functions or match templates. -/
def Sources.ofTree (t : FileTree)
    (plain : ∀ document ∈ t.documents, ∀ es ∈ (Document.read document).toOption, ∀ e ∈ es, e.Admitted false) : Sources where
  documents path document := t.content path = .ok (.document document)
  only? := none
  admitted := by
    rintro file - e ⟨document, es, held, read, he⟩
    exact plain document (FileTree.mem_documents held) es (by rw [read]; rfl) e he

/-- A store that keeps nothing yet. -/
theorem Store.of_ofContext {c : Context} {fs : FileSystem} {l : Library} (files : ∀ path document,
    fs.content path = .ok (.document document) → w.documents path document) (context : c.From (.sharing w))
    (none : l.holdings = []) : Store.Of w { Store.ofContext c fs with library? := some l } where
  keeps := ⟨context, fun _ _ found => (by cases found), fun id => by simp [Store.ofContext, Store.replay, Replay.Keeps]⟩
  files := files
  holdings := by
    rintro _ ⟨⟩
    simp [none]

instance : DecidablePred (Event.Admitted false)
  | .startTag .. => inferInstanceAs (Decidable (∀ a ∈ _, _))
  | .endTag .. | .text .. | .startNamespace .. | .endNamespace .. | .comment .. | .instruction .. | .doctype .. | .blank
  | .expression .. | .sub .. => .isTrue trivial

namespace Template

/-! ## Two files -/

/-- A document that includes another one and calls a function. -/
def includingDocument : List Callback :=
  [.startElement ⟨1, 60⟩ ⟨"a", none, none⟩ [⟨some "xi", some includeNamespace⟩] [],
    .startElement ⟨1, 90⟩ ⟨"include", some "xi", some includeNamespace⟩ [] [⟨⟨"href", none, none⟩, "lib.xml"⟩],
    .endElement ⟨1, 90⟩ ⟨"include", some "xi", some includeNamespace⟩, .characters ⟨1, 96⟩ "$\x7bf()\x7d",
    .endElement ⟨1, 100⟩ ⟨"a", none, none⟩]

/-- A document that divides by zero on its third line, in an element with directives. -/
def dividingDocument (directives : List (Text × Text)) : List Callback :=
  [.startElement ⟨1, 40⟩ ⟨"lib", none, none⟩ [⟨some "py", some directiveNamespace⟩] [], .characters ⟨3, 0⟩ "\n\n",
    .startElement ⟨3, 20⟩ ⟨"b", none, none⟩ [] (directives.map fun d => ⟨⟨d.1, some "py", some directiveNamespace⟩, d.2⟩),
    .characters ⟨3, 26⟩ "$\x7b1/0\x7d", .endElement ⟨3, 30⟩ ⟨"b", none, none⟩, .endElement ⟨3, 36⟩ ⟨"lib", none, none⟩]

/-- The files of both. -/
def twoFiles (directives : List (Text × Text)) : FileTree :=
  ((FileTree.empty ["W"]).add "/W/main.xml" (.document includingDocument) ⟨0, 0⟩).add "/W/lib.xml"
    (.document (dividingDocument directives)) ⟨0, 0⟩

def twoFilesLibrary : Library := .ofSearchPath ["/W"] true

/-- A store in which nothing has been loaded from the files. -/
def twoFilesStore (directives : List (Text × Text)) : Store :=
  { Store.ofContext (.ofBase []) ((twoFiles directives).system 0) with library? := some twoFilesLibrary }

/-- What loading the including template comes to. -/
def loading (directives : List (Text × Text)) : Except Fault Template × Store :=
  (twoFilesStore directives).load twoFilesLibrary "main.xml" []

/-- Where the event is that fails after some steps, and the place that the error has. -/
def failureAfter (n : Nat) (directives : List (Text × Text)) : Option (Position × SourcePlace) :=
  (loading directives).1.toOption.bind fun t => (Stream.after 100 n t.expansion (loading directives).2).bind fun p =>
    (p.1.failure? 100 t.filename p.2).bind fun f => match (step 100 p.1 p.2).why? with
      | some (.fault (.evaluation .divisionByZero place)) => some (f.event.position, place)
      | _ => none

theorem failure_of_after {n : Nat} {directives : List (Text × Text)} {p : Position} {place : SourcePlace}
    (h : failureAfter n directives = some (p, place)) :
    ∃ t es u r f, (loading directives).1 = .ok t ∧ Run 100 t.expansion (loading directives).2 es u r ∧
      u.failure? 100 t.filename r = some f ∧ f.event.position = p ∧
        (step 100 u r).why? = some (.fault (.evaluation .divisionByZero place)) := by
  unfold failureAfter at h
  obtain ⟨t, found, h⟩ := Option.bind_eq_some_iff.1 h
  obtain ⟨⟨u, r⟩, steps, h⟩ := Option.bind_eq_some_iff.1 h
  obtain ⟨f, failure, h⟩ := Option.bind_eq_some_iff.1 h
  obtain ⟨es, run⟩ := run_of_after steps
  have loaded : (loading directives).1 = .ok t := by
    cases result : (loading directives).1 <;> rw [result] at found <;> cases found
    rfl
  split at h
  · rename_i why
    cases h
    exact ⟨t, es, u, r, f, loaded, run, failure, rfl, why⟩
  · cases h

/-- An included file that divides by zero outside of functions is named in the error. -/
theorem failure_located_included :
    ∃ t es u r f, (loading []).1 = .ok t ∧ Run 100 t.expansion (loading []).2 es u r ∧
      u.failure? 100 t.filename r = some f ∧ f.event.position = ⟨3, 19⟩ ∧
        (step 100 u r).why? = some (.fault (.evaluation .divisionByZero ⟨"/W/lib.xml", 3, 19⟩)) ∧
          ∃ why, (step 100 u r).why? = some why ∧ f.Raises why := by
  have fails : failureAfter 9 [] = some (⟨3, 19⟩, ⟨"/W/lib.xml", 3, 19⟩) := by decide +kernel
  obtain ⟨t, es, u, r, f, loaded, run, failure, position, why⟩ := failure_of_after fails
  have plain : ∀ document ∈ (twoFiles []).documents, ∀ es ∈ (Document.read document).toOption, ∀ e ∈ es,
      e.Admitted false := by decide +kernel
  have before : (twoFilesStore []).Of (Sources.ofTree (twoFiles []) plain) :=
    Store.of_ofContext (fun _ _ held => held) (List.forall_mem_singleton.2 .nil) rfl
  have after := (before.load (l := twoFilesLibrary) rfl "main.xml" []).1
  obtain ⟨-, located⟩ := failure_located before rfl loaded (by rintro _ ⟨⟩) after run
  exact ⟨t, es, u, r, f, loaded, run, failure, position, why, (located f failure).2.2⟩

/-- **A function of an included template reports the wrong file**: the included file is the only one that has a third
line, and the error is located on the third line of the including file. -/
theorem included_function_misplaced :
    (∃ t es u r f, (loading [("def", "f()")]).1 = .ok t ∧ Run 100 t.expansion (loading [("def", "f()")]).2 es u r ∧
      u.failure? 100 t.filename r = some f ∧ f.event.position = ⟨3, 19⟩ ∧
        (step 100 u r).why? = some (.fault (.evaluation .divisionByZero ⟨"/W/main.xml", 3, 19⟩))) ∧
      ∀ es ∈ (Document.read includingDocument).toOption, ∀ e ∈ es, e.position.line = 1 :=
  ⟨failure_of_after (n := 19) (by decide +kernel), by decide +kernel⟩

end Template

end Stencil
