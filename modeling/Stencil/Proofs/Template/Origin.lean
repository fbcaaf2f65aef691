import Stencil.Proofs.Stream.Origin

/-!
# Expansions and the files they come from

A template that has been compiled from a document is made of what comes from its file (`Template.IsFrom.of`), and so is
what a library loads. While such a template is expanded, each expansion evaluates events of its own file only, that of
an included template those of the included file (`Stream.step_in`).
-/

open Stencil.Compile Stencil.Stream

namespace Stencil

variable {w : Sources} {file : Text}

/-! ## Templates of a file -/

/-- The events of the template come from its file, and it has filters as the compiler and a library make them. -/
structure Template.Of (w : Sources) (t : Template) : Prop where
  takes : w.TakesPart t.filename
  events : ∀ e ∈ t.events, e.Of w t.filename
  first : t.preFilters = [.evaluate, .inclusion t.filename]
  substitutes : ∀ f ∈ t.filters, Substitutes f ∧ w.only? = some t.filename
  last : t.postFilters = [.tidy]

namespace Compile

theorem of_leaf {source e : Event} (takes : w.TakesPart file) (readable : source.Readable) (reads : w.Reads file source)
    (h : e ∈ leavesOf source) : e.Of w file := by
  cases source with
  | startTag p name as =>
    rw [List.mem_singleton.1 h]
    refine ⟨⟨as, reads⟩, fun alone => ?_⟩
    have admitted := w.admitted file takes _ reads
    rw [alone] at admitted
    exact admitted
  | text p text =>
    obtain ⟨f, hf, rfl⟩ := List.mem_map.1 h
    cases f with
    | literal t => exact ⟨_, reads, rfl⟩
    | expression x => exact .inl ⟨text, reads, hf⟩
  | blank | expression | sub => cases readable.markup
  | _ =>
    rw [List.mem_singleton.1 h]
    exact ⟨_, reads, rfl⟩

/-- Only a file that takes part alone has directives that capture events. -/
theorem alone_of_capturing {p : Position} {name : QName} {as : Attributes} (takes : w.TakesPart file)
    (reads : w.Reads file (.startTag p name as)) {a : Attribute} (ha : a ∈ as) (directive : isDirective a = true)
    (captures : a.name.base = DirectiveName.define.spelling ∨ a.name.base = DirectiveName.capture.spelling) :
    w.only? = some file := by
  have admitted := w.admitted file takes _ reads
  cases only : w.only? with
  | some f => rw [takes f only]
  | none =>
    rw [only] at admitted
    obtain ⟨define, capture⟩ := admitted a ha directive
    exact captures.elim (absurd · define) (absurd · capture)

theorem of_reading {t : Target} {index : Nat} {p : Position} {name : QName} {as : Attributes} (takes : w.TakesPart file)
    (reads : w.Reads file (.startTag p name as)) {a : Attribute} (ha : a ∈ as) (directive : isDirective a = true)
    {r : DirectiveReading} (read : readDirective t index p a = .ok r) :
    r.directive.Of w file ∧ ∀ f ∈ r.filters, Substitutes f ∧ w.only? = some file := by
  have none : ∀ f ∈ ([] : List Filter), Substitutes f ∧ w.only? = some file := by simp
  obtain ⟨n, spelling, -, named⟩ := readNamed_of_read read
  cases readsTo_of_readNamed named with
  | define => exact ⟨alone_of_capturing takes reads ha directive (.inl spelling.symm), none⟩
  | capture =>
    have alone := alone_of_capturing takes reads ha directive (.inr spelling.symm)
    exact ⟨alone, List.forall_mem_singleton.2 ⟨⟨_, _, rfl⟩, alone⟩⟩
  | replace found | content found => exact ⟨⟨p, name, as, reads, a, ha, directive, found⟩, none⟩
  | _ => exact ⟨trivial, none⟩

end Compile

theorem Template.IsFrom.filename {t : Template} (h : t.IsFrom w file) : t.filename = file := by
  obtain ⟨id, registry, document, m, -, compiled, rfl⟩ := h
  obtain ⟨es, -, compiled⟩ := events_of_document compiled
  obtain ⟨s, -, rfl⟩ := template_ok compiled
  rfl

/-- **What a document compiles to comes from its file.** -/
theorem Template.IsFrom.of {t : Template} (h : t.IsFrom w file) (takes : w.TakesPart file) : t.Of w := by
  obtain ⟨id, registry, document, m, held, compiled, rfl⟩ := h
  obtain ⟨es, read, compiled⟩ := events_of_document compiled
  have reads {e : Event} (he : e ∈ es) : w.Reads file e := ⟨document, es, held, read, he⟩
  have makes : Makes ⟨id, file, registry⟩ es (Event.Of w file) (Directive.Of w file) (fun f => Substitutes f ∧ w.only? = some file) := {
    leaf := fun source hs e he => of_leaf takes (Document.readable_of_read read source hs) (reads hs) he
    reading := fun p name as member a ha directive _ _ => of_reading takes (reads member) ha directive
    element := fun _ ds es => Event.of_sub.2 ⟨(es _ List.mem_cons_self).position, ds, es⟩ }
  obtain ⟨events, filters, first, last, rfl⟩ := makes.template compiled
  exact ⟨takes, events, congrArg (· ++ [Filter.inclusion _]) first, filters, last⟩

/-! ## Loading -/

namespace Store

variable {s : Store}

theorem Of.compileFile (h : s.Of w) (path : Text) :
    (s.compileFile path).2.Of w ∧ (s.compileFile path).2.library? = s.library? ∧
      ∀ t, (s.compileFile path).1 = .ok t → t.IsFrom w path := by
  unfold Store.compileFile
  split
  · exact ⟨h, rfl, by simp⟩
  · rename_i content found
    have after : Of w { s.reportAll (Compilation.ofDocument ⟨s.nextTemplate, path, s.registry⟩ (documentOf content)).log with
        nextTemplate := s.nextTemplate + 1 } :=
      ⟨⟨h.keeps.context, h.keeps.bodies, h.keeps.replay⟩, h.files, h.holdings⟩
    dsimp only
    split
    · rename_i m compiled
      refine ⟨after, rfl, ?_⟩
      rintro _ ⟨⟩
      cases content with
      | document callbacks => exact ⟨_, _, callbacks, m, h.files path callbacks found, compiled, rfl⟩
      | text text =>
        obtain ⟨es, read, -⟩ := events_of_document compiled
        cases read
    · exact ⟨after, rfl, by simp⟩

theorem Of.compileAndKeep (h : s.Of w) {l : Library} (found : s.library? = some l) (path : Text) (modified : Timestamp) :
    (s.compileAndKeep l path modified).2.Of w ∧
      ∀ t, (s.compileAndKeep l path modified).1 = .ok t → t.IsFrom w path := by
  have compiled := h.compileFile path
  unfold Store.compileAndKeep
  split
  · rename_i t s' r
    rw [r] at compiled
    obtain ⟨after, same, own⟩ := compiled
    refine ⟨⟨⟨after.keeps.context, after.keeps.bodies, after.keeps.replay⟩, after.files, ?_⟩, own⟩
    rintro _ ⟨⟩ holding hh
    rcases List.mem_append.1 hh with old | new
    · exact after.holdings l (same.trans found) holding (List.mem_filter.1 old).1
    · rw [List.mem_singleton.1 new]
      exact ⟨path, own t rfl⟩
  · exact ⟨compiled.1, compiled.2.2⟩

/-- Loading gives templates that have been compiled from documents of their files. -/
theorem Of.load (h : s.Of w) {l : Library} (found : s.library? = some l) (name relativeTo : Text) :
    (s.load l name relativeTo).2.Of w ∧ ∀ t, (s.load l name relativeTo).1 = .ok t → ∃ file, t.IsFrom w file := by
  have keeps {path : Text} {modified : Timestamp} (level : LogLevel) (message : Text) :
      ((s.report level message).compileAndKeep l path modified).2.Of w ∧
        ∀ t, ((s.report level message).compileAndKeep l path modified).1 = .ok t → ∃ file, t.IsFrom w file := by
    obtain ⟨after, own⟩ := (h.report level message).compileAndKeep found path modified
    exact ⟨after, fun t compiled => ⟨path, own t compiled⟩⟩
  unfold Store.load
  split
  · rename_i path modified _
    unfold loadFile
    split
    · rename_i holding kept
      obtain ⟨entry, mem, rfl⟩ := Option.map_eq_some_iff.1 kept
      split
      · refine ⟨h.report _ _, ?_⟩
        rintro _ ⟨⟩
        exact h.holdings l found entry (List.mem_of_find?_eq_some mem)
      · exact keeps _ _
    · exact keeps _ _
  · exact ⟨h, by simp⟩

end Store

/-! ## Expansions -/

/-- What an expansion yields: no elements with directives to what is around it; and to its own filters only such of its
own file, or any events of its own file if that takes part alone. -/
def Event.In (w : Sources) : Option Text → Event → Prop
  | none, e => ∀ p ds es, e ≠ .sub p ds es
  | some file, e => (w.only?.isSome = true ∨ ∃ p ds es, e = .sub p ds es) → e.Of w file

/-- Each expansion evaluates events of its own file. The stream is part of the expansion of the given file, or around
expansions. -/
def Stream.In (w : Sources) : Stream → Option Text → Prop
  | replay (.plain es), file? => ∀ e ∈ es, e.In w file?
  | append first rest, some file => first.In w (some file) ∧ rest.In w (some file)
  | evaluated u, some file => u.Of w file
  | substituted _ _ _ u, some file => w.only? = some file ∧ u.In w (some file)
  | matching _ _ _ p _ matched u, some file =>
    w.only? = some file ∧ (∃ d, w.Reads file d ∧ d.position = p) ∧ (∀ e ∈ matched, e.Of w file) ∧ u.In w (some file)
  | included _ _ u, some file => u.In w (some file)
  | including _ _ i u, some file =>
    w.only? = none ∧ (∀ es ∈ i.fallback?, ∀ e ∈ es, e.In w (some file)) ∧ u.In w (some file)
  | inserting _ _ _ inserted u, some file =>
    w.only? = none ∧ (inserted.In w none ∨ inserted.In w (some file)) ∧ u.In w (some file)
  | expanded t _ u, none => t.Of w ∧ u.In w (some t.filename)
  | tidied pending? _ u, none => (∀ e ∈ pending?, e.In w none) ∧ u.In w none
  | _, _ => False

/-- The step leads to such an event and such a stream, unless it fails. -/
def Advance.In (w : Sources) (file? : Option Text) : Advance → Prop
  | yield e u s => e.In w file? ∧ u.In w file? ∧ s.Of w
  | skip u s | done u s => u.In w file? ∧ s.Of w
  | fail .. => True

variable {file? : Option Text} {k : Nat} {u : Stream} {s : Store}

theorem Event.Of.in {e : Event} (h : e.Of w file) : e.In w (some file) := fun _ => h

/-- An event of a file that takes part alone. -/
theorem Event.In.of {e : Event} (h : e.In w (some file)) (only : w.only? = some file) : e.Of w file :=
  h (.inl (by rw [only]; rfl))

/-- What has been expanded is no element with directives, wherever it comes from. -/
theorem Event.In.around {e : Event} (h : e.In w none) (none : w.only? = none) : e.In w (some file) := by
  rintro (some | ⟨p, ds, es, same⟩)
  · rw [none] at some
    cases some
  · exact absurd same (h p ds es)

/-- No text is an element with directives. -/
theorem Event.in_text (p : Position) (t : Text) : (Event.text p t).In w none := fun _ _ _ => nofun

namespace Stream

theorem in_empty : empty.In w file? := by simp [empty, In]

theorem in_substituted {fs : List Filter} (h : u.In w (some file)) (all : ∀ f ∈ fs, Substitutes f ∧ w.only? = some file) :
    (u.filtered fs).In w (some file) := by
  induction fs generalizing u with
  | nil => exact h
  | cons f fs ih =>
    obtain ⟨⟨⟨path, body, rfl⟩, alone⟩, rest⟩ := List.forall_mem_cons.1 all
    exact ih ⟨alone, h⟩ rest

/-- An element of the template, filtered like the template itself. -/
theorem in_expansionFilters {t : Template} (template : t.Of w) (h : u.Of w t.filename) :
    (u.filtered t.expansionFilters).In w (some t.filename) := by
  unfold Template.expansionFilters
  rw [template.first]
  exact in_substituted (u := .included t.filename [] (.evaluated u)) h template.substitutes

theorem in_expansion {t : Template} (template : t.Of w) : t.expansion.In w none := by
  unfold Template.expansion
  rw [template.last]
  exact ⟨by simp, template, in_expansionFilters template (of_ofEvents template.events)⟩

theorem in_evaluateEvent {e : Event} (event : e.Of w file) (stream : u.Of w file) (h : s.Of w) :
    (evaluateEvent k e u s).In w (some file) := by
  unfold evaluateEvent
  split
  · split
    · rename_i result
      exact ⟨Event.Of.in event, stream, Attributes.eval_of h result⟩
    · trivial
  · split
    · trivial
    · rename_i result
      exact ⟨⟨trivial, stream⟩, (Expression.eval_of h result).1⟩
    · rename_i p x _ v r _ result
      have kept := (Expression.eval_of h result).1
      split
      · exact ⟨stream, kept⟩
      · exact ⟨(event.text v.toText).in, stream, kept⟩
  · exact ⟨event.in, stream, h⟩

theorem in_stepTidied (text? : Option (Position × Text)) {a : Advance} (h : a.In w none) :
    (stepTidied text? a).In w none := by
  have none : ∀ e ∈ (none : Option Event), e.In w none := by simp
  unfold stepTidied
  split
  · exact ⟨⟨none, h.2.1⟩, h.2.2⟩
  · split
    · exact ⟨Event.in_text _ _, ⟨by rintro _ ⟨⟩; exact h.1, h.2.1⟩, h.2.2⟩
    · exact ⟨h.1, ⟨none, h.2.1⟩, h.2.2⟩
  · exact ⟨⟨none, h.1⟩, h.2⟩
  · split
    · exact ⟨Event.in_text _ _, ⟨none, h.1⟩, h.2⟩
    · exact ⟨⟨none, h.1⟩, h.2⟩
  · trivial

theorem of_substitution {p : Position} (body : BodyId) {matched : List Event} (alone : w.only? = some file)
    (placed : ∃ d, w.Reads file d ∧ d.position = p) (events : ∀ e ∈ matched, e.Of w file) :
    (substitution p body matched.reverse).Of w file := by
  refine Event.of_sub.2 ⟨placed, List.forall_mem_singleton.2 ⟨alone, Event.allOf_iff.2 fun e he => ?_⟩, by simp⟩
  exact events e (List.mem_reverse.1 he)

theorem in_stepSubstituted (path : Path) (body : BodyId) (openElements : List Event) {a : Advance}
    (alone : w.only? = some file) (h : a.In w (some file)) :
    (stepSubstituted path body openElements a).In w (some file) := by
  cases a with
  | yield e u s =>
    obtain ⟨event, stream, store⟩ := h
    have own := event.of alone
    have goes (es : List Event) : (Advance.yield e (.substituted path body es u) s).In w (some file) :=
      ⟨event, ⟨alone, stream⟩, store⟩
    simp only [stepSubstituted]
    split
    · split
      · exact ⟨⟨alone, own.position, List.forall_mem_singleton.2 own, stream⟩, store⟩
      · exact goes _
    · split <;> exact goes _
  | skip u s | done u s => exact ⟨⟨alone, h.1⟩, h.2⟩
  | fail => trivial

theorem in_stepMatching (path : Path) (body : BodyId) (openElements : List Event) {p : Position} (depth : Nat)
    {matched : List Event} {a : Advance} (alone : w.only? = some file) (placed : ∃ d, w.Reads file d ∧ d.position = p)
    (events : ∀ e ∈ matched, e.Of w file) (h : a.In w (some file)) :
    (stepMatching path body openElements p depth matched a).In w (some file) := by
  cases a with
  | yield e u s =>
    obtain ⟨event, stream, store⟩ := h
    have more : ∀ f ∈ e :: matched, f.Of w file := List.forall_mem_cons.2 ⟨event.of alone, events⟩
    simp only [stepMatching]
    generalize (if e.isStart then depth + 1 else if e.isEnd then depth - 1 else depth) = depth
    split
    · exact ⟨(of_substitution body alone placed more).in, ⟨alone, stream⟩, store⟩
    · exact ⟨⟨alone, placed, more, stream⟩, store⟩
  | skip u s => exact ⟨⟨alone, placed, events, h.1⟩, h.2⟩
  | done u s => exact ⟨(of_substitution body alone placed events).in, ⟨alone, h.1⟩, h.2⟩
  | fail => trivial

/-! ### Includes -/

theorem in_read {i : Inclusion} {e : Event} (kept : ∀ es ∈ i.fallback?, ∀ f ∈ es, f.In w (some file))
    (event : e.In w (some file)) : ∀ es ∈ (Inclusion.read i e).fallback?, ∀ f ∈ es, f.In w (some file) := by
  have before : ∀ f ∈ i.fallback?.getD [], f.In w (some file) := by
    cases found : i.fallback? with
    | none => simp
    | some es => exact kept es found
  have more : ∀ es ∈ (if i.inFallback then some (e :: i.fallback?.getD []) else i.fallback?), ∀ f ∈ es, f.In w (some file) := by
    split
    · rintro _ ⟨⟩
      exact List.forall_mem_cons.2 ⟨event, before⟩
    · exact kept
  unfold Inclusion.read
  dsimp only
  split
  · split
    · rintro _ ⟨⟩
      exact before
    · exact more
  · split
    · exact kept
    · exact more
  · exact more

theorem in_fallBack (filename : Text) (prefixes : List Text) {i : Inclusion} (f : Fault) (none : w.only? = none)
    (kept : ∀ es ∈ i.fallback?, ∀ e ∈ es, e.In w (some file)) (stream : u.In w (some file)) (h : s.Of w) :
    (fallBack filename prefixes i f u s).In w (some file) := by
  unfold fallBack
  split
  · rename_i events found
    have events : (ofEvents events.reverse).In w (some file) := fun e he => kept events found e (List.mem_reverse.1 he)
    exact ⟨⟨none, .inr events, stream⟩, h.report _ _⟩
  · trivial

theorem in_insert (filename : Text) (prefixes : List Text) {i : Inclusion} (none : w.only? = none)
    (kept : ∀ es ∈ i.fallback?, ∀ e ∈ es, e.In w (some file)) (stream : u.In w (some file)) (h : s.Of w) :
    (insert filename prefixes i u s).In w (some file) := by
  unfold insert
  dsimp only
  split
  · split
    · trivial
    · rename_i library found
      have loaded := h.load found (i.attributes.textOf "href") filename
      split <;> rename_i result <;> rw [result] at loaded <;> obtain ⟨after, own⟩ := loaded
      · obtain ⟨file', own⟩ := own _ rfl
        have takes : w.TakesPart file' := by simp [Sources.TakesPart, none]
        have template := own.of takes
        refine ⟨⟨none, .inl (in_expansion template), in_substituted stream fun f hf => ?_⟩, after⟩
        -- the included template substitutes nothing
        have alone := (template.substitutes f hf).2
        rw [none] at alone
        cases alone
      · exact in_fallBack filename prefixes _ none kept stream after
  · trivial

/-- A file that takes part alone has no include elements. -/
theorem none_of_include {p : Position} {name : QName} {as : Attributes} (h : (Event.startTag p name as).In w (some file))
    (includes : name.same includeName = true) : w.only? = none := by
  cases only : w.only? with
  | none => rfl
  | some f =>
    have own := h (.inl (by rw [only]; rfl))
    rw [own.2 (by rw [only]; rfl)] at includes
    cases includes

theorem in_stepIncluded (filename : Text) (prefixes : List Text) {a : Advance} (h : a.In w (some file)) :
    (stepIncluded filename prefixes a).In w (some file) := by
  unfold stepIncluded
  split
  · split
    · exact h.2
    · exact h
  · split
    · exact h.2
    · exact h
  · split
    · rename_i includes
      exact ⟨⟨none_of_include h.1 includes, by simp [Inclusion.opened], h.2.1⟩, h.2.2⟩
    · exact h
  · cases a <;> exact h

theorem in_stepIncluding (filename : Text) (prefixes : List Text) {i : Inclusion} {a : Advance} (none : w.only? = none)
    (kept : ∀ es ∈ i.fallback?, ∀ e ∈ es, e.In w (some file)) (h : a.In w (some file)) :
    (stepIncluding filename prefixes i a).In w (some file) := by
  cases a with
  | yield e u s =>
    have more := in_read kept h.1
    simp only [stepIncluding]
    split
    · exact in_insert filename prefixes none more h.2.1 h.2.2
    · exact ⟨⟨none, more, h.2.1⟩, h.2.2⟩
  | skip u s => exact ⟨⟨none, kept, h.1⟩, h.2⟩
  | done u s => exact in_insert filename prefixes none kept h.1 h.2
  | fail => trivial

/-- What is inserted is an expansion, or the fallback of the include element. -/
theorem in_stepInserting (filename : Text) (prefixes : List Text) (n : Nat) {a : Advance} (none : w.only? = none)
    (stream : u.In w (some file)) (h : a.In w .none ∨ a.In w (some file)) :
    (stepInserting filename prefixes n u a).In w (some file) := by
  cases a with
  | yield e v s =>
    obtain ⟨event, inserted, store⟩ : e.In w (some file) ∧ (v.In w .none ∨ v.In w (some file)) ∧ s.Of w :=
      h.elim (fun h => ⟨h.1.around none, .inl h.2.1, h.2.2⟩) fun h => ⟨h.1, .inr h.2.1, h.2.2⟩
    cases e with
    | text p t => exact ⟨(Event.in_text p _).around none, ⟨none, inserted, stream⟩, store⟩
    | _ => exact ⟨event, ⟨none, inserted, stream⟩, store⟩
  | skip v s => exact ⟨⟨none, h.imp And.left And.left, stream⟩, h.elim And.right And.right⟩
  | done v s =>
    have store : s.Of w := h.elim And.right And.right
    exact ⟨stream, store.close v⟩
  | fail => trivial

theorem in_stepExpanded {t : Template} (last : Position) (template : t.Of w) {a : Advance} (h : a.In w (some t.filename)) :
    (stepExpanded t last a).In w none := by
  unfold stepExpanded
  split
  · rename_i p directives events v q
    obtain ⟨event, stream, store⟩ := h
    obtain ⟨-, ds, es⟩ := Event.of_sub.1 (event (.inr ⟨_, _, _, rfl⟩))
    refine ⟨⟨template, in_expansionFilters template ⟨fun d hd => ds d (List.mem_reverse.1 hd), by simp, es⟩, stream⟩, store⟩
  · rename_i other
    exact ⟨fun p ds es same => other p ds es same, ⟨template, h.2.1⟩, h.2.2⟩
  · exact ⟨⟨template, h.1⟩, h.2⟩
  · exact ⟨in_empty, h.2.close _⟩
  · trivial

/-- **Each expansion goes on evaluating events of its own file.** -/
theorem step_in (k : Nat) (stream : u.In w file?) (takes : ∀ file ∈ file?, w.TakesPart file) (h : s.Of w) :
    (step k u s).In w file? := by
  induction u generalizing file? s with
  | replay q =>
    cases q with
    | plain es =>
      cases es with
      | nil => exact ⟨stream, h⟩
      | cons e es =>
        obtain ⟨first, rest⟩ := List.forall_mem_cons.1 stream
        exact ⟨first, rest, h⟩
    | _ => exact stream.elim
  | append first rest ih =>
    cases file? with
    | none => exact stream.elim
    | some file =>
      have inner := ih stream.1 takes h
      simp only [step]
      cases result : step k first s <;> rw [result] at inner
      · exact ⟨inner.1, ⟨inner.2.1, stream.2⟩, inner.2.2⟩
      · exact ⟨⟨inner.1, stream.2⟩, inner.2⟩
      · exact ⟨stream.2, inner.2.close _⟩
      · trivial
  | evaluated u =>
    cases file? with
    | none => exact stream.elim
    | some file =>
      have inner := step_of (takes file rfl) k stream h
      simp only [step]
      cases result : step k u s <;> rw [result] at inner
      · exact in_evaluateEvent inner.1 inner.2.1 inner.2.2
      · exact inner
      · exact ⟨in_empty, inner.2.close _⟩
      · trivial
  | substituted path body openElements u ih =>
    cases file? with
    | none => exact stream.elim
    | some file => exact in_stepSubstituted path body openElements stream.1 (ih stream.2 takes h)
  | matching path body openElements p depth matched u ih =>
    cases file? with
    | none => exact stream.elim
    | some file =>
      obtain ⟨alone, placed, events, stream⟩ := stream
      exact in_stepMatching path body openElements depth alone placed events (ih stream takes h)
  | included filename prefixes u ih =>
    cases file? with
    | none => exact stream.elim
    | some file => exact in_stepIncluded filename prefixes (ih stream takes h)
  | including filename prefixes i u ih =>
    cases file? with
    | none => exact stream.elim
    | some file =>
      obtain ⟨none, kept, stream⟩ := stream
      exact in_stepIncluding filename prefixes none kept (ih stream takes h)
  | inserting filename prefixes n inserted u ih =>
    cases file? with
    | none => exact stream.elim
    | some file =>
      obtain ⟨none, inserted, stream⟩ := stream
      exact in_stepInserting filename prefixes n none stream
        (inserted.imp (fun inserted => ih inserted (by simp) h) fun inserted => ih inserted takes h)
  | expanded t last u ih =>
    cases file? with
    | some file => exact stream.elim
    | none =>
      obtain ⟨template, stream⟩ := stream
      exact in_stepExpanded last template (ih stream (by rintro _ ⟨⟩; exact template.takes) h)
  | tidied pending? text? u ih =>
    cases file? with
    | some file => exact stream.elim
    | none =>
      obtain ⟨held, stream⟩ := stream
      cases pending? with
      | some e => exact ⟨held e rfl, ⟨by simp, stream⟩, h⟩
      | none => exact in_stepTidied text? (ih stream takes h)
  | _ => exact stream.elim

/-- **An event that fails comes from the file of the expansion around it.** -/
theorem of_failure {f : Failure} (stream : u.In w file?) (takes : ∀ file ∈ file?, w.TakesPart file) (h : s.Of w)
    (around : ∀ file' ∈ file?, file = file') (failure : u.failure? k file s = some f) : f.event.Of w f.file := by
  induction u generalizing file file? s with
  | evaluated u =>
    cases file? with
    | none => exact stream.elim
    | some file' =>
      obtain rfl := around file' rfl
      have inner := step_of (takes file rfl) k stream h
      simp only [failure?] at failure
      split at failure
      · rename_i result
        obtain ⟨why, -, rfl⟩ := Option.map_eq_some_iff.1 failure
        rw [result] at inner
        exact inner.1
      · rw [failure_of stream] at failure
        cases failure
  | append first rest ih =>
    cases file? with
    | none => exact stream.elim
    | some file' => exact ih stream.1 takes h around failure
  | substituted path body openElements u ih =>
    cases file? with
    | none => exact stream.elim
    | some file' => exact ih stream.2 takes h around failure
  | matching path body openElements p depth matched u ih =>
    cases file? with
    | none => exact stream.elim
    | some file' => exact ih stream.2.2.2 takes h around failure
  | included filename prefixes u ih =>
    cases file? with
    | none => exact stream.elim
    | some file' => exact ih stream takes h around failure
  | including filename prefixes i u ih =>
    cases file? with
    | none => exact stream.elim
    | some file' => exact ih stream.2.2 takes h around failure
  | inserting filename prefixes n inserted u ih =>
    cases file? with
    | none => exact stream.elim
    | some file' =>
      rcases stream.2.1 with inserted | inserted
      · exact ih inserted (by simp) h (by simp) failure
      · exact ih inserted takes h around failure
  | expanded t last u ih =>
    cases file? with
    | some file => exact stream.elim
    | none =>
      obtain ⟨template, stream⟩ := stream
      exact ih stream (by rintro _ ⟨⟩; exact template.takes) h (by rintro _ ⟨⟩; rfl) failure
  | tidied pending? text? u ih =>
    cases file? with
    | some file => exact stream.elim
    | none =>
      cases pending? with
      | some e => cases failure
      | none => exact ih stream.2 takes h around failure
  | replay => cases failure
  | _ => exact stream.elim

end Stream

end Stencil
