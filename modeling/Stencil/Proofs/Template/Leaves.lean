import Stencil.Proofs.Template.Readings

/-!
# What compiled events are made of

The compiler makes tags, texts and expressions of the events of a document (`Compile.leavesOf`), reads directives from
attributes, and nests events in elements with directives. What holds of each of these holds of all events of the
template (`Compile.Makes.template`).
-/

namespace Stencil

namespace Compile

/-- What is left in the template of an event that carries no directive. -/
def leavesOf : Event → List Event
  | .startTag p name as => [.startTag p name (ordinaryAttributes as)]
  | .text p t => textEvents p t
  | e => [e]

/-- All that the compiler makes of the events of a document has a property: events, directives and filters. -/
structure Makes (t : Target) (es : List Event) (E : Event → Prop) (D : Directive → Prop) (K : Filter → Prop) : Prop where
  leaf : ∀ source ∈ es, ∀ e ∈ leavesOf source, E e
  reading : ∀ p name as, .startTag p name as ∈ es → ∀ a ∈ as, isDirective a = true →
    ∀ {index r}, readDirective t index p a = .ok r → D r.directive ∧ ∀ f ∈ r.filters, K f
  element : ∀ {ds e fs}, ds ≠ [] → (∀ d ∈ ds, D d) → (∀ f ∈ e :: fs, E f) → E (.sub e.position ds (e :: fs))

/-- All that has been read so far has the property. -/
structure Made (E : Event → Prop) (D : Directive → Prop) (K : Filter → Prop) (s : State) : Prop where
  output : ∀ e ∈ s.output, E e
  carriers : ∀ c ∈ s.carriers, c.directives ≠ [] ∧ (∀ d ∈ c.directives, D d) ∧ ∀ e ∈ c.before, E e
  filters : ∀ f ∈ s.filters, K f

variable {t : Target} {es : List Event} {E : Event → Prop} {D : Directive → Prop} {K : Filter → Prop}
variable {s s' : State} {index : Nat}

theorem Made.push (h : Made E D K s) {e : Event} (made : E e) : Made E D K (s.push e) :=
  ⟨List.forall_mem_cons.2 ⟨made, h.output⟩, h.carriers, h.filters⟩

theorem Made.openElement (h : Made E D K s) {tag : Event} (made : E tag) {readings : List DirectiveReading}
    (all : ∀ r ∈ readings, D r.directive ∧ ∀ f ∈ r.filters, K f) : Made E D K (s.openElement tag readings) := by
  have filters : ∀ f ∈ s.filters ++ readings.flatMap DirectiveReading.filters, K f := by
    intro f hf
    rcases List.mem_append.1 hf with old | new
    · exact h.filters f old
    · obtain ⟨r, hr, hf⟩ := List.mem_flatMap.1 new
      exact (all r hr).2 f hf
  unfold State.openElement
  dsimp only
  split
  · exact ⟨List.forall_mem_cons.2 ⟨made, h.output⟩, h.carriers, filters⟩
  · rename_i some
    refine ⟨by simpa using made, List.forall_mem_cons.2 ⟨⟨?_, fun d hd => ?_, h.output⟩, h.carriers⟩, filters⟩
    · obtain ⟨r, rs, rfl⟩ := List.exists_cons_of_ne_nil (by simpa using some)
      exact List.ne_nil_of_mem (mem_sortByRank.2 List.mem_cons_self)
    · obtain ⟨r, hr, rfl⟩ := List.mem_map.1 (mem_sortByRank.1 hd)
      exact (all r hr).1

theorem Made.closeElement (makes : Makes t es E D K) (h : Made E D K s) {tag : Event} (made : E tag) :
    Made E D K (s.closeElement tag) := by
  have output : ∀ e ∈ tag :: s.output, E e := List.forall_mem_cons.2 ⟨made, h.output⟩
  unfold State.closeElement
  split
  · rename_i c cs carriers _
    obtain ⟨⟨some, directives, before⟩, rest⟩ := List.forall_mem_cons.1 (carriers ▸ h.carriers)
    obtain ⟨e, fs, events⟩ := List.exists_cons_of_ne_nil (l := (tag :: s.output).reverse) (by simp)
    have inner : ∀ f ∈ e :: fs, E f := fun f hf => output f (List.mem_reverse.1 (events ▸ hf))
    refine ⟨List.forall_mem_cons.2 ⟨?_, before⟩, rest, h.filters⟩
    rw [events]
    exact makes.element some directives inner
  · exact ⟨output, h.carriers, h.filters⟩

theorem Made.step (makes : Makes t es E D K) (h : Made E D K s) {e : Event} (he : e ∈ es)
    (read : Compile.step t s (e, index) = .ok s') : Made E D K s' := by
  have pushed (single : leavesOf e = [e]) : Made E D K (s.push e) := h.push (makes.leaf e he e (by simp [single]))
  cases e with
  | startTag p name as =>
    have tag := makes.leaf _ he (.startTag p name (ordinaryAttributes as)) List.mem_cons_self
    obtain ⟨rs, readings, rfl⟩ := step_startTag_ok.1 read
    refine h.openElement tag fun r hr => ?_
    obtain ⟨a, ha, found⟩ := mem_readings readings r hr
    obtain ⟨mem, directive⟩ := List.mem_filter.1 ha
    exact makes.reading p name as he a mem directive found
  | endTag p name =>
    cases read
    exact h.closeElement makes (makes.leaf _ he _ List.mem_cons_self)
  | text p text =>
    cases read
    refine ⟨fun e hx => ?_, h.carriers, h.filters⟩
    rcases List.mem_append.1 hx with new | old
    · exact makes.leaf _ he e (List.mem_reverse.1 new)
    · exact h.output e old
  | startNamespace | endNamespace =>
    cases read
    split
    · exact ⟨h.output, h.carriers, h.filters⟩
    · exact pushed rfl
  | _ =>
    cases read
    exact pushed rfl

theorem Made.run (makes : Makes t es E D K) {rest : List Event} (within : rest ⊆ es) (h : Made E D K s)
    (read : Compile.run t s rest index = .ok s') : Made E D K s' := by
  induction rest generalizing s index with
  | nil =>
    cases read
    exact h
  | cons e rest ih =>
    obtain ⟨first, others⟩ := List.cons_subset.1 within
    obtain ⟨mid, next, read⟩ := run_cons_ok.1 read
    exact ih others (h.step makes first next) read

/-- **What holds of all that the compiler makes holds of the template.** -/
theorem Makes.template (makes : Makes t es E D K) {template : Template} (compiled : Compile.template t es = .ok template) :
    (∀ e ∈ template.events, E e) ∧ (∀ f ∈ template.filters, K f) ∧ template.preFilters = [.evaluate] ∧
      template.postFilters = [.tidy] ∧ template.filename = t.filename := by
  obtain ⟨s, read, rfl⟩ := template_ok compiled
  have initial : Made E D K .initial := ⟨by simp [State.initial], by simp [State.initial], by simp [State.initial]⟩
  have final := initial.run makes (List.Subset.refl es) read
  refine ⟨fun e he => ?_, final.filters, rfl, rfl, rfl⟩
  change e ∈ s.events at he
  rw [State.events_eq, List.mem_reverse] at he
  rcases List.mem_append.1 he with output | before
  · exact final.output e output
  · obtain ⟨c, hc, he⟩ := List.mem_flatMap.1 before
    exact (final.carriers c hc).2.2 e he

end Compile

end Stencil
