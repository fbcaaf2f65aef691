import Stencil.Proofs.Template.Evaluation
import Stencil.Proofs.Template.Readings

/-!
# What plain documents compile to

In a document without functions and match templates each directive is plain, and no two on one element
are the same, as the attributes of a tag have distinct names. Such a document compiles to structured
events (`Compile.structured_of_template`): the directives of an element are its loop, its test and what
rewrites it, each at most once and in this order.
-/

namespace Stencil

/-! ## Structured events -/

namespace Event

mutual

/-- Directives are plain and ordered, also those inside of the event. -/
def Structured : Event → Prop
  | sub _ ds es => Directive.Ordered ds ∧ AllStructured es
  | _ => True

def AllStructured : List Event → Prop
  | [] => True
  | e :: es => e.Structured ∧ AllStructured es

end

theorem allStructured_iff {es : List Event} : AllStructured es ↔ ∀ e ∈ es, e.Structured := by
  induction es with
  | nil => simp [AllStructured]
  | cons e es ih => simp [AllStructured, ih]

theorem map_event_pieces (k : Nat) (es : List Event) : (pieces k es).map (·.event) = es := by
  induction es with
  | nil => rfl
  | cons e es ih => simp [pieces, ih]

end Event

/-! ## What compiles to structured events -/

/-- The directives that neither capture events nor are added by a host. -/
def DirectiveName.plain : List DirectiveName := [loop, condition, replace, content, attributes, strip]

theorem DirectiveName.mem_of_plain {n : DirectiveName} (h : n ∈ plain) (registry : Registry) : n ∈ registry.names := by
  have all : ∀ n ∈ plain, n ∈ builtins := by decide
  exact List.mem_append_left _ (all n h)

namespace Compile

/-- A document without functions and match templates: its directives are plain, and the attributes of a
tag are distinct. -/
structure PlainDocument (es : List Event) : Prop where
  nested : WellNested es
  distinct : ∀ p name as, .startTag p name as ∈ es → Attributes.Distinct as
  plain : ∀ p name as, .startTag p name as ∈ es → ∀ a ∈ as, isDirective a = true →
    ∃ n ∈ DirectiveName.plain, a.name.base = n.spelling

/-- A plain directive comes with no filter. -/
theorem readNamed_plain {n : DirectiveName} (plain : n ∈ DirectiveName.plain) {value : Text} {place : SourcePlace}
    {body : BodyId} {r : DirectiveReading} (h : Directive.readNamed n value place body = .ok r) :
    r.directive.isPlain = true ∧ r.filters = [] := by
  cases readsTo_of_readNamed h with
  | define | capture | extension => simp [DirectiveName.plain] at plain
  | _ => exact ⟨rfl, rfl⟩

/-- What is read of distinct plain directives, in the order of their rank, is ordered. -/
theorem ordered_sortByRank {ds : List Directive} (plain : ∀ d ∈ ds, d.isPlain = true)
    (distinct : ds.Pairwise (·.rank ≠ ·.rank)) : Directive.Ordered (sortByRank ds) :=
  ⟨fun d hd => plain d (mem_sortByRank.1 hd), ascending_sortByRank distinct⟩

/-- The readings of distinct attributes that are plain directives are plain, and their ranks are
distinct. -/
theorem readings_plain {t : Target} {index : Nat} {p : Position} {as : Attributes} {rs : List DirectiveReading}
    (distinct : as.Distinct) (directives : ∀ a ∈ as, isDirective a = true)
    (plain : ∀ a ∈ as, ∃ n ∈ DirectiveName.plain, a.name.base = n.spelling)
    (h : as.mapM (readDirective t index p) = .ok rs) :
    (∀ r ∈ rs, r.directive.isPlain = true ∧ r.filters = []) ∧ rs.Pairwise fun r r' => r.directive.rank ≠ r'.directive.rank := by
  obtain ⟨all, pairwise⟩ := readings_ranked distinct directives h
  refine ⟨fun r hr => ?_, pairwise⟩
  obtain ⟨a, ha, -, -, -, read⟩ := all r hr
  obtain ⟨n, hn, name⟩ := plain a ha
  obtain ⟨m, spelling, known, named⟩ := readNamed_of_read read
  obtain rfl : m = n := Registry.spelling_inj known (DirectiveName.mem_of_plain hn _) (spelling.trans name)
  exact readNamed_plain hn named

/-! ### The compiler -/

/-- All that is kept of the events read so far is structured, and no filter has been registered. -/
structure StructuredState (s : State) : Prop where
  output : ∀ e ∈ s.output, e.Structured
  carriers : ∀ c ∈ s.carriers, Directive.Ordered c.directives ∧ ∀ e ∈ c.before, e.Structured
  filters : s.filters = []

theorem StructuredState.push {s : State} (h : StructuredState s) {e : Event} (structured : e.Structured) :
    StructuredState (s.push e) :=
  ⟨List.forall_mem_cons.2 ⟨structured, h.output⟩, h.carriers, h.filters⟩

theorem StructuredState.closeElement {s : State} (h : StructuredState s) (p : Position) (name : QName) :
    StructuredState (s.closeElement (.endTag p name)) := by
  unfold State.closeElement
  split
  · rename_i c cs carriers level
    have all := h.carriers
    rw [carriers] at all
    obtain ⟨⟨ordered, before⟩, others⟩ := List.forall_mem_cons.1 all
    refine ⟨List.forall_mem_cons.2 ⟨⟨ordered, Event.allStructured_iff.2 fun e he => ?_⟩, before⟩, others, h.filters⟩
    rcases List.mem_cons.1 (List.mem_reverse.1 he) with rfl | he
    · trivial
    · exact h.output e he
  · exact ⟨(h.push (e := .endTag p name) trivial).output, h.carriers, h.filters⟩

theorem StructuredState.openElement {s : State} (h : StructuredState s) (p : Position) (name : QName) (as : Attributes)
    {readings : List DirectiveReading} (plain : ∀ r ∈ readings, r.directive.isPlain = true ∧ r.filters = [])
    (distinct : readings.Pairwise fun r r' => r.directive.rank ≠ r'.directive.rank) :
    StructuredState (s.openElement (.startTag p name as) readings) := by
  have none : s.filters ++ readings.flatMap DirectiveReading.filters = [] := by
    rw [h.filters, List.nil_append]
    exact List.flatMap_eq_nil_iff.2 fun r hr => (plain r hr).2
  unfold State.openElement
  dsimp only
  split
  · exact ⟨(h.push (e := .startTag p name as) trivial).output, h.carriers, none⟩
  · refine ⟨List.forall_mem_singleton.2 trivial, List.forall_mem_cons.2 ⟨⟨ordered_sortByRank ?_ ?_, h.output⟩, h.carriers⟩,
      none⟩
    · intro d hd
      obtain ⟨r, hr, rfl⟩ := List.mem_map.1 hd
      exact (plain r hr).1
    · exact List.pairwise_map.2 distinct

theorem structured_textEvents (p : Position) (text : Text) : ∀ e ∈ textEvents p text, e.Structured := by
  intro e he
  obtain ⟨f, -, rfl⟩ := List.mem_map.1 he
  cases f <;> trivial

theorem StructuredState.step {t : Target} {s s' : State} {e : Event} {index : Nat} (h : StructuredState s)
    (markup : e.isMarkup = true) (distinct : ∀ p name as, e = .startTag p name as → Attributes.Distinct as)
    (plain : ∀ p name as, e = .startTag p name as → ∀ a ∈ as, isDirective a = true →
      ∃ n ∈ DirectiveName.plain, a.name.base = n.spelling)
    (r : Compile.step t s (e, index) = .ok s') : StructuredState s' := by
  cases e with
  | startTag p name as =>
    obtain ⟨readings, read, rfl⟩ := step_startTag_ok.1 r
    obtain ⟨all, pairwise⟩ := readings_plain ((distinct p name as rfl).filter _) (fun a ha => (List.mem_filter.1 ha).2)
      (fun a ha => plain p name as rfl a (List.mem_filter.1 ha).1 (List.mem_filter.1 ha).2) read
    exact h.openElement p name _ all pairwise
  | endTag p name =>
    cases r
    exact h.closeElement p name
  | text p text =>
    cases r
    refine ⟨fun e he => ?_, h.carriers, h.filters⟩
    rcases List.mem_append.1 he with he | he
    · exact structured_textEvents p text e (List.mem_reverse.1 he)
    · exact h.output e he
  | startNamespace p pre uri =>
    cases r
    split
    · exact ⟨h.output, h.carriers, h.filters⟩
    · exact h.push trivial
  | endNamespace p pre =>
    cases r
    split
    · exact ⟨h.output, h.carriers, h.filters⟩
    · exact h.push trivial
  | comment | instruction | doctype =>
    cases r
    exact h.push trivial
  | blank | expression | sub => cases markup

theorem StructuredState.run {t : Target} {es : List Event} (document : PlainDocument es) {rest : List Event}
    (sub : ∀ e ∈ rest, e ∈ es) {s s' : State} {index : Nat} (h : StructuredState s)
    (r : Compile.run t s rest index = .ok s') : StructuredState s' := by
  induction rest generalizing s index with
  | nil =>
    cases r
    exact h
  | cons e rest ih =>
    obtain ⟨first, sub⟩ := List.forall_mem_cons.1 sub
    obtain ⟨mid, read, r⟩ := run_cons_ok.1 r
    refine ih sub (h.step (document.nested.markup e first) ?_ ?_ read) r
    · rintro p name as rfl
      exact document.distinct p name as first
    · rintro p name as rfl
      exact document.plain p name as first

/-- A plain document compiles to structured events, and to a template that filters its events only by
computing expressions. -/
theorem structured_of_template {target : Target} {es : List Event} (document : PlainDocument es) {t : Template}
    (compiled : template target es = .ok t) :
    t.expansionFilters = [.evaluate] ∧ ∀ e ∈ t.events, e.Structured := by
  obtain ⟨s, read, rfl⟩ := template_ok compiled
  have structured : StructuredState s :=
    StructuredState.run document (fun e he => he) ⟨by simp [State.initial], by simp [State.initial], rfl⟩ read
  refine ⟨by simp [Template.expansionFilters, State.finished, structured.filters], fun e he => ?_⟩
  change e ∈ s.events at he
  rw [State.events_eq] at he
  rcases List.mem_append.1 (List.mem_reverse.1 he) with he | he
  · exact structured.output e he
  · obtain ⟨c, hc, he⟩ := List.mem_flatMap.1 he
    exact (structured.carriers c hc).2 e he

end Compile

end Stencil
