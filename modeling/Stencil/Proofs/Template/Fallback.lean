import Stencil.Proofs.Stream.Unused
import Stencil.Proofs.Template.Inclusion

/-!
# Unused fallbacks

An include element is read through the filter that computes expressions, and so are its fallbacks. If the template that
it names is there, their content is thrown away, and a template renders to the same with any other content whose
expressions do nothing (`Template.fallback_ignored`). They are computed nevertheless, and rendering fails where one of them
does (`Template.fallback_computed`).
-/

open Stencil.Stream

namespace Stencil

namespace Template

/-- The template with other events. -/
def holding (t : Template) (es : List Event) : Template := { t with events := es }

theorem around_holding {R : Stream → Stream → Prop} {es es' : List Event} (t : Template)
    (h : R (.ofEvents es) (.ofEvents es')) : Around R (t.holding es).expansion (t.holding es').expansion := by
  have sources : Around R (t.holding es).source (t.holding es').source := .filtered t.expansionFilters (.here h)
  have filename : (t.holding es).filename = (t.holding es').filename := rfl
  exact .filtered t.postFilters (.expanded filename rfl .zero sources)

/-- **The content of a fallback that is not used does not matter**, as long as computing it does nothing.

Two templates differ in some parts of their events. If these are the content of the fallback of an include element
wherever they are read, if the template that the element names can be found, and if the expressions in them neither fail
nor change the store nor give streams, then rendering gives the same text or the same failure. -/
theorem fallback_ignored (t : Template) (before behind : List Event) (content other : List Part) (s : Store) (k : Nat)
    (ignored : ∀ es x q, Run k (t.holding (before ++ (Part.eventsOf content ++ behind))).expansion s es x q →
      x.upcoming? = some (Part.eventsOf content ++ behind) →
        Ignores k (Part.eventsOf content) (Part.eventsOf other) x q) (o : Except Stop Text) :
    Xml.Renders k .fresh (t.holding (before ++ (Part.eventsOf content ++ behind))).expansion s o ↔
      Xml.Renders k .fresh (t.holding (before ++ (Part.eventsOf other ++ behind))).expansion s o :=
  renders_unused (t.around_holding ⟨before, rfl, rfl⟩) ignored .fresh o

/-- What `ignored` asks of a state, but for the expressions, if the content is read from lists of the given length. -/
def isIgnored (length : Nat) (x : Stream) (q : Store) : Bool :=
  x.upcoming?.map List.length != some length || x.includer?.any fun p =>
    p.2.depth == 2 && p.2.inFallback && q.finds (p.2.attributes.textOf "href") p.1

theorem ignores_of_isIgnored {length k : Nat} {es es' rest : List Event} {x : Stream} {q : Store}
    (h : isIgnored length x q = true) (reads : x.upcoming? = some rest) (same : rest.length = length)
    (inert : ∀ e ∈ es, e.Inert k q) (inert' : ∀ e ∈ es', e.Inert k q) : Ignores k es es' x q := by
  simp only [isIgnored, reads, Option.map_some, same, bne_self_eq_false, Bool.false_or, Option.any_eq_true] at h
  obtain ⟨⟨filename, i⟩, includer, here⟩ := h
  simp only [Bool.and_eq_true, beq_iff_eq] at here
  exact ⟨⟨filename, i, includer, here.1.1, here.1.2, here.2⟩, inert, inert'⟩

/-- A template that computes expressions, then replaces include elements. -/
def includingTemplate : Template :=
  ⟨0, "/W/main.xml", [], [.evaluate, .inclusion "/W/main.xml"], [], [.tidy]⟩

/-- A number that is computed in an unused fallback, and a text in its place. -/
theorem fallback_ignored_number :
    let number : List Part := [.leaf (.expression ⟨2, 0⟩ ⟨"1"⟩) rfl rfl]
    let words : List Part := [.leaf (.text ⟨2, 0⟩ "c") rfl rfl]
    let template (content : List Part) : Template := includingTemplate.holding
      (declaring (includeElement 2 "part.xml" (fallbackElement (Part.eventsOf content))))
    Xml.Renders 100 .fresh (template number).expansion partStore (.ok "<a><p>a\n  b</p></a>") ∧
      Xml.Renders 100 .fresh (template words).expansion partStore (.ok "<a><p>a\n  b</p></a>") := by
  intro number words template
  have outcome : (Xml.renderFrom [] 100 .fresh (template number).expansion partStore).outcome.toOption =
    some "<a><p>a\n  b</p></a>" := by decide +kernel
  have renders : Xml.Renders 100 .fresh (template number).expansion partStore (.ok "<a><p>a\n  b</p></a>") := by
    obtain ⟨o, renders, same⟩ := Xml.renders_of_renderFrom (k := 100) (Nat.le_refl 100) [] (by
      intro lacks
      rw [lacks] at outcome
      cases outcome)
    rw [same] at outcome
    cases o with
    | error => cases outcome
    | ok text =>
      cases outcome
      exact renders
  refine ⟨renders, (fallback_ignored includingTemplate
    [.startNamespace ⟨1, 0⟩ "xi" includeNamespace, .startTag ⟨1, 0⟩ (.plain "a") [],
      .startTag ⟨2, 2⟩ includeName [⟨.plain "href", [.literal "part.xml"]⟩], .startTag ⟨2, 0⟩ fallbackName []]
    [.endTag ⟨2, 0⟩ fallbackName, .endTag ⟨2, 2⟩ includeName, .endTag ⟨3, 0⟩ (.plain "a"), .endNamespace ⟨3, 0⟩ "xi"]
    number words partStore 100 (fun es x q run reads => ?_) _).1 renders⟩
  have everywhere : everyState (isIgnored 5) 100 100 (template number).expansion partStore = true := by decide +kernel
  have computed : (Event.expression ⟨2, 0⟩ ⟨"1"⟩).Inert 100 q := ⟨.int 1, rfl, by simp⟩
  exact ignores_of_isIgnored (test_of_everyState everywhere run) reads rfl (List.forall_mem_singleton.2 computed)
    (List.forall_mem_singleton.2 trivial)

/-! ## Two files -/

/-- A document that includes the part, with a text in the fallback. -/
def fallbackDocument (content : Text) : List Callback :=
  [.startElement ⟨1, 3⟩ ⟨"a", none, none⟩ [⟨some "xi", some includeNamespace⟩] [],
    .startElement ⟨1, 33⟩ ⟨"include", some "xi", some includeNamespace⟩ [] [⟨⟨"href", none, none⟩, "part.xml"⟩],
    .startElement ⟨1, 46⟩ ⟨"fallback", some "xi", some includeNamespace⟩ [] [], .characters ⟨1, 52⟩ content,
    .endElement ⟨1, 66⟩ ⟨"fallback", some "xi", some includeNamespace⟩,
    .endElement ⟨1, 79⟩ ⟨"include", some "xi", some includeNamespace⟩, .endElement ⟨1, 83⟩ ⟨"a", none, none⟩]

/-- The text of the including file, loaded from beside the part, or why there is none. -/
def renderedWith (content : Text) : Except Stop Text :=
  let files := partFiles.add "/W/main.xml" (.document (fallbackDocument content)) ⟨0, 0⟩
  let s := { partStore with files := files.system 0 }
  match s.load (.ofSearchPath ["/W"] true) "main.xml" [] with
  | (.ok t, s) => (t.render 200 s).1
  | (.error f, _) => .error (.fault f)

/-- Where a division by zero is, if that is why there is no text. -/
def divisionPlace? : Except Stop Text → Option SourcePlace
  | .error (.fault (.evaluation .divisionByZero place)) => some place
  | _ => none

theorem of_divisionPlace {o : Except Stop Text} {place : SourcePlace} (h : divisionPlace? o = some place) :
    o = .error (.fault (.evaluation .divisionByZero place)) := by
  unfold divisionPlace? at h
  split at h
  · cases h
    rfl
  · cases h

/-- **The expressions of an unused fallback are computed**: with a text in the fallback the including file has a text, the
same for all of them, and with a division by zero in it, it has none, although the part is there. -/
theorem fallback_computed :
    (renderedWith "c").toOption = some "<a><p>a\n  b</p></a>" ∧ (renderedWith "").toOption = some "<a><p>a\n  b</p></a>" ∧
      renderedWith "$\x7b1/0\x7d" = .error (.fault (.evaluation .divisionByZero ⟨"/W/main.xml", 1, 45⟩)) :=
  ⟨by decide +kernel, by decide +kernel, of_divisionPlace (by decide +kernel)⟩

end Template

end Stencil
