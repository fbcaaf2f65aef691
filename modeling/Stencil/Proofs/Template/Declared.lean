import Stencil.Proofs.Template.Namespaced

/-!
# Declarations of namespaces stay with their elements

An element that is looped or left out takes its tags with it, but not the declarations before its start tag
(`Template.rendered_undeclared`, `Template.rendered_misdeclared`). If no element with a directive declares
namespaces, what is rendered is well-formed as far as namespaces go (`Template.rendered_namespaces`): all
prefixes are declared, and each tag has the declarations of the element it comes from.
-/

open Stencil.Stream

namespace Stencil

variable {document es fs : List Event} {scope : List Text}

/-! ## What a document compiles to -/

theorem elementsOf_element {children rest : List Event} (ds : List (Position × Text × Text)) (p : Position) (name : QName)
    (as : Attributes) (q : Position) (endName : QName)
    (inside : ∀ fs, elementsOf [] (children ++ fs) = elementsOf [] children ++ elementsOf [] fs) :
    elementsOf [] (declarations ds ++ .startTag p name as :: (children ++ .endTag q endName :: rest)) =
      (ds.map (·.2), .startTag p name as) :: (elementsOf [] children ++ elementsOf [] rest) := by
  rw [elementsOf_declarations, List.nil_append]
  exact congrArg _ (inside (.endTag q endName :: rest))

theorem elementsOf_append {bound : List (Text × Text)} (h : Namespaced bound es) (fs : List Event) :
    elementsOf [] (es ++ fs) = elementsOf [] es ++ elementsOf [] fs := by
  induction h generalizing fs with
  | nil => rfl
  | @other scope e rest noStart noEnd noNamespace after ih =>
    cases e with
    | startTag => cases noStart
    | startNamespace p pre uri => exact absurd rfl (noNamespace p pre uri)
    | _ => exact ih fs
  | @element scope children rest ds p name as q endName bound inside after ih ih' =>
    rw [List.append_assoc, List.cons_append, List.append_assoc, List.cons_append, elementsOf_element _ _ _ _ _ _ ih,
      elementsOf_element _ _ _ _ _ _ ih, ih', List.cons_append, List.append_assoc]

theorem Woven.append (h : ∀ e ∈ es, e.isLeaf = true ∧ e.isStart = false ∧ e.isEnd = false ∧
    ∀ p pre uri, e ≠ .startNamespace p pre uri) (after : Woven document scope fs) : Woven document scope (es ++ fs) := by
  induction es with
  | nil => exact after
  | cons e es ih =>
    obtain ⟨⟨leaf, noStart, noEnd, noNamespace⟩, others⟩ := List.forall_mem_cons.1 h
    exact .other leaf noStart noEnd noNamespace (ih others)

namespace Compile

/-- A document that is well-formed as far as namespaces go, in which directives only loop and test. -/
structure RepeatingDocument (es : List Event) : Prop where
  nested : WellNested es
  namespaced : Namespaced [] es
  distinct : ∀ p name as, .startTag p name as ∈ es → Attributes.Distinct as
  foreign : ∀ p name as, .startTag p name as ∈ es → name.uri ≠ Template.directiveNamespace
  repeating : ∀ p name as, .startTag p name as ∈ es → ∀ a ∈ as, isDirective a = true →
    ∃ n ∈ [DirectiveName.loop, .condition], a.name.base = n.spelling

theorem RepeatingDocument.plain (h : RepeatingDocument es) : PlainDocument es where
  nested := h.nested
  distinct := h.distinct
  plain p name as member a ha directive := by
    obtain ⟨n, hn, spelled⟩ := h.repeating p name as member a ha directive
    exact ⟨n, (by decide : [DirectiveName.loop, .condition] ⊆ DirectiveName.plain) hn, spelled⟩

theorem readNamed_repeating {n : DirectiveName} (repeating : n ∈ [DirectiveName.loop, .condition]) {value : Text}
    {place : SourcePlace} {body : BodyId} {r : DirectiveReading} (h : Directive.readNamed n value place body = .ok r) :
    r.directive.isRepeating = true := by
  cases readsTo_of_readNamed h with
  | loop | condition => rfl
  | _ => simp at repeating

variable {t : Target} {index : Nat}

theorem readingsOf_repeating {p : Position} {as : Attributes} (distinct : as.Distinct)
    (repeating : ∀ a ∈ as, isDirective a = true → ∃ n ∈ [DirectiveName.loop, .condition], a.name.base = n.spelling)
    {rs : List DirectiveReading} (h : readingsOf t index p as = .ok rs) : ∀ r ∈ rs, r.directive.isRepeating = true := by
  intro r hr
  obtain ⟨all, -⟩ := readings_ranked (distinct.filter _) (fun a ha => (List.mem_filter.1 ha).2) h
  obtain ⟨a, ha, -, -, -, read⟩ := all r hr
  obtain ⟨member, directive⟩ := List.mem_filter.1 ha
  obtain ⟨n, hn, spelled⟩ := repeating a member directive
  obtain ⟨m, spelling, known, named⟩ := readNamed_of_read read
  have builtin : n ∈ t.registry.names := Registry.mem_names.2 (.inl
    ((by decide : [DirectiveName.loop, .condition] ⊆ DirectiveName.builtins) hn))
  obtain rfl : m = n := Registry.spelling_inj known builtin (spelling.trans spelled)
  exact readNamed_repeating hn named

/-- The declarations that a template keeps. -/
def foreignDeclarations (ds : List (Position × Text × Text)) : List (Position × Text × Text) := ds.filter fun d => isForeign d.2

theorem map_foreignDeclarations (ds : List (Position × Text × Text)) :
    (foreignDeclarations ds).map (·.2) = (ds.map (·.2)).filter isForeign := by
  rw [foreignDeclarations, List.filter_map]
  rfl

theorem run_declarations {ds : List (Position × Text × Text)} {s s' : State} (h : run t s (declarations ds) index = .ok s') :
    Extended s (declarations (foreignDeclarations ds)) s' := by
  induction ds generalizing s index with
  | nil =>
    cases h
    exact .refl _
  | cons d ds ih =>
    obtain ⟨p, pre, uri⟩ := d
    change run t s (.startNamespace p pre uri :: declarations ds) index = .ok s' at h
    rw [run_cons] at h
    have rest := ih h
    by_cases own : uri = Template.directiveNamespace
    · simp only [own, beq_self_eq_true, if_true] at rest
      have dropped : foreignDeclarations ((p, pre, uri) :: ds) = foreignDeclarations ds :=
        List.filter_cons_of_neg (by simp [isForeign, own])
      rw [dropped]
      exact ⟨rest.carriers, rest.level, rest.output⟩
    · simp only [beq_eq_false_iff_ne.2 own, Bool.false_eq_true, if_false] at rest
      have kept : foreignDeclarations ((p, pre, uri) :: ds) = (p, pre, uri) :: foreignDeclarations ds :=
        List.filter_cons_of_pos (by simp [isForeign, own])
      rw [kept]
      have pushed : Extended s [.startNamespace p pre uri] (s.push (.startNamespace p pre uri)) := ⟨rfl, rfl, rfl⟩
      exact pushed.trans rest

/-- An event that is no tag gives events that are none either. -/
theorem step_other {e : Event} (markup : e.isMarkup = true) (noStart : e.isStart = false) (noEnd : e.isEnd = false)
    (noNamespace : ∀ p pre uri, e ≠ .startNamespace p pre uri) {s s' : State} (h : step t s (e, index) = .ok s') :
    ∃ out, Extended s out s' ∧ ∀ x ∈ out, x.isLeaf = true ∧ x.isStart = false ∧ x.isEnd = false ∧
      ∀ p pre uri, x ≠ .startNamespace p pre uri := by
  cases e with
  | startTag => cases noStart
  | endTag => cases noEnd
  | startNamespace p pre uri => exact absurd rfl (noNamespace p pre uri)
  | blank | expression | sub => cases markup
  | text p text =>
    cases h
    refine ⟨textEvents p text, ⟨rfl, rfl, rfl⟩, fun x hx => ?_⟩
    obtain ⟨f, -, rfl⟩ := List.mem_map.1 hx
    cases f <;> exact ⟨rfl, rfl, rfl, by simp⟩
  | endNamespace p pre =>
    cases h
    split
    · exact ⟨[], ⟨rfl, rfl, rfl⟩, by simp⟩
    · exact ⟨[.endNamespace p pre], ⟨rfl, rfl, rfl⟩, by simp [Event.isLeaf, Event.isStart, Event.isEnd]⟩
  | comment | instruction | doctype =>
    cases h
    exact ⟨[_], ⟨rfl, rfl, rfl⟩, List.forall_mem_singleton.2 ⟨rfl, rfl, rfl, by simp⟩⟩

/-- A name of the document that is bound has its prefix among those that the template keeps. -/
theorem inScope_of_bound {bound : List (Text × Text)} {n : QName} (h : n.IsBound bound)
    (foreign : n.uri ≠ Template.directiveNamespace) :
    n.IsColonless ∧ n.IsInScope ((bound.filter isForeign).map (·.1)) := by
  refine ⟨h.1, h.2.imp_right (Or.imp_right fun found => ?_)⟩
  exact List.mem_map.2 ⟨_, List.mem_filter.2 ⟨List.mem_of_find?_eq_some found, by simpa [isForeign] using foreign⟩, rfl⟩

theorem names_ordinary (as : Attributes) : ((ordinaryAttributes as).map (·.name)).Sublist (as.map (·.name)) := by
  rw [ordinaryAttributes, List.map_map]
  exact List.filter_sublist.map _

theorem foreign_ordinary {as : Attributes} {n : QName} (h : n ∈ (ordinaryAttributes as).map (·.name)) :
    n.uri ≠ Template.directiveNamespace := by
  rw [ordinaryAttributes, List.map_map] at h
  obtain ⟨a, ha, rfl⟩ := List.mem_map.1 h
  simpa [isDirective] using (List.mem_filter.1 ha).2

/-- A document whose elements with directives declare nothing compiles to whole elements. -/
theorem woven_run {bound : List (Text × Text)} (h : Namespaced bound es) (whole : RepeatingDocument document)
    (undeclared : ∀ d p name as, (d, .startTag p name as) ∈ elementsOf [] document → as.any isDirective = true →
      d.filter isForeign = [])
    (sub : ∀ e ∈ es, e ∈ document) (elements : ∀ x ∈ elementsOf [] es, x ∈ elementsOf [] document)
    {s s' : State} (r : run t s es index = .ok s') :
    ∃ out, Extended s out s' ∧ Woven document ((bound.filter isForeign).map (·.1)) out := by
  induction h generalizing s s' index with
  | nil =>
    cases r
    exact ⟨[], .refl s, .nil _⟩
  | @other bound e rest noStart noEnd noNamespace after ih =>
    obtain ⟨first, sub⟩ := List.forall_mem_cons.1 sub
    have elements : ∀ x ∈ elementsOf [] rest, x ∈ elementsOf [] document := by
      cases e with
      | startTag => cases noStart
      | startNamespace p pre uri => exact absurd rfl (noNamespace p pre uri)
      | _ => exact elements
    obtain ⟨s₁, read, r⟩ := run_cons_ok.1 r
    obtain ⟨out, extended, plain⟩ := step_other (whole.nested.markup e first) noStart noEnd noNamespace read
    obtain ⟨outs, extended', woven⟩ := ih sub elements r
    exact ⟨out ++ outs, extended.trans extended', .append plain woven⟩
  | @element bound children rest ds p name as q endName binds inside after ih ih' =>
    rw [elementsOf_element _ _ _ _ _ _ (elementsOf_append inside)] at elements
    obtain ⟨own, elements⟩ := List.forall_mem_cons.1 elements
    have member : Event.startTag p name as ∈ document := sub _ (by simp)
    obtain ⟨s₁, declares, r⟩ := run_append_ok.1 r
    have declared := run_declarations declares
    obtain ⟨_, start, r⟩ := run_cons_ok.1 r
    obtain ⟨readings, read, rfl⟩ := step_startTag_ok.1 start
    obtain ⟨s₂, content, r⟩ := run_append_ok.1 r
    obtain ⟨out, extended, woven⟩ := ih (fun e he => sub e (by simp [he]))
      (fun x hx => elements x (List.mem_append_left _ hx)) content
    obtain ⟨outs, extended', woven'⟩ := ih' (fun e he => sub e (by simp [he]))
      (fun x hx => elements x (List.mem_append_right _ hx)) r
    have closed := extended_element readings p q name endName _ extended
    refine ⟨_, (declared.trans closed).trans extended', ?_⟩
    have scope : ((ds.map (·.2) ++ bound).filter isForeign).map (·.1) =
        (foreignDeclarations ds).map (·.2.1) ++ (bound.filter isForeign).map (·.1) := by
      rw [List.filter_append, List.map_append, ← map_foreignDeclarations, List.map_map]
      rfl
    have names : ∀ n ∈ name :: (ordinaryAttributes as).map (·.name), n.IsColonless ∧
        n.IsInScope ((foreignDeclarations ds).map (·.2.1) ++ (bound.filter isForeign).map (·.1)) := by
      intro n hn
      rw [← scope]
      rcases List.mem_cons.1 hn with rfl | hn
      · exact inScope_of_bound (binds _ List.mem_cons_self) (whole.foreign p _ as member)
      · exact inScope_of_bound (binds n (List.mem_cons_of_mem _ ((names_ordinary as).subset hn))) (foreign_ordinary hn)
    have stems : StemsFrom document ((foreignDeclarations ds).map (·.2), .startTag p name (ordinaryAttributes as)) :=
      ⟨_, p, name, _, as, own, by rw [map_foreignDeclarations], names_ordinary as⟩
    rw [scope] at woven
    by_cases plain : readings.isEmpty = true
    · rw [wrap, if_pos plain]
      have element := Woven.element _ p name _ q endName names stems woven woven'
      simpa using element
    · have directive : as.any isDirective = true := by
        rw [List.any_eq_true]
        by_contra none
        have empty : as.filter isDirective = [] := List.filter_eq_nil_iff.2 fun a ha directive => none ⟨a, ha, directive⟩
        rw [readingsOf, empty] at read
        cases read
        exact plain rfl
      have nothing : foreignDeclarations ds = [] := by
        have := undeclared _ p name as own directive
        rwa [← map_foreignDeclarations, List.map_eq_nil_iff] at this
      rw [wrap, if_neg plain, nothing]
      rw [nothing] at names stems woven
      have element := Woven.element [] p name _ q endName names stems woven (.nil _)
      refine .sub p _ (fun d hd => ?_) element woven'
      obtain ⟨r, hr, rfl⟩ := List.mem_map.1 ((List.perm_insertionSort _ _).mem_iff.1 hd)
      exact readingsOf_repeating (whole.distinct p name as member) (whole.repeating p name as member) read r hr

/-- A document whose elements with directives declare nothing has a template of whole elements. -/
theorem woven_template (whole : RepeatingDocument document)
    (undeclared : ∀ d p name as, (d, .startTag p name as) ∈ elementsOf [] document → as.any isDirective = true →
      d.filter isForeign = []) {template : Template} (compiled : Compile.template t document = .ok template) :
    Woven document [] template.events ∧ template.postFilters = [.tidy] := by
  obtain ⟨s, read, rfl⟩ := template_ok compiled
  obtain ⟨out, ⟨carriers, level, output⟩, woven⟩ := woven_run whole.namespaced whole undeclared (fun e he => he)
    (fun x hx => hx) read
  have events : (State.finished t s).events = out := by
    rw [State.finished, State.events_eq, carriers, output]
    simp [State.initial]
  rw [events]
  exact ⟨woven, rfl⟩

end Compile

namespace Template

open Xml

variable {target : Compile.Target} {t : Template} {s : Store}

/-- **What is rendered is well-formed as far as namespaces go** if elements with directives declare none. In a
context without streams, the text is one of tokens in which each prefix is declared by its tag or an enclosing
one, and the declarations of each tag are those of an element of the document. -/
theorem rendered_namespaces (document : Compile.RepeatingDocument es)
    (undeclared : ∀ d p name as, (d, .startTag p name as) ∈ elementsOf [] es → as.any Compile.isDirective = true →
      d.filter isForeign = [])
    (compiled : Compile.template target es = .ok t) (streamless : s.context.From .streamless) {fuel : Nat} {text : Text}
    (rendered : (t.render fuel s).1 = .ok text) :
    ∃ toks : List Xml.Token, text = toks.flatMap Xml.Token.written ∧ PrefixesDeclared [] toks ∧
      ∀ tag ∈ toks.filterMap Xml.Token.tag?, ∃ d p name as, StemsFrom es (d, .startTag p name as) ∧ tag = tagOf d name as := by
  obtain ⟨fs, v, r, completes, -, written⟩ := completes_of_render rendered
  obtain ⟨woven, last⟩ := Compile.woven_template document undeclared compiled
  obtain ⟨plain, structured⟩ := Compile.structured_of_template document.plain compiled
  obtain ⟨stop?, w, q, stops, expands⟩ := completes_expanded plain structured streamless fuel
  obtain ⟨rfl, rfl, -, -⟩ := (expands.expansion last).unique completes
  have block : Block es [] (Event.meaningOf fuel t.events s).events := by
    cases meaning : Event.meaningOf fuel t.events s with
    | mk events result =>
      rw [meaning] at stops
      cases result with
      | error => cases stops
      | ok q => exact givesBlock_meaningOf woven s events q meaning
  refine ⟨_, written, prefixesDeclared_tokensFrom .nil ((prefixesInScope_tidyFrom none).2 ?_), fun tag member => ?_⟩
  · have inScope := block.inScope [] [] (by simp) trivial
    rwa [List.append_nil] at inScope
  · obtain ⟨d, p, name, as, element, rfl⟩ := tag_of_tokensFrom member
    rw [elementsOf_tidyFrom] at element
    rcases block.stems [] (d, .startTag p name as) (by rwa [List.append_nil]) with stems | none
    · exact ⟨d, p, name, as, stems, rfl⟩
    · cases none

/-- An element in a namespace with a loop inside, which uses its prefix. -/
def catalogue : List Event :=
  [.startNamespace ⟨1, 0⟩ "p" "urn:p", .startNamespace ⟨1, 0⟩ "py" directiveNamespace,
    .startTag ⟨1, 0⟩ ⟨"urn:p", "p", "a"⟩ [],
    .startTag ⟨1, 9⟩ (.plain "b") [⟨⟨directiveNamespace, "py", "for"⟩, [.literal "i in [1, 2]"]⟩,
      ⟨⟨"urn:p", "p", "k"⟩, [.literal "$i"]⟩],
    .endTag ⟨1, 20⟩ (.plain "b"), .endTag ⟨1, 30⟩ ⟨"urn:p", "p", "a"⟩, .endNamespace ⟨1, 30⟩ "py", .endNamespace ⟨1, 30⟩ "p"]

def catalogueTemplate : Template :=
  ⟨0, "t.xml", [.startNamespace ⟨1, 0⟩ "p" "urn:p", .startTag ⟨1, 0⟩ ⟨"urn:p", "p", "a"⟩ [],
    .sub ⟨1, 9⟩ [.loop ["i"] ⟨"[1, 2]"⟩]
      [.startTag ⟨1, 9⟩ (.plain "b") [⟨⟨"urn:p", "p", "k"⟩, [.expression ⟨"i"⟩]⟩], .endTag ⟨1, 20⟩ (.plain "b")],
    .endTag ⟨1, 30⟩ ⟨"urn:p", "p", "a"⟩, .endNamespace ⟨1, 30⟩ "p"], [.evaluate], [], [.tidy]⟩

theorem streamless_firstStore : (firstStore.against []).context.From .streamless := by
  intro f hf
  rw [List.mem_singleton.1 hf]
  exact fun e he => absurd he List.not_mem_nil

theorem rendered_namespaces_loop :
    ((catalogueTemplate.render 60 (firstStore.against [])).1).toOption =
        some "<p:a xmlns:p=\"urn:p\"><b p:k=\"1\"/><b p:k=\"2\"/></p:a>" ∧
      ∃ toks : List Xml.Token,
        "<p:a xmlns:p=\"urn:p\"><b p:k=\"1\"/><b p:k=\"2\"/></p:a>" = toks.flatMap Xml.Token.written ∧
          PrefixesDeclared [] toks := by
  have rendered : ((catalogueTemplate.render 60 (firstStore.against [])).1).toOption =
      some "<p:a xmlns:p=\"urn:p\"><b p:k=\"1\"/><b p:k=\"2\"/></p:a>" := by decide +kernel
  refine ⟨rendered, ?_⟩
  have namespaced : Namespaced [] catalogue := by
    refine .element [(⟨1, 0⟩, "p", "urn:p"), (⟨1, 0⟩, "py", directiveNamespace)] ⟨1, 0⟩ _ _ ⟨1, 30⟩ _ ?_
      (.element [] ⟨1, 9⟩ _ _ ⟨1, 20⟩ _ ?_ (.nil _) (.nil _))
      (.other rfl rfl (by simp) (.other rfl rfl (by simp) (.nil _))) <;> decide
  have tags : ∀ p name as, .startTag p name as ∈ catalogue → Attributes.Distinct as ∧ name.uri ≠ directiveNamespace ∧
      ∀ a ∈ as, Compile.isDirective a = true → ∃ n ∈ [DirectiveName.loop, .condition], a.name.base = n.spelling := by
    intro p name as h
    simp only [catalogue, List.mem_cons, List.not_mem_nil, or_false, reduceCtorEq, false_or, Event.startTag.injEq] at h
    rcases h with ⟨-, rfl, rfl⟩ | ⟨-, rfl, rfl⟩
    · exact ⟨List.Pairwise.nil, by decide, by decide⟩
    · exact ⟨List.pairwise_pair.2 (by decide), by decide, by decide⟩
  have document : Compile.RepeatingDocument catalogue :=
    ⟨⟨by decide, by decide⟩, namespaced, fun p name as h => (tags p name as h).1, fun p name as h => (tags p name as h).2.1,
      fun p name as h => (tags p name as h).2.2⟩
  have undeclared : ∀ d p name as, (d, .startTag p name as) ∈ elementsOf [] catalogue →
      as.any Compile.isDirective = true → d.filter isForeign = [] := by
    intro d p name as h
    simp only [catalogue, elementsOf, List.mem_cons, List.not_mem_nil, or_false, Prod.mk.injEq, Event.startTag.injEq] at h
    rcases h with ⟨-, -, -, rfl⟩ | ⟨rfl, -⟩
    · exact fun none => absurd none (by simp)
    · exact fun _ => rfl
  have compiled : Compile.template ⟨0, "t.xml", .empty⟩ catalogue = .ok catalogueTemplate := rfl
  cases result : (catalogueTemplate.render 60 (firstStore.against [])).1 with
  | error e =>
    rw [result] at rendered
    cases rendered
  | ok text =>
    rw [result] at rendered
    cases rendered
    obtain ⟨toks, written, declared, -⟩ := rendered_namespaces document undeclared compiled streamless_firstStore result
    exact ⟨toks, written, declared⟩

/-- An element that declares a namespace and has a directive, and one after it. -/
def shelf (directive value : Text) : List Event :=
  [.startNamespace ⟨1, 0⟩ "py" directiveNamespace, .startTag ⟨1, 0⟩ (.plain "a") [], .startNamespace ⟨1, 9⟩ "p" "urn:p",
    .startTag ⟨1, 9⟩ ⟨"urn:p", "p", "b"⟩ [⟨⟨directiveNamespace, "py", directive⟩, [.literal value]⟩],
    .endTag ⟨1, 20⟩ ⟨"urn:p", "p", "b"⟩, .endNamespace ⟨1, 20⟩ "p", .startTag ⟨1, 30⟩ (.plain "c") [],
    .endTag ⟨1, 40⟩ (.plain "c"), .endTag ⟨1, 50⟩ (.plain "a"), .endNamespace ⟨1, 50⟩ "py"]

theorem repeatingDocument_shelf {n : DirectiveName} (h : n ∈ [DirectiveName.loop, .condition]) (value : Text) :
    Compile.RepeatingDocument (shelf n.spelling value) := by
  have nested : WellNested (shelf n.spelling value) := ⟨by simp [shelf, Event.isMarkup], rfl⟩
  have tags : ∀ p name as, .startTag p name as ∈ shelf n.spelling value → Attributes.Distinct as ∧
      name.uri ≠ directiveNamespace ∧ ∀ a ∈ as, a.name.base = n.spelling := by
    intro p name as h
    simp only [shelf, List.mem_cons, List.not_mem_nil, or_false, reduceCtorEq, false_or, Event.startTag.injEq] at h
    rcases h with ⟨-, rfl, rfl⟩ | ⟨-, rfl, rfl⟩ | ⟨-, rfl, rfl⟩
    · exact ⟨.nil, by decide, by simp⟩
    · exact ⟨List.pairwise_singleton _ _, by decide, by simp⟩
    · exact ⟨.nil, by decide, by simp⟩
  have colonless : ∀ n ∈ [DirectiveName.loop, .condition], (':' : Byte) ∉ n.spelling := by decide
  have short : (':' : Byte) ∉ ("py" : Text) := by decide
  have namespaced : Namespaced [] (shelf n.spelling value) := by
    refine .element [(⟨1, 0⟩, "py", directiveNamespace)] ⟨1, 0⟩ _ _ ⟨1, 50⟩ _ ?_
      (.element [(⟨1, 9⟩, "p", "urn:p")] ⟨1, 9⟩ _ _ ⟨1, 20⟩ _ (List.forall_mem_cons.2 ⟨?_, ?_⟩) (.nil _)
        (.other rfl rfl (by simp) (.element [] ⟨1, 30⟩ _ _ ⟨1, 40⟩ _ ?_ (.nil _) (.nil _)))) (.other rfl rfl (by simp) (.nil _))
    · decide
    · decide
    · exact List.forall_mem_singleton.2 ⟨⟨short, colonless n h⟩, .inr (.inr rfl)⟩
    · decide
  exact ⟨nested, namespaced, fun p name as h => (tags p name as h).1, fun p name as h => (tags p name as h).2.1,
    fun p name as member a ha _ => ⟨n, h, (tags p name as member).2.2 a ha⟩⟩

/-- A loop repeats a tag without its declaration, and a condition leaves the declaration of its element to the
next tag. -/
theorem declarations_left_behind :
    (Compile.RepeatingDocument (shelf "for" "i in [1, 2]") ∧
      ∃ t, Compile.template ⟨0, "t.xml", .empty⟩ (shelf "for" "i in [1, 2]") = .ok t ∧
        (t.render 60 (firstStore.against [])).1.toOption = some "<a><p:b xmlns:p=\"urn:p\"/><p:b/><c/></a>" ∧
        ∃ toks, tokens "<a><p:b xmlns:p=\"urn:p\"/><p:b/><c/></a>" = .ok toks ∧ ¬PrefixesDeclared [] toks) ∧
    Compile.RepeatingDocument (shelf "if" "False") ∧
      ∃ t, Compile.template ⟨0, "t.xml", .empty⟩ (shelf "if" "False") = .ok t ∧
        (t.render 60 (firstStore.against [])).1.toOption = some "<a><c xmlns:p=\"urn:p\"/></a>" ∧
        ∃ toks, tokens "<a><c xmlns:p=\"urn:p\"/></a>" = .ok toks ∧ ∃ tag ∈ toks.filterMap Xml.Token.tag?,
          ¬∃ d p name as, StemsFrom (shelf "if" "False") (d, .startTag p name as) ∧ tag = tagOf d name as := by
  refine ⟨⟨repeatingDocument_shelf (n := .loop) (by decide) _, _, rfl, by decide +kernel, _, rfl, by decide +kernel⟩,
    repeatingDocument_shelf (n := .condition) (by decide) _, _, rfl, by decide +kernel, _, rfl,
    ⟨"c", [("xmlns:p", "urn:p")]⟩, by decide +kernel, ?_⟩
  rintro ⟨_, _, _, _, ⟨d, p, name, as, source, member, ⟨⟩, fewer⟩, written⟩
  obtain ⟨named, attributes⟩ := Tag.mk.inj written
  simp only [shelf, elementsOf, List.mem_cons, List.not_mem_nil, or_false, Prod.mk.injEq, Event.startTag.injEq] at member
  rcases member with ⟨-, -, rfl, -⟩ | ⟨-, -, rfl, -⟩ | ⟨rfl, -, -, rfl⟩
  · exact absurd named (by decide)
  · exact absurd named (by decide)
  · -- the element declares nothing and has no attributes
    rw [List.map_nil, List.sublist_nil, List.map_eq_nil_iff] at fewer
    rw [fewer] at attributes
    cases attributes

end Template

end Stencil
