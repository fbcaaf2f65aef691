import Stencil.Proofs.Document.Markup
import Stencil.Proofs.Template.Braced
import Stencil.Proofs.Template.Interpolated

/-!
# Literal documents

A document with every dollar of its texts and attribute values doubled, and without directives, says nothing to the
engine: it compiles, and its template comes to the events of the document itself, in any context
(`Template.literal_unchanged`). Only the texts are tidied, as in every template.
-/

open Stencil.Stream Stencil.Advance

namespace Stencil

/-! ## Doubled dollars -/

namespace Attribute

/-- The attribute with every dollar of its value doubled. -/
def doubled (a : Attribute) : Attribute := ⟨a.name, [.literal (Text.doubled a.text)]⟩

/-- The attribute with its value in one piece. -/
def joined (a : Attribute) : Attribute := ⟨a.name, [.literal a.text]⟩

/-- The attribute with its value in one piece, or in none if it is empty. -/
def bare (a : Attribute) : Attribute := ⟨a.name, if a.text = [] then [] else [.literal a.text]⟩

theorem text_literal (name : QName) (t : Text) : (⟨name, [.literal t]⟩ : Attribute).text = t := by
  simp [text, Fragment.literalText]

theorem text_bare (a : Attribute) : a.bare.text = a.text := by
  unfold bare
  split
  next empty => rw [empty]; rfl
  next => exact text_literal a.name a.text

theorem isLiteral_bare (a : Attribute) : a.bare.isLiteral = true := by
  unfold bare
  split <;> rfl

theorem joined_bare (a : Attribute) : a.bare.joined = a.joined := by
  rw [joined, text_bare]
  rfl

end Attribute

namespace Event

/-- The event with every dollar of its text and attribute values doubled. -/
def doubled : Event → Event
  | startTag p name as => startTag p name (as.map Attribute.doubled)
  | text p t => text p (Text.doubled t)
  | e => e

/-- The event with its attribute values in one piece each. -/
def joined : Event → Event
  | startTag p name as => startTag p name (as.map Attribute.joined)
  | e => e

/-- The event with its attribute values in one piece each, or in none. -/
def bare : Event → Event
  | startTag p name as => startTag p name (as.map Attribute.bare)
  | e => e

/-- No attribute of the event and no namespace that it declares is one of directives. -/
def IsForeign : Event → Prop
  | startTag _ _ as => ∀ a ∈ as, a.name.uri ≠ Template.directiveNamespace
  | startNamespace _ _ uri => uri ≠ Template.directiveNamespace
  | _ => True

instance : DecidablePred IsForeign
  | startTag .. => inferInstanceAs (Decidable (∀ a ∈ _, _))
  | startNamespace .. => inferInstanceAs (Decidable (_ ≠ _))
  | endTag .. | text .. | endNamespace .. | comment .. | instruction .. | doctype .. | blank | expression .. | sub .. =>
    .isTrue trivial

theorem IsForeign.doubled {e : Event} (h : e.IsForeign) : e.doubled.IsForeign := by
  cases e with
  | startTag p name as =>
    intro b hb
    obtain ⟨a, ha, rfl⟩ := List.mem_map.1 hb
    exact h a ha
  | _ => exact h

theorem joined_bare (e : Event) : e.bare.joined = e.joined := by
  cases e with
  | startTag p name as =>
    refine congrArg (startTag p name) ?_
    rw [List.map_map]
    exact List.map_congr_left fun a _ => a.joined_bare
  | _ => rfl

theorem isWritable_bare {e : Event} (markup : e.isMarkup = true) : e.bare.isWritable = true := by
  cases e with
  | startTag p name as => simp [bare, isWritable, Attribute.isLiteral_bare]
  | blank | expression | sub => cases markup
  | _ => rfl

/-- The attributes of an event in a document have their values in one piece. -/
theorem FromDocument.joined {e : Event} (h : e.FromDocument) : e.joined = e := by
  cases h with
  | text p some => rfl
  | startTag p name raw =>
    refine congrArg (Event.startTag p name) ((List.map_congr_left fun a ha => ?_).trans (List.map_id _))
    obtain ⟨name, value⟩ := a
    obtain ⟨t, rfl⟩ : ∃ t, value = [.literal t] := Document.whole_attributes raw _ ha
    rw [Attribute.joined, Attribute.text_literal]
    rfl
  | other markup noTag =>
    cases e with
    | startTag => cases noTag
    | _ => rfl

end Event

/-! ## Compiling -/

namespace Compile

variable {t : Target} {s : State} {i : Nat}

/-- There are no directives so far, and no declarations of their namespace. -/
structure State.IsPlain (s : State) : Prop where
  prefixes : s.prefixes = []
  carriers : s.carriers = []
  filters : s.filters = []

theorem readingsOf_foreign {p : Position} {as : Attributes} (h : ∀ a ∈ as, a.name.uri ≠ Template.directiveNamespace) :
    readingsOf t i p as = .ok [] := by
  have none : as.filter isDirective = [] := by
    rw [List.filter_eq_nil_iff]
    intro a ha
    simpa [isDirective] using h a ha
  rw [readingsOf, none]
  rfl

/-- An event without directives is compiled by itself. -/
theorem step_foreign (plain : s.IsPlain) {e : Event} (h : e.IsForeign) :
    ∃ s', step t s (e, i) = .ok s' ∧ s'.IsPlain ∧ s'.output = (leavesOf e).reverse ++ s.output := by
  obtain ⟨prefixes, carriers, filters⟩ := plain
  cases e with
  | startTag p name as =>
    refine ⟨s.openElement (.startTag p name (ordinaryAttributes as)) [], ?_, ⟨prefixes, carriers, ?_⟩, rfl⟩
    · rw [step_startTag, readingsOf_foreign h]
      rfl
    · exact List.append_eq_nil_iff.2 ⟨filters, rfl⟩
  | endTag p name =>
    refine ⟨_, rfl, ?_⟩
    have pushed : s.closeElement (.endTag p name) = { s.push (.endTag p name) with level := s.level - 1 } := by
      unfold State.closeElement
      rw [carriers]
    rw [pushed]
    exact ⟨⟨prefixes, carriers, filters⟩, rfl⟩
  | startNamespace p pre uri =>
    refine ⟨s.push (.startNamespace p pre uri), ?_, ⟨prefixes, carriers, filters⟩, rfl⟩
    have other : (uri == Template.directiveNamespace) = false := beq_eq_false_iff_ne.2 h
    simp [step, other]
  | endNamespace p pre =>
    refine ⟨s.push (.endNamespace p pre), ?_, ⟨prefixes, carriers, filters⟩, rfl⟩
    simp [step, prefixes]
  | _ => exact ⟨_, rfl, ⟨prefixes, carriers, filters⟩, rfl⟩

theorem run_foreign (plain : s.IsPlain) {es : List Event} (h : ∀ e ∈ es, e.IsForeign) :
    ∃ s', run t s es i = .ok s' ∧ s'.IsPlain ∧ s'.output = (es.flatMap leavesOf).reverse ++ s.output := by
  induction es generalizing s i with
  | nil => exact ⟨s, rfl, plain, rfl⟩
  | cons e es ih =>
    obtain ⟨first, others⟩ := List.forall_mem_cons.1 h
    obtain ⟨s', read, plain', output⟩ := step_foreign (t := t) (i := i) plain first
    obtain ⟨s'', more, plain'', rest⟩ := ih (i := i + 1) plain' others
    refine ⟨s'', ?_, plain'', by rw [rest, output]; simp⟩
    rw [run_cons, read]
    exact more

/-- **A document without directives compiles to its own events.** -/
theorem template_foreign (t : Target) {es : List Event} (h : ∀ e ∈ es, e.IsForeign) :
    template t es = .ok ⟨t.id, t.filename, es.flatMap leavesOf, [.evaluate], [], [.tidy]⟩ := by
  obtain ⟨s, read, plain, output⟩ := run_foreign (t := t) (i := 0) (s := .initial) ⟨rfl, rfl, rfl⟩ h
  rw [template_eq, read]
  change Except.ok (State.finished t s) = _
  rw [State.finished, State.events_eq, plain.carriers, plain.filters, output]
  simp [State.initial]

theorem ordinaryAttributes_doubled {as : Attributes} (h : ∀ a ∈ as, a.name.uri ≠ Template.directiveNamespace) :
    ordinaryAttributes (as.map Attribute.doubled) = as.map Attribute.bare := by
  have kept : (as.map Attribute.doubled).filter (!isDirective ·) = as.map Attribute.doubled := by
    rw [List.filter_eq_self]
    intro b hb
    obtain ⟨a, ha, rfl⟩ := List.mem_map.1 hb
    simpa [isDirective, Attribute.doubled] using h a ha
  rw [ordinaryAttributes, kept, List.map_map]
  refine List.map_congr_left fun a _ => ?_
  change Attribute.mk a.name (interpolate a.doubled.text) = a.bare
  rw [Attribute.doubled, Attribute.text_literal, interpolate_doubled]
  rfl

/-- With its dollars doubled, an event of a document compiles to what it was before. -/
theorem leavesOf_doubled {e : Event} (read : e.FromDocument) (foreign : e.IsForeign) : leavesOf e.doubled = [e.bare] := by
  cases read with
  | text p some =>
    rw [Event.doubled, leavesOf, textEvents, interpolate_doubled, if_neg some]
    rfl
  | startTag p name raw =>
    rw [Event.doubled, leavesOf, ordinaryAttributes_doubled foreign]
    rfl
  | other markup noTag noText =>
    cases e with
    | startTag => cases noTag
    | text p t => exact absurd rfl (noText p t)
    | blank | expression | sub => cases markup
    | _ => rfl

end Compile

/-! ## Expanding -/

variable {k : Nat} {s : Store} {es : List Event}

theorem Attributes.eval_literal {as : Attributes} (h : as.all (·.isLiteral) = true) :
    Attributes.eval k as s = .ok (as, s) := by
  induction as with
  | nil => rfl
  | cons a as ih =>
    rw [List.all_cons, Bool.and_eq_true] at h
    have first : Attribute.eval k a s = .ok (some a, s) := by
      rw [Attribute.eval, if_pos h.1]
      rfl
    rw [Attributes.eval, Eval.bind_of_ok first, Eval.bind_of_ok (ih h.2)]
    rfl

/-- An event without expressions comes out as it is, and changes nothing. -/
theorem evaluateEvent_writable {e : Event} (h : e.isWritable = true) (u : Stream) :
    evaluateEvent k e u s = .yield e (.evaluated u) s := by
  cases e with
  | startTag p name as => rw [evaluateEvent, Attributes.eval_literal h]
  | blank | expression | sub => cases h
  | _ => rfl

/-- So do all events of a template without expressions. -/
theorem completes_writable (t : Template) (last : Position) (h : ∀ e ∈ es, e.isWritable = true) :
    Completes k (.expanded t last (.evaluated (.ofEvents es))) s es none .empty s := by
  induction es generalizing last with
  | nil => exact ⟨_, _, .refl _ _, rfl⟩
  | cons e es ih =>
    obtain ⟨first, others⟩ := List.forall_mem_cons.1 h
    have next : step k (.expanded t last (.evaluated (.ofEvents (e :: es)))) s =
        .yield e (.expanded t e.position (.evaluated (.ofEvents es))) s := by
      change stepExpanded t last (evaluateEvent k e (.ofEvents es) s) = _
      rw [evaluateEvent_writable first]
      cases e with
      | sub => cases first
      | _ => rfl
    exact (ih e.position others).after (.single next)

/-- Tidying texts does not touch attribute values. -/
theorem joined_tidyFrom (stop? : Option Stop) (text? : Option (Position × Text)) (es : List Event) :
    (tidyFrom stop? text? es).map Event.joined = tidyFrom stop? text? (es.map Event.joined) := by
  have held (text? : Option (Position × Text)) : (tidyText text?).map Event.joined = tidyText text? := by
    cases text? <;> rfl
  induction es generalizing text? with
  | nil =>
    simp only [tidyFrom, List.map_nil]
    split
    · exact held text?
    · rfl
  | cons e es ih =>
    cases e with
    | text p t => exact ih _
    | _ => rw [tidyFrom_cons rfl, List.map_append, List.map_cons, held, ih, List.map_cons, tidyFrom_cons rfl]

namespace Template

/-- **Literal documents come out unchanged.** A document without directives, its dollars doubled, compiles to a
template that comes to the events of the document, whatever the store, and leaves no trace there. Texts are merged
and tidied. Attribute values have the same text, though an empty one is in no piece. -/
theorem literal_unchanged {document : List Callback} (read : Document.read document = .ok es)
    (foreign : ∀ e ∈ es, e.IsForeign) (target : Compile.Target) :
    ∃ t fs, (Compilation.ofEvents target (es.map Event.doubled)).result = .ok t ∧ (∀ e ∈ fs, e.isWritable = true) ∧
      fs.map Event.joined = tidyFrom none none es ∧
      ∀ s, ∃ n, ∀ fuel, n ≤ fuel → collect fuel none t.expansion s = ⟨fs, none, .tidied none none .empty, s⟩ := by
  have origin := Document.fromDocument_of_read read
  have compiled := Compile.template_foreign target (List.forall_mem_map.2 fun e he => (foreign e he).doubled)
  have leaves : (es.map Event.doubled).flatMap Compile.leavesOf = es.map Event.bare := by
    rw [List.flatMap_map, ← List.flatMap_pure_eq_map]
    exact List.flatMap_congr fun e he => Compile.leavesOf_doubled (origin e he) (foreign e he)
  have writable : ∀ e ∈ es.map Event.bare, e.isWritable = true :=
    List.forall_mem_map.2 fun e he => Event.isWritable_bare (origin e he).readable.markup
  have joined : (es.map Event.bare).map Event.joined = es := by
    rw [List.map_map]
    refine (List.map_congr_left fun e he => ?_).trans (List.map_id es)
    exact e.joined_bare.trans (origin e he).joined
  rw [leaves] at compiled
  refine ⟨⟨target.id, target.filename, es.map Event.bare, [.evaluate], [], [.tidy]⟩,
    tidyFrom none none (es.map Event.bare), ?_, writable_tidyFrom writable, ?_, fun s => ?_⟩
  · rw [Compilation.ofEvents, compiled]
  · rw [joined_tidyFrom, joined]
  · exact collect_of_completes (k := 0) nofun ((completes_writable _ .zero writable).expansion rfl)

/-- A document with dollars and braces that look like expressions. -/
def priceDocument : List Callback :=
  [.startElement ⟨1, 20⟩ ⟨"a", some "p", some "urn:p"⟩ [⟨some "p", some "urn:p"⟩]
      [⟨⟨"k", none, none⟩, "$\x7bx$"⟩, ⟨⟨"l", none, none⟩, []⟩],
    .characters ⟨1, 26⟩ "$$n $\x7b", .characters ⟨1, 30⟩ "f('\x7d')\x7d\n \n\n", .comment ⟨4, 10⟩ (some "$c"),
    .endElement ⟨4, 14⟩ ⟨"a", some "p", some "urn:p"⟩]

/-- What it is read to, with a given text. -/
def priceEvents (t : Text) : List Event :=
  [.startNamespace ⟨1, 0⟩ "p" "urn:p",
    .startTag ⟨1, 0⟩ ⟨"urn:p", "p", "a"⟩ [⟨.plain "k", [.literal "$\x7bx$"]⟩, ⟨.plain "l", [.literal []]⟩],
    .text ⟨1, 19⟩ t, .comment ⟨1, 29⟩ "$c", .endTag ⟨4, 9⟩ ⟨"urn:p", "p", "a"⟩, .endNamespace ⟨4, 9⟩ "p"]

theorem literal_unchanged_price :
    let es := priceEvents "$$n $\x7bf('\x7d')\x7d\n \n\n"
    Document.read priceDocument = .ok es ∧
      ∃ t fs, (Compilation.ofEvents ⟨0, "t.xml", .empty⟩ (es.map Event.doubled)).result = .ok t ∧
        (∀ e ∈ fs, e.isWritable = true) ∧ fs.map Event.joined = priceEvents "$$n $\x7bf('\x7d')\x7d\n" ∧
        ∀ s, ∃ n, ∀ fuel, n ≤ fuel → collect fuel none t.expansion s = ⟨fs, none, .tidied none none .empty, s⟩ := by
  intro es
  have read : Document.read priceDocument = .ok es := rfl
  have foreign : ∀ e ∈ es, e.IsForeign := by decide +kernel
  obtain ⟨t, fs, compiled, writable, same, expands⟩ := literal_unchanged read foreign ⟨0, "t.xml", .empty⟩
  exact ⟨read, t, fs, compiled, writable, same.trans rfl, expands⟩

end Template

end Stencil
