import Stencil.Proofs.Document.Joined
import Stencil.Proofs.Document.Pairing
import Stencil.Proofs.Stream.Element
import Stencil.Proofs.Xml.Reading
import Stencil.Proofs.Xml.Written

/-!
# Written events are read back

A reader makes events of the tokens of a source (`Xml.readEvents`). From the text that tags and texts are
written as it gets these events again, with texts that follow each other in one piece and empty texts left
out (`Xml.read_written_events`). So two lists of events that are written alike are the same after that.
-/

open Stencil.Stream

namespace Stencil

namespace Event

/-- What the written form of an event tells: names with their prefixes, attribute values in one piece, and no
position. -/
def asWritten : Event → Event
  | startTag _ name as =>
    startTag .zero (.plain name.qualified) (as.map fun a => ⟨.plain a.name.qualified, [.literal a.text]⟩)
  | endTag _ name => endTag .zero (.plain name.qualified)
  | text _ t => text .zero t
  | e => e

/-- A tag with names made of name characters and with literal attributes, or a text. -/
def IsTagOrText : Event → Prop
  | startTag _ name as => Xml.IsName name.qualified ∧ ∀ a ∈ as, Xml.IsName a.name.qualified ∧ a.isLiteral = true
  | endTag _ name => Xml.IsName name.qualified
  | text .. => True
  | _ => False

instance : DecidablePred IsTagOrText
  | startTag .. => inferInstanceAs (Decidable (_ ∧ _))
  | endTag .. => inferInstanceAs (Decidable (Xml.IsName _))
  | text .. => .isTrue trivial
  | startNamespace .. | endNamespace .. | comment .. | instruction .. | doctype .. | blank | expression .. | sub .. =>
    .isFalse id

theorem IsTagOrText.isWritable {e : Event} (h : e.IsTagOrText) : e.isWritable = true := by
  cases e with
  | startTag p name as => exact List.all_eq_true.2 fun a ha => (h.2 a ha).2
  | endTag | text => rfl
  | _ => exact h.elim

end Event

namespace Xml

/-! ## The events of tokens -/

/-- The start tag that a tag is read as. -/
def Tag.event (tag : Tag) : Event :=
  .startTag .zero (.plain tag.name) (tag.attributes.map fun a => ⟨.plain a.1, [.literal a.2]⟩)

/-- The events that a token is read as. -/
def Token.events : Token → List Event
  | characters t | verbatim t => [.text .zero t]
  | startTag tag => [tag.event]
  | emptyTag tag => [tag.event, .endTag .zero (.plain tag.name)]
  | endTag name => [.endTag .zero (.plain name)]
  | comment t => [.comment .zero t]
  | instruction target data => [.instruction .zero target data]
  | doctype name publicId systemId => [.doctype .zero name publicId systemId]

/-- The events of a source: those of its tokens, with the texts joined. -/
def readEvents (source : Text) : Except MarkupError (List Event) :=
  (tokens source).map fun toks => joinTexts (toks.flatMap Token.events)

theorem joinFrom_zero (t u : Text) (es : List Event) :
    joinFrom t .zero (.text .zero u :: es) = joinFrom (t ++ u) .zero es := by
  rw [joinFrom, ite_self]

/-- Joining texts does not depend on where character data was cut. -/
theorem joinFrom_spaced (t held : Text) (toks : List Token) :
    joinFrom t .zero ((spaced held toks).flatMap Token.events) = joinFrom (t ++ held) .zero (toks.flatMap Token.events) := by
  have markup (t held : Text) {token : Token} (some : token.events ≠ []) (noText : ∀ e ∈ token.events, e.text? = none)
      {toks : List Token} (rest : joinFrom [] .zero ((spaced [] toks).flatMap Token.events) =
        joinFrom [] .zero (toks.flatMap Token.events)) :
      joinFrom t .zero ((Token.characters held :: token :: spaced [] toks).flatMap Token.events) =
        joinFrom (t ++ held) .zero ((token :: toks).flatMap Token.events) := by
    rw [List.flatMap_cons, Token.events, List.singleton_append, joinFrom_zero, List.flatMap_cons,
      joinFrom_others noText _ _ _ some, rest, List.flatMap_cons, joinFrom_others noText _ _ _ some]
  induction toks generalizing t held with
  | nil => exact joinFrom_zero t held []
  | cons token toks ih =>
    cases token with
    | characters u =>
      have cut : spaced held (.characters u :: toks) = spaced (held ++ u) toks := rfl
      rw [cut, ih, List.flatMap_cons, Token.events, List.singleton_append, joinFrom_zero, List.append_assoc]
    | verbatim u =>
      have cut : spaced held (.verbatim u :: toks) = .characters held :: .verbatim u :: spaced [] toks := rfl
      simp only [cut, List.flatMap_cons, Token.events, List.singleton_append, joinFrom_zero, ih, List.append_nil]
    | _ => exact markup t held (by simp [Token.events]) (by simp [Token.events, Tag.event, Event.text?]) (ih [] [])

/-- What is read of a text that tokens were written as. -/
theorem readEvents_written {toks : List Token} (h : ∀ token ∈ toks, token.Readable) :
    readEvents (toks.flatMap Token.written) = .ok (joinTexts (toks.flatMap Token.events)) := by
  have joined := joinFrom_spaced [] [] toks
  rw [joinFrom_eq, joinFrom_eq] at joined
  rw [readEvents, tokens_written h]
  exact congrArg Except.ok joined

/-! ## The tokens of events -/

theorem event_tagOf (name : QName) (as : Attributes) (p : Position) :
    (tagOf [] name as).event = (Event.startTag p name as).asWritten := by
  simp [tagOf, Tag.event, Event.asWritten]

/-- The tokens that tags and texts are written as are read back, and tell what the events tell. An element
without content is one token, which closes the element under the name that it was opened with. -/
theorem tokens_of_tagsAndTexts {es : List Event} (plain : ∀ e ∈ es, e.IsTagOrText) {ns ns' : List Text}
    (paired : Event.pairAll ns es = some ns') :
    (∀ token ∈ tokensFrom [] es, token.Readable) ∧
      (tokensFrom [] es).flatMap Token.events = es.map Event.asWritten := by
  have readable {p : Position} {name : QName} {as : Attributes} (h : (Event.startTag p name as).IsTagOrText) :
      (Token.startTag (tagOf [] name as)).Readable := by
    refine ⟨h.1, fun a ha => ?_⟩
    obtain ⟨b, hb, rfl⟩ := List.mem_map.1 ha
    exact (h.2 b hb).1
  generalize bare : ([] : List (Text × Text)) = declared
  induction declared, es using tokensFrom.induct generalizing ns with
  | case1 => simp [tokensFrom]
  | case2 declared p name as q endName es ih =>
    subst bare
    obtain ⟨first, rest⟩ := List.forall_mem_cons.1 plain
    obtain ⟨-, others⟩ := List.forall_mem_cons.1 rest
    obtain ⟨mid, opens, inside⟩ := Event.pairAll_cons_some paired
    obtain ⟨outer, closes, after⟩ := Event.pairAll_cons_some inside
    cases opens
    have same : name.qualified = endName.qualified := (List.cons.inj (Event.pair_endTag closes)).1
    obtain ⟨tokens, events⟩ := ih others after rfl
    rw [tokensFrom]
    refine ⟨List.forall_mem_cons.2 ⟨readable (p := p) first, tokens⟩, ?_⟩
    have last : Event.endTag .zero (.plain name.qualified) = (Event.endTag q endName).asWritten := by
      rw [Event.asWritten, same]
    rw [List.flatMap_cons, events, Token.events, event_tagOf name as p]
    exact congrArg (fun e => _ :: e :: _) last
  | case3 declared p name as es noEnd ih =>
    subst bare
    obtain ⟨first, others⟩ := List.forall_mem_cons.1 plain
    obtain ⟨mid, -, after⟩ := Event.pairAll_cons_some paired
    obtain ⟨tokens, events⟩ := ih others after rfl
    rw [tokensFrom]
    · refine ⟨List.forall_mem_cons.2 ⟨readable (p := p) first, tokens⟩, ?_⟩
      rw [List.flatMap_cons, events, Token.events, event_tagOf name as p]
      rfl
    · exact noEnd
  | case4 declared p pre uri es ih => exact (List.forall_mem_cons.1 plain).1.elim
  | case5 declared e es noTag noNamespace ih =>
    subst bare
    obtain ⟨first, others⟩ := List.forall_mem_cons.1 plain
    obtain ⟨mid, -, after⟩ := Event.pairAll_cons_some paired
    obtain ⟨tokens, events⟩ := ih others after rfl
    rw [tokensFrom]
    · cases e with
      | startTag => exact absurd rfl (noTag _ _ _)
      | endTag q name => exact ⟨List.forall_mem_cons.2 ⟨first, tokens⟩, congrArg (_ :: ·) events⟩
      | text q t => exact ⟨List.forall_mem_cons.2 ⟨trivial, tokens⟩, congrArg (_ :: ·) events⟩
      | _ => exact first.elim
    · exact noTag
    · exact noNamespace

/-! ## Lists of events -/

/-- With enough fuel, a new writer writes the events as the text, in any store. -/
def WrittenAs (es : List Event) (text : Text) : Prop :=
  ∀ s : Store, ∃ n, ∀ fuel, n ≤ fuel → (render fuel .fresh (.ofEvents es) s).outcome = .ok text

theorem writtenAs_tokens {es : List Event} (h : ∀ e ∈ es, e.isWritable = true) :
    WrittenAs es ((tokensFrom [] es).flatMap Token.written) := by
  intro s
  obtain ⟨v, completes⟩ := completes_of_delivers (delivers_ofEvents (k := 0) es s)
  have renders : Renders 0 .fresh (.ofEvents es) s (.ok ((tokensFrom [] es).flatMap Token.written)) :=
    renders_ok_iff.2 ⟨es, v, s, completes, h, rfl⟩
  exact renderFrom_of_renders renders (by simp) []

theorem WrittenAs.unique {es : List Event} {text text' : Text} (h : WrittenAs es text) (h' : WrittenAs es text') :
    text = text' := by
  obtain ⟨n, first⟩ := h (.ofContext (.ofBase []) (.empty []))
  obtain ⟨m, second⟩ := h' (.ofContext (.ofBase []) (.empty []))
  have same := (first (max n m) (Nat.le_max_left n m)).symm.trans (second (max n m) (Nat.le_max_right n m))
  exact Except.ok.inj same

/-- **What is written is read back.** Tags that are paired and texts, with any bytes in the texts and attribute
values, are written as a text from which the reader gets the same names, attributes and texts, texts in a row
being joined and empty ones dropped. So no two lists that differ in this are written as the same text. -/
theorem read_written_events (es : List Event) (plain : ∀ e ∈ es, e.IsTagOrText) (paired : Event.Paired es) :
    ∃ text, WrittenAs es text ∧ readEvents text = .ok (joinTexts (es.map Event.asWritten)) ∧
      ∀ fs : List Event, (∀ e ∈ fs, e.IsTagOrText) → Event.Paired fs → WrittenAs fs text →
        joinTexts (fs.map Event.asWritten) = joinTexts (es.map Event.asWritten) := by
  have reads {fs : List Event} (plain : ∀ e ∈ fs, e.IsTagOrText) (paired : Event.Paired fs) :
      readEvents ((tokensFrom [] fs).flatMap Token.written) = .ok (joinTexts (fs.map Event.asWritten)) := by
    obtain ⟨tokens, events⟩ := tokens_of_tagsAndTexts plain paired
    rw [readEvents_written tokens, events]
  refine ⟨_, writtenAs_tokens fun e he => (plain e he).isWritable, reads plain paired, fun fs plain' paired' alike => ?_⟩
  have same := (writtenAs_tokens fun e he => (plain' e he).isWritable).unique alike
  have read := reads plain' paired'
  rw [same, reads plain paired] at read
  exact (Except.ok.inj read).symm

/-- Texts and values that look like markup and references, texts in two pieces, and elements that are empty or hold
nothing but empty texts. -/
theorem read_written_events_hostile :
    let es : List Event :=
      [.text ⟨1, 0⟩ "&lt;", .startTag ⟨1, 4⟩ ⟨"urn:p", "p", "a"⟩ [⟨.plain "k", [.literal "\"/><b>", .literal "&amp;"]⟩],
        .text ⟨2, 0⟩ "]]></p:a>", .text ⟨2, 9⟩ "<!--", .startTag ⟨3, 0⟩ (.plain "b") [], .text ⟨3, 3⟩ [],
        .endTag ⟨3, 3⟩ (.plain "b"), .startTag ⟨3, 6⟩ (.plain "c") [], .endTag ⟨3, 9⟩ (.plain "c"), .text ⟨3, 9⟩ [0, 255],
        .endTag ⟨4, 0⟩ ⟨"urn:p", "p", "a"⟩]
    ∃ text, WrittenAs es text ∧ readEvents text = .ok
      [.text .zero "&lt;", .startTag .zero (.plain "p:a") [⟨.plain "k", [.literal "\"/><b>&amp;"]⟩],
        .text .zero "]]></p:a><!--", .startTag .zero (.plain "b") [], .endTag .zero (.plain "b"),
        .startTag .zero (.plain "c") [], .endTag .zero (.plain "c"), .text .zero [0, 255], .endTag .zero (.plain "p:a")] := by
  intro es
  obtain ⟨text, written, read, -⟩ := read_written_events es (by decide +kernel) (by decide +kernel)
  exact ⟨text, written, read⟩

end Xml

end Stencil
