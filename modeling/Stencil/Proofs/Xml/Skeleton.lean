import Stencil.Proofs.Stream.Tidied
import Stencil.Proofs.Xml.Reading
import Stencil.Proofs.Xml.Written

/-!
# The markup of a text without its data

A token without its character data and attribute values is its shape, and so is an event. Merging texts
and writing events don't look at more than shapes to find the shapes of what they give
(`shapes_tidyFrom`, `Xml.shapes_tokensFrom`), and neither does the reader of a text
(`Xml.skeleton_written`).
-/

open Stencil.Stream Stencil.Advance

namespace Stencil

namespace Event

/-- An event without its data; an expression is a text that is not known yet. -/
def shape : Event → Event
  | startTag p name as => .startTag p name (as.map fun a => ⟨a.name, []⟩)
  | text _ _ => .text .zero []
  | expression _ _ => .text .zero []
  | e => e

end Event

theorem isText_shape {e : Event} (writable : e.isWritable = true) : e.shape.isText = e.isText := by
  cases e with
  | expression => cases writable
  | _ => rfl

theorem isEnd_shape (e : Event) : e.shape.isEnd = e.isEnd := by cases e <;> rfl

/-! ## Merging texts -/

theorem shape_tidyText (text? : Option (Position × Text)) :
    (tidyText text?).map Event.shape = tidyText (text?.map fun _ => (.zero, [])) := by
  cases text? <;> rfl

/-- Which texts follow each other is seen from the shapes. -/
theorem shapes_tidyFrom (stop? : Option Stop) (text? : Option (Position × Text)) {es : List Event}
    (writable : ∀ e ∈ es, e.isWritable = true) :
    (tidyFrom stop? text? es).map Event.shape =
      tidyFrom stop? (text?.map fun _ => (.zero, [])) (es.map Event.shape) := by
  induction es generalizing text? with
  | nil =>
    simp only [tidyFrom, List.map_nil]
    split
    · exact shape_tidyText text?
    · rfl
  | cons e es ih =>
    obtain ⟨first, others⟩ := List.forall_mem_cons.1 writable
    by_cases isText : e.isText = true
    · obtain ⟨p, t, rfl⟩ : ∃ p t, e = .text p t := by
        cases e with
        | text p t => exact ⟨p, t, rfl⟩
        | _ => cases isText
      change (tidyFrom stop? (some (addText text? p t)) es).map Event.shape =
        tidyFrom stop? (some (addText (text?.map fun _ => (.zero, [])) .zero [])) (es.map Event.shape)
      rw [ih _ others]
      cases text? <;> rfl
    · have other : e.isText = false := by simpa using isText
      rw [tidyFrom_cons other, List.map_append, List.map_cons, List.map_cons, shape_tidyText, ih none others,
        tidyFrom_cons ((isText_shape first).trans other)]
      rfl

theorem writable_tidyFrom {stop? : Option Stop} {text? : Option (Position × Text)} {es : List Event}
    (writable : ∀ e ∈ es, e.isWritable = true) : ∀ e ∈ tidyFrom stop? text? es, e.isWritable = true := by
  intro e he
  rcases mem_tidyFrom he with isText | member
  · cases e with
    | text => rfl
    | _ => cases isText
  · exact writable e member

namespace Xml

/-! ## Tokens -/

/-- A token without its data. -/
def Token.shape : Token → Token
  | characters _ => .characters []
  | startTag tag => .startTag ⟨tag.name, tag.attributes.map fun a => (a.1, [])⟩
  | emptyTag tag => .emptyTag ⟨tag.name, tag.attributes.map fun a => (a.1, [])⟩
  | token => token

theorem shape_tagOf (declared : List (Text × Text)) (name : QName) (as : Attributes) :
    (Token.startTag (tagOf declared name as)).shape =
        (Token.startTag (tagOf declared name (as.map fun a => ⟨a.name, []⟩))).shape ∧
      (Token.emptyTag (tagOf declared name as)).shape =
        (Token.emptyTag (tagOf declared name (as.map fun a => ⟨a.name, []⟩))).shape := by
  simp [Token.shape, tagOf]

theorem shape_token {e : Event} (writable : e.isWritable = true) :
    e.token?.toList.map Token.shape = e.shape.token?.toList.map Token.shape := by
  cases e with
  | expression => cases writable
  | _ => rfl

theorem shape_plain {e : Event} (tag : e.isStart = false) (other : ∀ p pre uri, e ≠ .startNamespace p pre uri) :
    e.shape.isStart = false ∧ ∀ p pre uri, e.shape ≠ .startNamespace p pre uri := by
  cases e with
  | startTag => cases tag
  | startNamespace => exact absurd rfl (other _ _ _)
  | _ => exact ⟨rfl, by simp [Event.shape]⟩

/-- The shapes of the tokens that events are written as are seen from the shapes of the events. -/
theorem shapes_tokensFrom (declared : List (Text × Text)) {es : List Event} (writable : ∀ e ∈ es, e.isWritable = true) :
    (tokensFrom declared es).map Token.shape = (tokensFrom declared (es.map Event.shape)).map Token.shape := by
  induction declared, es using tokensFrom.induct with
  | case1 => rfl
  | case2 declared p name as q endName es ih =>
    obtain ⟨-, rest⟩ := List.forall_mem_cons.1 writable
    obtain ⟨-, others⟩ := List.forall_mem_cons.1 rest
    simp only [tokensFrom, List.map_cons, Event.shape, ih others, (shape_tagOf declared name as).2]
  | case3 declared p name as es noEnd ih =>
    obtain ⟨-, others⟩ := List.forall_mem_cons.1 writable
    have other : ∀ e ∈ es.head?, e.isEnd = false := by
      intro e he
      obtain ⟨fs, rfl⟩ := List.head?_eq_some_iff.1 he
      cases e with
      | endTag q n => exact absurd rfl (noEnd q n fs)
      | _ => rfl
    have shapeless : ∀ e ∈ (es.map Event.shape).head?, e.isEnd = false := by
      rw [List.head?_map]
      intro e he
      obtain ⟨f, hf, rfl⟩ := Option.mem_map.1 he
      rw [isEnd_shape]
      exact other f hf
    rw [tokensFrom_tag declared p name as other, List.map_cons, ih others, (shape_tagOf declared name as).1]
    exact (congrArg (List.map Token.shape) (tokensFrom_tag declared p name _ shapeless)).symm
  | case4 declared p pre uri es ih =>
    obtain ⟨-, others⟩ := List.forall_mem_cons.1 writable
    exact ih others
  | case5 declared e es noTag noNamespace ih =>
    obtain ⟨first, others⟩ := List.forall_mem_cons.1 writable
    have tag : e.isStart = false := by
      cases e with
      | startTag p name as => exact absurd rfl (noTag p name as)
      | _ => rfl
    have plain := shape_plain tag noNamespace
    rw [List.map_cons, tokensFrom_token declared tag noNamespace, tokensFrom_token declared plain.1 plain.2,
      List.map_append, List.map_append, ih others, shape_token first]

/-! ## Texts -/

/-- The markup of a text, without its character data and attribute values. -/
def skeleton (text : Text) : Except MarkupError (List Token) := (tokens text).map (·.map Token.shape)

/-- Nothing in the data of a token can be taken for the start or the end of markup. -/
def Token.Sealed : Token → Prop
  | characters t => ∀ c ∈ escape t, c ≠ ('<' : Byte) ∧ c ≠ ('>' : Byte)
  | startTag tag | emptyTag tag => ∀ a ∈ tag.attributes, ∀ c ∈ escapeAttribute a.2,
      c ≠ ('<' : Byte) ∧ c ≠ ('>' : Byte) ∧ c ≠ ('\"' : Byte)
  | _ => True

/-- Data is escaped where it is written. -/
theorem Token.sealed (token : Token) : token.Sealed := by
  cases token with
  | characters t => exact fun c hc => mem_escape hc
  | startTag tag | emptyTag tag => exact fun a _ c hc => mem_escapeAttribute hc
  | _ => trivial

/-- Where there is character data is seen from the shapes. -/
theorem shapes_spaced (held : Text) (toks : List Token) :
    (spaced held toks).map Token.shape = (spaced [] (toks.map Token.shape)).map Token.shape := by
  induction toks generalizing held with
  | nil => rfl
  | cons token toks ih =>
    cases token with
    | characters t => exact ih (held ++ t)
    | startTag tag | emptyTag tag =>
      simp only [spaced, List.map_cons, Token.shape, List.map_map, ih []]
      rfl
    | _ => exact congrArg (_ :: _ :: ·) (ih [])

/-- The skeleton of a text that tokens are written as is that of their shapes. -/
theorem skeleton_written {toks : List Token} (h : ∀ token ∈ toks, token.Readable) :
    skeleton (toks.flatMap Token.written) = .ok ((spaced [] (toks.map Token.shape)).map Token.shape) := by
  rw [skeleton, tokens_written h, ← shapes_spaced]
  rfl

end Xml

end Stencil
