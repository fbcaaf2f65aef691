import Stencil.Proofs.Xml.Pieces
import Stencil.Proofs.Xml.Rendering

/-!
# Events as tokens

The text of a stream is the text of tokens (`Xml.renders_ok_iff`): one for each event that is written,
apart from an element without content, which is one tag, and from namespaces that are declared, which are
attributes of the next tag (`Xml.tokensFrom`).
-/

open Stencil.Stream Stencil.Advance

namespace Stencil

namespace Event

/-- Whether an event can be written. -/
def isWritable : Event → Bool
  | startTag _ _ as => as.all (·.isLiteral)
  | blank | expression .. | sub .. => false
  | _ => true

/-- The token of an event that is one by itself. -/
def token? : Event → Option Xml.Token
  | endTag _ name => some (.endTag name.qualified)
  | text _ t => some (.characters t)
  | comment _ t => some (.comment t)
  | instruction _ target data => some (.instruction target data)
  | doctype _ name publicId systemId => some (.doctype name publicId systemId)
  | _ => none

end Event

namespace Xml

/-! ## Tokens -/

/-- A namespace that is declared, as an attribute. -/
def declaredAttribute (d : Text × Text) : Text × Text := (if d.1.isEmpty then "xmlns" else "xmlns:" ++ d.1, d.2)

/-- The tag of an element with the namespaces declared before it. -/
def tagOf (declared : List (Text × Text)) (name : QName) (as : Attributes) : Tag :=
  ⟨name.qualified, declared.map declaredAttribute ++ as.map fun a => (a.name.qualified, a.text)⟩

/-- The tokens of events, given the namespaces that were declared since the last start tag. -/
def tokensFrom (declared : List (Text × Text)) : List Event → List Token
  | [] => []
  | .startTag _ name as :: es =>
    match es with
    | .endTag .. :: es => .emptyTag (tagOf declared name as) :: tokensFrom [] es
    | es => .startTag (tagOf declared name as) :: tokensFrom [] es
  | .startNamespace _ pre uri :: es => tokensFrom (declared ++ [(pre, uri)]) es
  | e :: es => e.token?.toList ++ tokensFrom declared es

/-- The events that are still to be written as tokens; the tag that is held back is one of them. -/
def Writer.pending (w : Writer) (es : List Event) : List Event :=
  match w.held? with
  | some tag => .startTag tag.position tag.name tag.attributes :: es
  | none => es

/-! ## Writing a list of events -/

/-- What writing events comes to, given why there are no more of them. -/
def Writer.writeAll (w : Writer) (stop? : Option Stop) : List Event → Except Stop Text
  | [] =>
    match stop? with
    | none => w.ending
    | some why => .error why
  | e :: es =>
    match (w.feed e).fault? with
    | none => ((w.feed e).writer.writeAll stop? es).map ((w.feed e).text ++ ·)
    | some f => .error (.fault f)

variable {k : Nat} {w : Writer} {u v : Stream} {s r : Store} {es : List Event} {stop? : Option Stop}

/-- A stream renders to what its events are written as. -/
theorem renders_of_completes (h : Completes k u s es stop? v r) : Renders k w u s (w.writeAll stop? es) := by
  induction es generalizing w u s with
  | nil =>
    have last := h.comes
    cases stop? with
    | none => exact .done last
    | some why => exact .fail last
  | cons e es ih =>
    obtain ⟨x, q, run, ends⟩ := h
    obtain ⟨u', s', next, rest⟩ := run.comes
    rw [Writer.writeAll]
    cases fault : (w.feed e).fault? with
    | none => exact .write next fault (ih ⟨x, q, rest, ends⟩)
    | some f => exact .unwritable next fault

/-- A stream that renders to a text comes to an end, and its events are written as this text. -/
theorem completes_of_renders {o : Except Stop Text} (h : Renders k w u s o) {text : Text} (ok : o = .ok text) :
    ∃ es v r, Completes k u s es none v r ∧ w.writeAll none es = .ok text := by
  induction h generalizing text with
  | @write w u v s r e o next fine rest ih =>
    cases o with
    | error => cases ok
    | ok t =>
      cases ok
      obtain ⟨es, v', r', completes, written⟩ := ih rfl
      obtain ⟨x, q, run, yields⟩ := next.run
      refine ⟨e :: es, v', r', completes.after (run.trans (.single yields)), ?_⟩
      rw [Writer.writeAll, fine]
      simp only [written]
      rfl
  | unwritable => cases ok
  | done next =>
    obtain ⟨x, q, run, ends⟩ := next.run
    exact ⟨[], _, _, ⟨x, q, run, ends⟩, ok⟩
  | fail => cases ok

/-! ## Written tags -/

theorem declaration_eq (d : Text × Text) : declaration d = writtenAttribute (declaredAttribute d) := by
  obtain ⟨_ | ⟨c, pre⟩, uri⟩ := d <;> rfl

theorem writtenAttributes_literal (p : Position) {as : Attributes} (h : as.all (·.isLiteral) = true) :
    writtenAttributes p as = ((as.map fun a => (a.name.qualified, a.text)).flatMap writtenAttribute, none) := by
  induction as with
  | nil => rfl
  | cons a as ih =>
    obtain ⟨first, others⟩ := Bool.and_eq_true_iff.1 h
    rw [writtenAttributes, if_pos first, ih others]
    simp [writtenAttribute]

theorem writtenAttributes_fault (p : Position) {as : Attributes} (h : as.all (·.isLiteral) = false) :
    (writtenAttributes p as).2.isSome = true := by
  induction as with
  | nil => cases h
  | cons a as ih =>
    rw [writtenAttributes]
    split
    · rename_i literal
      rw [List.all_cons, literal, Bool.true_and] at h
      exact ih h
    · rfl

/-- A start tag that can be written is written as its token. -/
theorem startTag_literal (w : Writer) (tag : HeldTag) (isEmpty : Bool) (h : tag.attributes.all (·.isLiteral) = true) :
    w.startTag tag isEmpty =
      ⟨(if isEmpty then Token.emptyTag (tagOf w.namespaces tag.name tag.attributes)
        else .startTag (tagOf w.namespaces tag.name tag.attributes)).written, .fresh, none⟩ := by
  have declarations : w.namespaces.flatMap declaration = (w.namespaces.map declaredAttribute).flatMap writtenAttribute := by
    rw [List.flatMap_map]
    exact List.flatMap_congr fun d _ => declaration_eq d
  simp only [Writer.startTag, writtenAttributes_literal _ h, declarations]
  cases isEmpty <;> simp [Token.written, Token.body, Tag.written, tagOf, Writer.fresh, Text.ascii]

theorem startTag_fault (w : Writer) (tag : HeldTag) (isEmpty : Bool) (h : tag.attributes.all (·.isLiteral) = false) :
    (w.startTag tag isEmpty).fault? ≠ none := by
  have fault := writtenAttributes_fault tag.position h
  simp only [Writer.startTag]
  intro none
  rw [none] at fault
  cases fault

/-! ## Writing events as tokens -/

theorem tokensFrom_tag (declared : List (Text × Text)) (p : Position) (name : QName) (as : Attributes) {es : List Event}
    (h : ∀ e ∈ es.head?, e.isEnd = false) :
    tokensFrom declared (.startTag p name as :: es) = .startTag (tagOf declared name as) :: tokensFrom [] es := by
  cases es with
  | nil => rfl
  | cons e es =>
    cases e with
    | endTag => cases h _ rfl
    | _ => rfl

theorem ok_map_iff {x : Except Stop Text} {f : Text → Text} {text : Text} :
    x.map f = .ok text ↔ ∃ t, x = .ok t ∧ text = f t := by
  cases x with
  | error => simp [Except.map]
  | ok t => simp [Except.map, eq_comm]

/-- Events are written if each of them can be, and they are written as their tokens. -/
def WritesTokens (w : Writer) (es : List Event) : Prop :=
  ∀ text, w.writeAll none es = .ok text ↔
    (∀ e ∈ w.pending es, e.isWritable = true) ∧ text = (tokensFrom w.namespaces (w.pending es)).flatMap Token.written

/-- What a writer without a tag does with an event that is neither a start tag nor declares a namespace. -/
theorem feed_token (declared : List (Text × Text)) {e : Event} (tag : e.isStart = false)
    (other : ∀ p pre uri, e ≠ .startNamespace p pre uri) :
    Writer.feed ⟨declared, none⟩ e = ⟨e.token?.toList.flatMap Token.written, ⟨declared, none⟩,
      if e.isWritable then none else some (.unwritable e.kind e.position)⟩ := by
  cases e with
  | startTag => cases tag
  | startNamespace => exact absurd rfl (other _ _ _)
  | doctype p name publicId systemId =>
    cases publicId <;> cases systemId <;>
      simp [Writer.feed, Writer.release, Writer.write, Event.token?, Event.isWritable, doctype, Token.written, Token.body,
        writtenIds, idsOf, quotedId, doctypeOpening, Text.ascii]
  | _ =>
    simp [Writer.feed, Writer.release, Writer.write, Event.token?, Event.isWritable, endTag, comment, instruction,
      Token.written, Token.body, writtenData, commentOpening, Text.ascii]

theorem tokensFrom_token (declared : List (Text × Text)) {e : Event} (tag : e.isStart = false)
    (other : ∀ p pre uri, e ≠ .startNamespace p pre uri) (es : List Event) :
    tokensFrom declared (e :: es) = e.token?.toList ++ tokensFrom declared es := by
  cases e with
  | startTag => cases tag
  | startNamespace => exact absurd rfl (other _ _ _)
  | _ => rfl

/-- An event that a writer without a tag takes in: it is written, or it changes what comes next. -/
theorem writesTokens_cons {declared : List (Text × Text)} {e : Event} {es : List Event}
    (ih : ∀ w, WritesTokens w es) : WritesTokens ⟨declared, none⟩ (e :: es) := by
  have same : ∀ x : Except Stop Text, x.map (([] : Text) ++ ·) = x := fun x => by cases x <;> rfl
  intro text
  by_cases tag : e.isStart = true
  · obtain ⟨p, name, as, rfl⟩ : ∃ p name as, e = .startTag p name as := by
      cases e with
      | startTag p name as => exact ⟨p, name, as, rfl⟩
      | _ => cases tag
    have feeds : Writer.writeAll ⟨declared, none⟩ none (.startTag p name as :: es) =
        (Writer.writeAll ⟨declared, some ⟨p, name, as⟩⟩ none es).map (([] : Text) ++ ·) := rfl
    rw [feeds, same]
    exact ih ⟨declared, some ⟨p, name, as⟩⟩ text
  by_cases declares : ∃ p pre uri, e = .startNamespace p pre uri
  · obtain ⟨p, pre, uri, rfl⟩ := declares
    have feeds : Writer.writeAll ⟨declared, none⟩ none (.startNamespace p pre uri :: es) =
        (Writer.writeAll ⟨declared ++ [(pre, uri)], none⟩ none es).map (([] : Text) ++ ·) := rfl
    rw [feeds, same, ih ⟨declared ++ [(pre, uri)], none⟩ text]
    simp [Writer.pending, tokensFrom, Event.isWritable]
  · have tag : e.isStart = false := by simpa using tag
    have other : ∀ p pre uri, e ≠ .startNamespace p pre uri := fun p pre uri h => declares ⟨p, pre, uri, h⟩
    have rest := ih ⟨declared, none⟩
    simp only [Writer.writeAll, feed_token declared tag other]
    simp only [Writer.pending, tokensFrom_token declared tag other, List.forall_mem_cons, List.flatMap_append] at rest ⊢
    cases e.isWritable with
    | false => simp
    | true =>
      simp only [if_true, ok_map_iff, true_and]
      constructor
      · rintro ⟨t, written, rfl⟩
        obtain ⟨writable, rfl⟩ := (rest t).1 written
        exact ⟨writable, rfl⟩
      · rintro ⟨writable, rfl⟩
        exact ⟨_, (rest _).2 ⟨writable, rfl⟩, rfl⟩

theorem writesTokens_nil (declared : List (Text × Text)) : WritesTokens ⟨declared, none⟩ [] := by
  intro text
  have nothing : Writer.writeAll ⟨declared, none⟩ none [] = .ok [] := rfl
  rw [nothing, Except.ok.injEq]
  exact ⟨fun same => ⟨by simp [Writer.pending], same.symm⟩, fun h => h.2.symm⟩

/-- What comes after a tag that is held back, unless it is the end of the element, is written after it. -/
theorem writeAll_held {w : Writer} {tag : HeldTag} {es : List Event} (held : w.held? = some tag)
    (h : ∀ e ∈ es.head?, e.isEnd = false) :
    w.writeAll none es =
      match (w.startTag tag false).fault? with
      | none => (Writer.fresh.writeAll none es).map ((w.startTag tag false).text ++ ·)
      | some f => .error (.fault f) := by
  have release : w.release false = w.startTag tag false := by rw [Writer.release, held]
  cases es with
  | nil =>
    simp only [Writer.writeAll, Writer.ending, Writer.finish, release]
    cases (w.startTag tag false).fault? with
    | none => simp [Except.map, Writer.fresh, Writer.release]
    | some f => rfl
  | cons e es =>
    have other : e.isEnd = false := h e rfl
    have bare : Writer.fresh.feed e = Writer.fresh.write e := rfl
    rw [Writer.writeAll, Writer.writeAll, bare]
    cases first : (w.startTag tag false).fault? with
    | some f =>
      have fed : w.feed e = w.startTag tag false := by
        rw [Writer.feed, other, Bool.and_false, release]
        simp [first]
      simp only [fed, first]
    | none =>
      have fed : w.feed e =
          { Writer.fresh.write e with text := (w.startTag tag false).text ++ (Writer.fresh.write e).text } := by
        rw [Writer.feed, other, Bool.and_false, release]
        simp only [first]
        rfl
      simp only [fed]
      cases (Writer.fresh.write e).fault? with
      | some f => rfl
      | none =>
        cases (Writer.fresh.write e).writer.writeAll none es with
        | error => rfl
        | ok t => simp [Except.map]

/-- The end of the element right after a tag that is held back is written with it. -/
theorem writeAll_empty {w : Writer} {tag : HeldTag} (held : w.held? = some tag) (p : Position) (name : QName)
    (es : List Event) :
    w.writeAll none (.endTag p name :: es) =
      match (w.startTag tag true).fault? with
      | none => (Writer.fresh.writeAll none es).map ((w.startTag tag true).text ++ ·)
      | some f => .error (.fault f) := by
  have fed : w.feed (.endTag p name) = w.startTag tag true := by
    rw [Writer.feed, held, Writer.release, held]
    rfl
  rw [Writer.writeAll, fed]
  rfl

/-- A tag that is held back is written as its token, before the rest. -/
theorem writesTokens_tag {declared : List (Text × Text)} {tag : HeldTag} {es rest : List Event} {isEmpty : Bool}
    (whole : Writer.writeAll ⟨declared, some tag⟩ none es =
      match (Writer.startTag ⟨declared, some tag⟩ tag isEmpty).fault? with
      | none => (Writer.fresh.writeAll none rest).map ((Writer.startTag ⟨declared, some tag⟩ tag isEmpty).text ++ ·)
      | some f => .error (.fault f))
    (others : (∀ e ∈ es, e.isWritable = true) ↔ ∀ e ∈ rest, e.isWritable = true)
    (tokens : tokensFrom declared (.startTag tag.position tag.name tag.attributes :: es) =
      (if isEmpty then Token.emptyTag (tagOf declared tag.name tag.attributes)
        else .startTag (tagOf declared tag.name tag.attributes)) :: tokensFrom [] rest)
    (later : WritesTokens .fresh rest) : WritesTokens ⟨declared, some tag⟩ es := by
  intro text
  have pending : Writer.pending ⟨declared, some tag⟩ es = .startTag tag.position tag.name tag.attributes :: es := rfl
  rw [whole, pending, tokens, List.forall_mem_cons, others]
  cases literal : tag.attributes.all (·.isLiteral) with
  | false =>
    cases fault : (Writer.startTag ⟨declared, some tag⟩ tag isEmpty).fault? with
    | none => exact absurd fault (startTag_fault _ _ _ literal)
    | some f => simp [Event.isWritable, literal]
  | true =>
    rw [startTag_literal _ _ _ literal]
    simp only [ok_map_iff, Event.isWritable, literal, true_and, List.flatMap_cons]
    constructor
    · rintro ⟨t, written, rfl⟩
      obtain ⟨writable, rfl⟩ := (later t).1 written
      exact ⟨writable, rfl⟩
    · rintro ⟨writable, rfl⟩
      exact ⟨_, (later _).2 ⟨writable, rfl⟩, rfl⟩

theorem writesTokens_held {declared : List (Text × Text)} {tag : HeldTag} {es : List Event}
    (bare : WritesTokens .fresh es) (ih : ∀ e fs, es = e :: fs → WritesTokens .fresh fs) :
    WritesTokens ⟨declared, some tag⟩ es := by
  by_cases ends : ∃ p name fs, es = .endTag p name :: fs
  · obtain ⟨p, name, fs, rfl⟩ := ends
    refine writesTokens_tag (writeAll_empty rfl p name fs) ?_ rfl (ih _ fs rfl)
    simp [Event.isWritable]
  · have other : ∀ e ∈ es.head?, e.isEnd = false := by
      intro e he
      obtain ⟨fs, rfl⟩ := List.head?_eq_some_iff.1 he
      cases e with
      | endTag p name => exact absurd ⟨p, name, fs, rfl⟩ ends
      | _ => rfl
    exact writesTokens_tag (writeAll_held rfl other) Iff.rfl (tokensFrom_tag declared _ _ _ other) bare

/-- **Events are written as their tokens.** -/
theorem writesTokens (w : Writer) (es : List Event) : WritesTokens w es := by
  induction es generalizing w with
  | nil =>
    obtain ⟨declared, _ | tag⟩ := w
    · exact writesTokens_nil declared
    · exact writesTokens_held (writesTokens_nil []) (by simp)
  | cons e es ih =>
    have bare : ∀ declared, WritesTokens ⟨declared, none⟩ (e :: es) := fun declared => writesTokens_cons ih
    obtain ⟨declared, _ | tag⟩ := w
    · exact bare declared
    · refine writesTokens_held (bare []) ?_
      rintro e fs ⟨⟩
      exact ih .fresh

/-- **The text of a stream is that of the tokens of its events**, and there is one if the events come to an
end and each of them can be written. -/
theorem renders_ok_iff {text : Text} :
    Renders k .fresh u s (.ok text) ↔ ∃ es v r, Completes k u s es none v r ∧ (∀ e ∈ es, e.isWritable = true) ∧
      text = (tokensFrom [] es).flatMap Token.written := by
  constructor
  · intro h
    obtain ⟨es, v, r, completes, written⟩ := completes_of_renders h rfl
    exact ⟨es, v, r, completes, (writesTokens .fresh es text).1 written⟩
  · rintro ⟨es, v, r, completes, written⟩
    have renders : Renders k .fresh u s (Writer.fresh.writeAll none es) := renders_of_completes completes
    rwa [(writesTokens .fresh es text).2 written] at renders

end Xml

end Stencil
