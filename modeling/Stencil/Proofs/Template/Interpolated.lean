import Stencil.Proofs.Document.Forest
import Stencil.Proofs.Template.History
import Stencil.Proofs.Template.Leaves
import Stencil.Proofs.Xml.Skeleton

/-!
# Templates without directives

The markup of what such a template renders to is that of the template: values only go into character data
and attribute values, where they are escaped. So from any two stores in which all expressions have values
to show, texts with the same skeleton are rendered (`Template.renders_same_skeleton`).
-/

open Stencil.Stream Stencil.Advance

namespace Stencil

/-! ## Documents without directives -/

namespace Compile

/-- A document none of whose elements carries a directive. -/
structure Undirected (es : List Event) : Prop where
  nested : WellNested es
  ordinary : ∀ p name as, .startTag p name as ∈ es → ∀ a ∈ as, isDirective a = false

/-- A document without directives compiles to a template without elements to expand. -/
theorem leaves_of_template {target : Target} {es : List Event} (document : Undirected es) {t : Template}
    (compiled : template target es = .ok t) :
    t.expansionFilters = [.evaluate] ∧ t.postFilters = [.tidy] ∧
      ∀ e ∈ t.events, ∃ source ∈ es, e ∈ leavesOf source := by
  have makes : Makes target es (fun e => ∃ source ∈ es, e ∈ leavesOf source) (fun _ => False) fun _ => False := {
    leaf := fun source hs e he => ⟨source, hs, he⟩
    reading := by
      intro p name as member a ha directive
      rw [document.ordinary p name as member a ha] at directive
      cases directive
    element := fun some none _ => (some (List.eq_nil_iff_forall_not_mem.2 none)).elim }
  obtain ⟨events, filters, first, last, -⟩ := makes.template compiled
  refine ⟨?_, last, events⟩
  rw [Template.expansionFilters, first, List.eq_nil_iff_forall_not_mem.2 filters]
  rfl

end Compile

/-! ## Expressions in the order of the document -/

/-- Values to show: a null value leaves nothing, and a stream is spliced in. -/
def Value.isShown : Value → Bool
  | undefined | none | stream _ => false
  | _ => true

theorem Value.not_null {v : Value} (h : v.isShown = true) : v.isNull = false := by
  cases v with
  | undefined | none | stream => cases h
  | _ => rfl

/-- Each expression has a value to show, evaluated in the store that the ones before have left. -/
def Interpolates (k : Nat) : List Expression → Store → Prop
  | [], _ => True
  | x :: xs, s => ∃ v r, x.eval k s = .ok (v, r) ∧ v.isShown = true ∧ Interpolates k xs r

variable {k : Nat} {s r : Store} {xs : List Expression}

theorem evalFragments_shown {fs : List Fragment} (h : Interpolates k (fs.filterMap Fragment.expression? ++ xs) s) :
    ∃ t? r, Attribute.evalFragments k fs s = .ok (t?, r) ∧ Interpolates k xs r ∧ (fs ≠ [] → t?.isSome = true) := by
  induction fs generalizing s with
  | nil => exact ⟨none, s, rfl, h, fun some => absurd rfl some⟩
  | cons f fs ih =>
    cases f with
    | literal t =>
      obtain ⟨t?, r, evaluated, rest, -⟩ := ih h
      refine ⟨some (t ++ t?.getD []), r, ?_, rest, fun _ => rfl⟩
      rw [Attribute.evalFragments, Eval.bind_of_ok evaluated]
      rfl
    | expression x =>
      obtain ⟨v, q, value, shown, others⟩ := h
      obtain ⟨t?, r, evaluated, rest, -⟩ := ih others
      refine ⟨some (v.toText ++ t?.getD []), r, ?_, rest, fun _ => rfl⟩
      rw [Attribute.evalFragments, Eval.bind_of_ok value, Eval.bind_of_ok evaluated, Value.not_null shown]
      rfl

/-- An attribute keeps its name and gets a value. -/
theorem Attribute.eval_shown {a : Attribute} (h : Interpolates k (a.expressions ++ xs) s) :
    ∃ b r, a.eval k s = .ok (some b, r) ∧ Interpolates k xs r ∧ b.name = a.name ∧ b.isLiteral = true := by
  unfold Attribute.eval
  split
  · rename_i literal
    have none : a.expressions = [] := by
      refine List.filterMap_eq_nil_iff.2 fun f hf => ?_
      have plain := List.all_eq_true.1 literal f hf
      cases f with
      | literal => rfl
      | expression => cases plain
    rw [none] at h
    exact ⟨a, s, rfl, h, rfl, literal⟩
  · rename_i computed
    obtain ⟨t?, r, evaluated, rest, some⟩ := evalFragments_shown h
    have filled : a.value ≠ [] := by
      intro nothing
      exact computed (by rw [Attribute.isLiteral, nothing]; rfl)
    obtain ⟨t, rfl⟩ := Option.isSome_iff_exists.1 (some filled)
    refine ⟨⟨a.name, [.literal t]⟩, r, ?_, rest, rfl, rfl⟩
    rw [Eval.bind_of_ok evaluated]
    rfl

theorem Attributes.eval_shown {as : Attributes} (h : Interpolates k (as.flatMap Attribute.expressions ++ xs) s) :
    ∃ bs r, Attributes.eval k as s = .ok (bs, r) ∧ Interpolates k xs r ∧ bs.map (·.name) = as.map (·.name) ∧
      bs.all (·.isLiteral) = true := by
  induction as generalizing s with
  | nil => exact ⟨[], s, rfl, h, rfl, rfl⟩
  | cons a as ih =>
    rw [List.flatMap_cons, List.append_assoc] at h
    obtain ⟨b, q, first, later, name, literal⟩ := Attribute.eval_shown h
    obtain ⟨bs, r, others, rest, names, literals⟩ := ih later
    refine ⟨b :: bs, r, ?_, rest, by simp [name, names], by simp [literal, literals]⟩
    rw [Attributes.eval, Eval.bind_of_ok first, Eval.bind_of_ok others]
    rfl

/-! ## Expansion -/

/-- Events that need no expansion. -/
def Event.isLeaf : Event → Bool
  | .blank | .sub .. => false
  | _ => true

/-- The next event comes with its expressions computed, and keeps its shape. -/
theorem step_interpolated {e : Event} (es : List Event) (leaf : e.isLeaf = true)
    (h : Interpolates k (e.expressions ++ xs) s) :
    ∃ e' r, step k (.evaluated (.ofEvents (e :: es))) s = .yield e' (.evaluated (.ofEvents es)) r ∧
      Interpolates k xs r ∧ e'.shape = e.shape ∧ e'.isWritable = true := by
  have next : step k (.evaluated (.ofEvents (e :: es))) s = evaluateEvent k e (.ofEvents es) s := rfl
  rw [next]
  cases e with
  | startTag p name as =>
    obtain ⟨bs, r, evaluated, rest, names, literal⟩ := Attributes.eval_shown h
    refine ⟨.startTag p name bs, r, by rw [evaluateEvent, evaluated], rest, ?_, literal⟩
    have same : (bs.map (·.name)).map (fun n => (⟨n, []⟩ : Attribute)) = (as.map (·.name)).map fun n => ⟨n, []⟩ := by
      rw [names]
    rw [List.map_map, List.map_map] at same
    exact congrArg (Event.startTag p name) same
  | expression p x =>
    obtain ⟨v, r, value, shown, rest⟩ := h
    refine ⟨.text p v.toText, r, ?_, rest, rfl, rfl⟩
    rw [evaluateEvent, value]
    cases v with
    | undefined | none | stream => cases shown
    | _ => rfl
  | blank | sub => cases leaf
  | _ => exact ⟨_, s, rfl, h, rfl, rfl⟩

/-- **A template without elements to expand comes to its end**, and each of its events comes out with its
expressions computed. -/
theorem completes_interpolated (t : Template) (last : Position) {es : List Event} (leaves : ∀ e ∈ es, e.isLeaf = true)
    (h : Interpolates k (es.flatMap Event.expressions) s) :
    ∃ fs r, Completes k (.expanded t last (.evaluated (.ofEvents es))) s fs none .empty r ∧
      fs.map Event.shape = es.map Event.shape ∧ ∀ e ∈ fs, e.isWritable = true := by
  induction es generalizing s last with
  | nil => exact ⟨[], s, ⟨_, _, .refl _ _, rfl⟩, rfl, by simp⟩
  | cons e es ih =>
    obtain ⟨first, others⟩ := List.forall_mem_cons.1 leaves
    obtain ⟨e', q, next, rest, shape, writable⟩ := step_interpolated es first h
    obtain ⟨fs, r, completes, shapes, writables⟩ := ih e'.position others rest
    have expands : step k (.expanded t last (.evaluated (.ofEvents (e :: es)))) s =
        .yield e' (.expanded t e'.position (.evaluated (.ofEvents es))) q := by
      change stepExpanded t last _ = _
      rw [next]
      cases e' with
      | sub => cases writable
      | _ => rfl
    refine ⟨e' :: fs, r, completes.after (.single expands), by simp [shape, shapes], ?_⟩
    exact List.forall_mem_cons.2 ⟨writable, writables⟩

/-! ## Readable markup -/

namespace Event

open Xml

/-- The names in an event are ordinary ones. -/
def IsNamed : Event → Prop
  | startTag _ name as => IsName name.qualified ∧ ∀ a ∈ as, IsName a.name.qualified
  | endTag _ name => IsName name.qualified
  | startNamespace _ pre _ => ∀ c ∈ pre, isNameByte c = true
  | _ => True

instance (e : Event) : Decidable e.IsNamed :=
  match e with
  | startTag _ name as => inferInstanceAs (Decidable (IsName name.qualified ∧ ∀ a ∈ as, IsName a.name.qualified))
  | endTag _ name => inferInstanceAs (Decidable (IsName name.qualified))
  | startNamespace _ pre _ => inferInstanceAs (Decidable (∀ c ∈ pre, isNameByte c = true))
  | blank | text .. | endNamespace .. | comment .. | instruction .. | doctype .. | expression .. | sub .. => .isTrue trivial

/-- Markup that is no tag does not end before its end. -/
def IsClosed : Event → Prop
  | comment _ t => (Token.comment t).Readable
  | instruction _ target data => (Token.instruction target data).Readable
  | doctype _ name publicId systemId => (Token.doctype name publicId systemId).Readable
  | _ => True

theorem isNamed_shape {e : Event} : e.shape.IsNamed ↔ e.IsNamed := by
  cases e <;> simp [shape, IsNamed]

theorem isClosed_shape {e : Event} : e.shape.IsClosed ↔ e.IsClosed := by
  cases e <;> exact Iff.rfl

end Event

namespace Compile

theorem isNamed_leaf {source e : Event} (he : e ∈ leavesOf source) (h : source.IsNamed) : e.IsNamed := by
  cases source with
  | startTag p name as =>
    rw [List.mem_singleton.1 he]
    refine ⟨h.1, fun a ha => ?_⟩
    obtain ⟨b, hb, rfl⟩ := List.mem_map.1 ha
    exact h.2 b (List.mem_of_mem_filter hb)
  | text p t =>
    obtain ⟨f, -, rfl⟩ := List.mem_map.1 he
    cases f <;> trivial
  | _ =>
    rw [List.mem_singleton.1 he]
    exact h

theorem isClosed_leaf {source e : Event} (he : e ∈ leavesOf source) (h : source.IsClosed) : e.IsClosed := by
  cases source with
  | startTag p name as =>
    rw [List.mem_singleton.1 he]
    trivial
  | text p t =>
    obtain ⟨f, -, rfl⟩ := List.mem_map.1 he
    cases f <;> trivial
  | _ =>
    rw [List.mem_singleton.1 he]
    exact h

theorem isLeaf_leaf {source e : Event} (he : e ∈ leavesOf source) (markup : source.isMarkup = true) : e.isLeaf = true := by
  cases source with
  | text p t =>
    obtain ⟨f, -, rfl⟩ := List.mem_map.1 he
    cases f <;> rfl
  | blank | expression | sub => cases markup
  | _ =>
    rw [List.mem_singleton.1 he]
    rfl

end Compile

namespace Xml

theorem isName_declared {d : Text × Text} (h : ∀ c ∈ d.1, isNameByte c = true) : IsName (declaredAttribute d).1 := by
  have short : IsName "xmlns" := ⟨by decide +kernel, by decide +kernel⟩
  have long : ∀ c ∈ ("xmlns:" : Text), isNameByte c = true := by decide +kernel
  unfold declaredAttribute
  split
  · exact short
  · refine ⟨by simp [Text.ascii], fun c hc => ?_⟩
    exact (List.mem_append.1 hc).elim (long c) (h c)

/-- Events with ordinary names are written as tokens that are read back. -/
theorem readable_tokensFrom {declared : List (Text × Text)} {es : List Event}
    (prefixes : ∀ d ∈ declared, ∀ c ∈ d.1, isNameByte c = true) (h : ∀ e ∈ es, e.IsNamed ∧ e.IsClosed) :
    ∀ token ∈ tokensFrom declared es, token.Readable := by
  have tag : ∀ {declared : List (Text × Text)} {p : Position} {name : QName} {as : Attributes},
      (∀ d ∈ declared, ∀ c ∈ d.1, isNameByte c = true) → Event.IsNamed (.startTag p name as) →
      (Token.startTag (tagOf declared name as)).Readable := by
    intro declared p name as prefixes named
    refine ⟨named.1, fun a ha => ?_⟩
    rcases List.mem_append.1 ha with ha | ha
    · obtain ⟨d, hd, rfl⟩ := List.mem_map.1 ha
      exact isName_declared (prefixes d hd)
    · obtain ⟨b, hb, rfl⟩ := List.mem_map.1 ha
      exact named.2 b hb
  induction declared, es using tokensFrom.induct with
  | case1 => simp [tokensFrom]
  | case2 declared p name as q endName es ih =>
    obtain ⟨first, rest⟩ := List.forall_mem_cons.1 h
    obtain ⟨-, others⟩ := List.forall_mem_cons.1 rest
    rw [tokensFrom]
    exact List.forall_mem_cons.2 ⟨tag (p := p) prefixes first.1, ih (by simp) others⟩
  | case3 declared p name as es noEnd ih =>
    obtain ⟨first, others⟩ := List.forall_mem_cons.1 h
    rw [tokensFrom]
    · exact List.forall_mem_cons.2 ⟨tag (p := p) prefixes first.1, ih (by simp) others⟩
    · exact noEnd
  | case4 declared p pre uri es ih =>
    obtain ⟨first, others⟩ := List.forall_mem_cons.1 h
    rw [tokensFrom]
    refine ih (fun d hd => ?_) others
    rcases List.mem_append.1 hd with hd | hd
    · exact prefixes d hd
    · rw [List.mem_singleton.1 hd]
      exact first.1
  | case5 declared e es noTag noNamespace ih =>
    obtain ⟨first, others⟩ := List.forall_mem_cons.1 h
    rw [tokensFrom]
    · intro token ht
      rcases List.mem_append.1 ht with ht | ht
      · cases e with
        | endTag => cases Option.mem_toList.1 ht; exact first.1
        | comment | instruction | doctype => cases Option.mem_toList.1 ht; exact first.2
        | text => cases Option.mem_toList.1 ht; trivial
        | _ => cases Option.mem_toList.1 ht
      · exact ih prefixes others token ht
    · exact noTag
    · exact noNamespace

end Xml

/-! ## Rendering -/

/-- Tidied texts have no names. -/
theorem legible_tidyFrom {stop? : Option Stop} {text? : Option (Position × Text)} {es : List Event}
    (h : ∀ e ∈ es, e.IsNamed ∧ e.IsClosed) : ∀ e ∈ tidyFrom stop? text? es, e.IsNamed ∧ e.IsClosed := by
  intro e he
  rcases mem_tidyFrom he with isText | member
  · cases e with
    | text => exact ⟨trivial, trivial⟩
    | _ => cases isText
  · exact h e member

namespace Template

open Xml

/-- With enough fuel, the template renders to the text. -/
def RendersTo (t : Template) (s : Store) (text : Text) : Prop := ∃ n, ∀ fuel, n ≤ fuel → (t.render fuel s).1 = .ok text

variable {target : Compile.Target} {es : List Event} {t : Template} {k' : Nat} {s' : Store}

/-- The events that are written come out as the tokens of what the template renders to. -/
theorem rendersTo_of_completes {fs : List Event} {v : Stream} {r : Store}
    (h : Completes k t.expansion s fs none v r) (writable : ∀ e ∈ fs, e.isWritable = true) :
    t.RendersTo s ((tokensFrom [] fs).flatMap Xml.Token.written) := by
  obtain ⟨n, comes⟩ := renderFrom_of_renders (renders_ok_iff.2 ⟨fs, v, r, h, writable, rfl⟩) (by simp) []
  refine ⟨n, fun fuel large => ?_⟩
  rw [render_eq_outcome]
  exact comes fuel large

/-- A text that a template renders to is that of the events it expands to. -/
theorem completes_of_render {fuel : Nat} {text : Text} (h : (t.render fuel s).1 = .ok text) :
    ∃ fs v r, Completes fuel t.expansion s fs none v r ∧ (∀ e ∈ fs, e.isWritable = true) ∧
      text = (tokensFrom [] fs).flatMap Xml.Token.written := by
  rw [render_eq_outcome] at h
  have enough : (renderFrom [] fuel .fresh t.expansion s).outcome ≠ .error .outOfFuel := by
    intro spent
    cases h.symm.trans spent
  obtain ⟨o, renders, same⟩ := renders_of_renderFrom (Nat.le_refl fuel) [] enough
  have given : Except.ok text = o.map _ := h.symm.trans same
  cases o with
  | error => cases given
  | ok t =>
    cases given
    exact renders_ok_iff.1 renders

/-- What a template without directives renders to: tokens whose shapes are those of its own events, and which
are read back if its events are. -/
theorem rendersTo_shapes (document : Compile.Undirected es) (compiled : Compile.template target es = .ok t)
    (named : ∀ e ∈ es, e.IsNamed) (shown : Interpolates k (t.events.flatMap Event.expressions) s) :
    ∃ toks : List Xml.Token, t.RendersTo s (toks.flatMap Xml.Token.written) ∧
      toks.map Xml.Token.shape = (tokensFrom [] (tidyFrom none none (t.events.map Event.shape))).map Xml.Token.shape ∧
      ((∀ e ∈ es, e.IsClosed) → ∀ token ∈ toks, token.Readable) := by
  obtain ⟨expansion, last, leaves⟩ := Compile.leaves_of_template document compiled
  have isLeaf : ∀ e ∈ t.events, e.isLeaf = true := by
    intro e he
    obtain ⟨source, member, stems⟩ := leaves e he
    exact Compile.isLeaf_leaf stems (document.nested.markup source member)
  obtain ⟨fs, r, completes, shapes, writable⟩ := completes_interpolated t .zero isLeaf shown
  have source : t.source = .evaluated (.ofEvents t.events) := by
    rw [Template.source, expansion]
    rfl
  rw [← source] at completes
  have tidied : ∀ e ∈ tidyFrom none none fs, e.isWritable = true := writable_tidyFrom writable
  refine ⟨tokensFrom [] (tidyFrom none none fs), rendersTo_of_completes (completes.expansion last) tidied, ?_, ?_⟩
  · rw [shapes_tokensFrom [] tidied, shapes_tidyFrom none none writable, shapes]
    rfl
  · intro closed
    have legible : ∀ e ∈ fs, e.IsNamed ∧ e.IsClosed := by
      intro e he
      have shape : e.shape ∈ t.events.map Event.shape := shapes ▸ List.mem_map_of_mem he
      obtain ⟨origin, member, same⟩ := List.mem_map.1 shape
      obtain ⟨source, inDocument, stems⟩ := leaves origin member
      rw [← Event.isNamed_shape, ← Event.isClosed_shape, ← same, Event.isNamed_shape, Event.isClosed_shape]
      exact ⟨Compile.isNamed_leaf stems (named source inDocument), Compile.isClosed_leaf stems (closed source inDocument)⟩
    exact readable_tokensFrom (fun _ none => absurd none List.not_mem_nil) (legible_tidyFrom legible)

/-- **Values cannot inject markup.** From two stores in which all expressions have values to show, a template
without directives renders to texts of the same tokens, apart from character data and attribute values, and
no byte of these is taken for markup. So if comments and other markup of the template are closed where they
end, the two texts are read to the same skeleton. -/
theorem renders_same_skeleton (document : Compile.Undirected es) (compiled : Compile.template target es = .ok t)
    (named : ∀ e ∈ es, e.IsNamed) (shown : Interpolates k (t.events.flatMap Event.expressions) s)
    (shown' : Interpolates k' (t.events.flatMap Event.expressions) s') :
    ∃ toks toks' : List Xml.Token,
      t.RendersTo s (toks.flatMap Xml.Token.written) ∧ t.RendersTo s' (toks'.flatMap Xml.Token.written) ∧
        toks.map Xml.Token.shape = toks'.map Xml.Token.shape ∧ (∀ token ∈ toks ++ toks', token.Sealed) ∧
        ((∀ e ∈ es, e.IsClosed) → ∃ marks, skeleton (toks.flatMap Xml.Token.written) = .ok marks ∧
          skeleton (toks'.flatMap Xml.Token.written) = .ok marks) := by
  obtain ⟨toks, renders, shapes, readable⟩ := rendersTo_shapes document compiled named shown
  obtain ⟨toks', renders', shapes', readable'⟩ := rendersTo_shapes document compiled named shown'
  have same := shapes.trans shapes'.symm
  refine ⟨toks, toks', renders, renders', same, fun token _ => token.sealed, fun closed => ?_⟩
  refine ⟨_, skeleton_written (readable closed), ?_⟩
  rw [same]
  exact skeleton_written (readable' closed)

/-- A document with a value in a text and in an attribute. -/
def letterDocument : List Event :=
  [.startNamespace ⟨1, 0⟩ "p" "urn:p",
    .startTag ⟨1, 0⟩ ⟨"urn:p", "p", "a"⟩ [⟨.plain "k", [.literal "x $n y"]⟩], .text ⟨1, 20⟩ "Dear ${t}, ", .comment ⟨1, 30⟩ "c",
    .startTag ⟨1, 40⟩ (.plain "b") [], .endTag ⟨1, 44⟩ (.plain "b"), .endTag ⟨1, 48⟩ ⟨"urn:p", "p", "a"⟩,
    .endNamespace ⟨1, 48⟩ "p"]

def letter : Template :=
  ⟨0, "t.xml", [.startNamespace ⟨1, 0⟩ "p" "urn:p",
    .startTag ⟨1, 0⟩ ⟨"urn:p", "p", "a"⟩ [⟨.plain "k", [.literal "x ", .expression ⟨"n"⟩, .literal " y"]⟩],
    .text ⟨1, 20⟩ "Dear ", .expression ⟨1, 20⟩ ⟨"t"⟩, .text ⟨1, 20⟩ ", ", .comment ⟨1, 30⟩ "c",
    .startTag ⟨1, 40⟩ (.plain "b") [], .endTag ⟨1, 44⟩ (.plain "b"), .endTag ⟨1, 48⟩ ⟨"urn:p", "p", "a"⟩,
    .endNamespace ⟨1, 48⟩ "p"], [.evaluate], [], [.tidy]⟩

/-- Values that look like markup, and values that do not. -/
theorem renders_same_skeleton_hostile :
    let s := firstStore.against [("n", .text "\"><c>"), ("t", .text "</a><b>")]
    let s' := firstStore.against [("n", .int 5), ("t", .text [])]
    (letter.render 40 s).1.toOption =
        some "<p:a xmlns:p=\"urn:p\" k=\"x &quot;&gt;&lt;c&gt; y\">Dear &lt;/a&gt;&lt;b&gt;, <!--c--><b/></p:a>" ∧
      ∃ toks toks' : List Xml.Token,
        letter.RendersTo s (toks.flatMap Xml.Token.written) ∧ letter.RendersTo s' (toks'.flatMap Xml.Token.written) ∧
          ∃ marks, skeleton (toks.flatMap Xml.Token.written) = .ok marks ∧
            skeleton (toks'.flatMap Xml.Token.written) = .ok marks := by
  intro s s'
  refine ⟨by decide +kernel, ?_⟩
  have document : Compile.Undirected letterDocument := by
    refine ⟨⟨by decide, by decide⟩, fun p name as h => ?_⟩
    simp only [letterDocument, List.mem_cons, List.not_mem_nil, or_false, reduceCtorEq, false_or, Event.startTag.injEq] at h
    rcases h with ⟨-, -, rfl⟩ | ⟨-, -, rfl⟩ <;> decide
  have compiled : Compile.template ⟨0, "t.xml", .empty⟩ letterDocument = .ok letter := rfl
  have named : ∀ e ∈ letterDocument, e.IsNamed := by decide +kernel
  have shown : Interpolates 9 (letter.events.flatMap Event.expressions) s :=
    ⟨_, _, rfl, rfl, _, _, rfl, rfl, trivial⟩
  have shown' : Interpolates 9 (letter.events.flatMap Event.expressions) s' :=
    ⟨_, _, rfl, rfl, _, _, rfl, rfl, trivial⟩
  have closed : ∀ e ∈ letterDocument, e.IsClosed := by
    have comment : Unended "--" "c" := unended_of_not_mem (by decide)
    simp [letterDocument, Event.IsClosed, Xml.Token.Readable, comment]
  obtain ⟨toks, toks', renders, renders', -, -, read⟩ := renders_same_skeleton document compiled named shown shown'
  exact ⟨toks, toks', renders, renders', read closed⟩

end Template

end Stencil
