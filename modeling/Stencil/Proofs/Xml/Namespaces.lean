import Stencil.Proofs.Stream.Tidied
import Stencil.Proofs.Xml.Written

/-!
# Declared prefixes

In a text that is well-formed as far as its namespaces go, each prefix of a name is declared by the tag it is
in or by an enclosing one (`Xml.PrefixesDeclared`). For events the same is said of the declarations that come
before a start tag (`PrefixesInScope`), and what is so of events is so of the tokens they are written as
(`Xml.prefixesDeclared_tokensFrom`).
-/

namespace Stencil

namespace QName

/-- Neither the prefix nor the base of the name looks like a name with a prefix. -/
def IsColonless (n : QName) : Prop := (':' : Byte) ∉ n.pre ∧ (':' : Byte) ∉ n.base

/-- The name has no prefix, or one of those in scope; one prefix needs no declaration. -/
def IsInScope (scope : List Text) (n : QName) : Prop := n.pre = [] ∨ n.pre = "xml" ∨ n.pre ∈ scope

end QName

/-! ## Tokens -/

namespace Xml

/-- The prefix of a name as it is written. -/
def prefixOf? (t : Text) : Option Text := if t.contains (':' : Byte) then some (t.takeWhile (· != (':' : Byte))) else none

namespace Tag

/-- The prefixes that a tag declares. -/
def declares (tag : Tag) : List Text :=
  tag.attributes.filterMap fun a => if ("xmlns:" : Text).isPrefixOf a.1 then some (a.1.drop 6) else none

/-- Each prefix in a tag is declared by the tag or is in scope. -/
def IsDeclared (scope : List Text) (tag : Tag) : Prop :=
  ∀ name ∈ tag.name :: tag.attributes.map (·.1), ∀ p ∈ prefixOf? name,
    p = "xml" ∨ p = "xmlns" ∨ p ∈ tag.declares ++ scope

end Tag

/-- The tag that a token opens an element with. -/
def Token.tag? : Token → Option Tag
  | startTag tag | emptyTag tag => some tag
  | _ => none

/-- Each prefix is declared by the tag it is in or by an enclosing one; the scopes are the prefixes that the
open elements have declared. -/
def PrefixesDeclared : List (List Text) → List Token → Prop
  | _, [] => True
  | scopes, .startTag tag :: tokens => tag.IsDeclared scopes.flatten ∧ PrefixesDeclared (tag.declares :: scopes) tokens
  | scopes, .emptyTag tag :: tokens => tag.IsDeclared scopes.flatten ∧ PrefixesDeclared scopes tokens
  | scopes, .endTag _ :: tokens => PrefixesDeclared scopes.tail tokens
  | scopes, _ :: tokens => PrefixesDeclared scopes tokens

instance (scope : List Text) (tag : Tag) : Decidable (tag.IsDeclared scope) :=
  inferInstanceAs (Decidable (∀ name ∈ _, ∀ p ∈ prefixOf? name, _ ∨ _ ∨ _))

instance decidablePrefixesDeclared : (scopes : List (List Text)) → (toks : List Token) →
    Decidable (PrefixesDeclared scopes toks)
  | _, [] => isTrue trivial
  | scopes, .startTag tag :: toks =>
    have := decidablePrefixesDeclared (tag.declares :: scopes) toks
    inferInstanceAs (Decidable (_ ∧ _))
  | scopes, .emptyTag _ :: toks =>
    have := decidablePrefixesDeclared scopes toks
    inferInstanceAs (Decidable (_ ∧ _))
  | scopes, .endTag _ :: toks => decidablePrefixesDeclared scopes.tail toks
  | scopes, .characters _ :: toks | scopes, .verbatim _ :: toks | scopes, .comment _ :: toks
  | scopes, .instruction .. :: toks | scopes, .doctype .. :: toks => decidablePrefixesDeclared scopes toks

end Xml

/-! ## Events -/

/-- Each prefix in a start tag is one of those declared since the last start tag, or one that an open element
has declared. -/
def PrefixesInScope (declared : List (Text × Text)) (scopes : List (List Text)) : List Event → Prop
  | [] => True
  | .startTag _ name as :: es =>
    (∀ n ∈ name :: as.map (·.name), n.IsColonless ∧ n.IsInScope (declared.map (·.1) ++ scopes.flatten)) ∧
      PrefixesInScope [] (declared.map (·.1) :: scopes) es
  | .endTag .. :: es => PrefixesInScope declared scopes.tail es
  | .startNamespace _ pre uri :: es => PrefixesInScope (declared ++ [(pre, uri)]) scopes es
  | _ :: es => PrefixesInScope declared scopes es

/-- The elements of a list of events: their start tags, each with the declarations since the last one. -/
def elementsOf (declared : List (Text × Text)) : List Event → List (List (Text × Text) × Event)
  | [] => []
  | .startTag p name as :: es => (declared, .startTag p name as) :: elementsOf [] es
  | .startNamespace _ pre uri :: es => elementsOf (declared ++ [(pre, uri)]) es
  | _ :: es => elementsOf declared es

namespace Xml

/-! ## From events to tokens -/

theorem mem_declares {declared : List (Text × Text)} {name : QName} {as : Attributes} {p : Text}
    (h : p ∈ declared.map (·.1)) (filled : p ≠ []) : p ∈ (tagOf declared name as).declares := by
  obtain ⟨d, hd, rfl⟩ := List.mem_map.1 h
  obtain ⟨pre, uri⟩ := d
  refine List.mem_filterMap.2 ⟨declaredAttribute (pre, uri), List.mem_append_left _ (List.mem_map_of_mem hd), ?_⟩
  have long : (declaredAttribute (pre, uri)).1 = "xmlns:" ++ pre := if_neg (by simpa using filled)
  rw [long, if_pos (List.isPrefixOf_iff_prefix.2 (List.prefix_append _ _))]
  rfl

theorem prefixOf_append {pre : Text} (h : (':' : Byte) ∉ pre) (base : Text) :
    prefixOf? (pre ++ (":" : Text) ++ base) = some pre := by
  have before : ∀ c ∈ pre, (c != (':' : Byte)) = true := by
    intro c hc
    rw [bne_iff_ne]
    rintro rfl
    exact h hc
  have colon : (pre ++ (":" : Text) ++ base).contains (':' : Byte) = true := by simp [Text.ascii]
  have cut : (pre ++ (":" : Text) ++ base).takeWhile (· != (':' : Byte)) = pre := by
    rw [List.append_assoc, List.takeWhile_append_of_pos before]
    simp [Text.ascii]
  rw [prefixOf?, if_pos colon, cut]

/-- The prefix of a name is the prefix of its written form. -/
theorem prefixOf_qualified {n : QName} (h : n.IsColonless) {p : Text} (found : p ∈ prefixOf? n.qualified) :
    p = n.pre ∧ n.pre ≠ [] := by
  unfold QName.qualified at found
  split at found
  · rw [prefixOf?, if_neg (by simpa using h.2)] at found
    cases found
  · rename_i some
    rw [prefixOf_append h.1] at found
    exact ⟨(Option.some.inj found).symm, by simpa using some⟩

theorem prefixOf_declared (d : Text × Text) {p : Text} (found : p ∈ prefixOf? (declaredAttribute d).1) : p = "xmlns" := by
  unfold declaredAttribute at found
  split at found
  · cases found
  · have long : prefixOf? (("xmlns" : Text) ++ ":" ++ d.1) = some "xmlns" := prefixOf_append (by decide) d.1
    exact (Option.some.inj (long.symm.trans found)).symm

/-- The prefixes that open elements have declared, as events and as tokens. -/
def Covers (scopes scopes' : List (List Text)) : Prop :=
  List.Forall₂ (fun declared declared' => ∀ p ∈ declared, p ≠ [] → p ∈ declared') scopes scopes'

theorem Covers.flatten {scopes scopes' : List (List Text)} (h : Covers scopes scopes') {p : Text}
    (member : p ∈ scopes.flatten) (some : p ≠ []) : p ∈ scopes'.flatten := by
  induction h with
  | nil => cases member
  | cons first _ ih =>
    rw [List.flatten_cons] at member ⊢
    rcases List.mem_append.1 member with member | member
    · exact List.mem_append_left _ (first p member some)
    · exact List.mem_append_right _ (ih member)

theorem Covers.tail {scopes scopes' : List (List Text)} (h : Covers scopes scopes') : Covers scopes.tail scopes'.tail := by
  cases h with
  | nil => exact .nil
  | cons _ rest => exact rest

theorem isDeclared_tagOf {declared : List (Text × Text)} {name : QName} {as : Attributes} {scopes scopes' : List (List Text)}
    (covers : Covers scopes scopes')
    (h : ∀ n ∈ name :: as.map (·.name), n.IsColonless ∧ n.IsInScope (declared.map (·.1) ++ scopes.flatten)) :
    (tagOf declared name as).IsDeclared scopes'.flatten := by
  have named : ∀ n ∈ name :: as.map (·.name), ∀ p ∈ prefixOf? n.qualified,
      p = "xml" ∨ p = "xmlns" ∨ p ∈ (tagOf declared name as).declares ++ scopes'.flatten := by
    intro n hn p found
    obtain ⟨colonless, inScope⟩ := h n hn
    obtain ⟨rfl, some⟩ := prefixOf_qualified colonless found
    rcases inScope with bare | xml | member
    · exact absurd bare some
    · exact .inl xml
    · refine .inr (.inr ?_)
      rcases List.mem_append.1 member with member | member
      · exact List.mem_append_left _ (mem_declares member some)
      · exact List.mem_append_right _ (covers.flatten member some)
  intro written hw p found
  rcases List.mem_cons.1 hw with rfl | hw
  · exact named name List.mem_cons_self p found
  · obtain ⟨a, ha, rfl⟩ := List.mem_map.1 hw
    rcases List.mem_append.1 ha with ha | ha
    · obtain ⟨d, -, rfl⟩ := List.mem_map.1 ha
      exact .inr (.inl (prefixOf_declared d found))
    · obtain ⟨b, hb, rfl⟩ := List.mem_map.1 ha
      exact named b.name (List.mem_cons_of_mem _ (List.mem_map_of_mem hb)) p found

/-- **Events whose prefixes are in scope are written as tokens whose prefixes are declared.** -/
theorem prefixesDeclared_tokensFrom {declared : List (Text × Text)} {es : List Event} {scopes scopes' : List (List Text)}
    (covers : Covers scopes scopes') (h : PrefixesInScope declared scopes es) :
    PrefixesDeclared scopes' (tokensFrom declared es) := by
  induction declared, es using tokensFrom.induct generalizing scopes scopes' with
  | case1 => trivial
  | case2 declared p name as q endName es ih => exact ⟨isDeclared_tagOf covers h.1, ih covers h.2⟩
  | case3 declared p name as es noEnd ih =>
    rw [tokensFrom]
    · exact ⟨isDeclared_tagOf covers h.1, ih (.cons (fun _ => mem_declares) covers) h.2⟩
    · exact noEnd
  | case4 declared p pre uri es ih => exact ih covers h
  | case5 declared e es noTag noNamespace ih =>
    rw [tokensFrom]
    · cases e with
      | startTag p name as => exact absurd rfl (noTag p name as)
      | startNamespace p pre uri => exact absurd rfl (noNamespace p pre uri)
      | endTag => exact ih covers.tail h
      | _ => exact ih covers h
    · exact noTag
    · exact noNamespace

/-- The tags that are written are those of the elements, each with the declarations before it. -/
theorem tag_of_tokensFrom {declared : List (Text × Text)} {es : List Event} {tag : Tag}
    (h : tag ∈ (tokensFrom declared es).filterMap Token.tag?) :
    ∃ d p name as, (d, .startTag p name as) ∈ elementsOf declared es ∧ tag = tagOf d name as := by
  induction declared, es using tokensFrom.induct with
  | case1 => cases h
  | case2 declared p name as q endName es ih =>
    rcases List.mem_cons.1 h with rfl | later
    · exact ⟨declared, p, name, as, List.mem_cons_self, rfl⟩
    · obtain ⟨d, p', name', as', member, rfl⟩ := ih later
      exact ⟨d, p', name', as', List.mem_cons_of_mem _ member, rfl⟩
  | case3 declared p name as es noEnd ih =>
    rw [tokensFrom.eq_3 _ _ _ _ _ noEnd] at h
    rcases List.mem_cons.1 h with rfl | later
    · exact ⟨declared, p, name, as, List.mem_cons_self, rfl⟩
    · obtain ⟨d, p', name', as', member, rfl⟩ := ih later
      exact ⟨d, p', name', as', List.mem_cons_of_mem _ member, rfl⟩
  | case4 declared p pre uri es ih => exact ih h
  | case5 declared e es noTag noNamespace ih =>
    cases e with
    | startTag p name as => exact absurd rfl (noTag p name as)
    | startNamespace p pre uri => exact absurd rfl (noNamespace p pre uri)
    | _ => exact ih h

end Xml

/-! ## Texts are of no matter -/

theorem prefixesInScope_text (text? : Option (Position × Text)) {declared : List (Text × Text)}
    {scopes : List (List Text)} {es : List Event} :
    PrefixesInScope declared scopes (tidyText text? ++ es) ↔ PrefixesInScope declared scopes es := by
  cases text? <;> exact Iff.rfl

theorem prefixesInScope_tidyFrom (text? : Option (Position × Text)) {declared : List (Text × Text)}
    {scopes : List (List Text)} {es : List Event} :
    PrefixesInScope declared scopes (tidyFrom none text? es) ↔ PrefixesInScope declared scopes es := by
  induction es generalizing text? declared scopes with
  | nil => cases text? <;> exact Iff.rfl
  | cons e es ih =>
    cases e with
    | text => exact ih _
    | startTag =>
      rw [tidyFrom_cons rfl, prefixesInScope_text]
      exact and_congr_right fun _ => ih none
    | _ =>
      rw [tidyFrom_cons rfl, prefixesInScope_text]
      exact ih none

theorem elementsOf_tidyFrom (text? : Option (Position × Text)) (declared : List (Text × Text)) (es : List Event) :
    elementsOf declared (tidyFrom none text? es) = elementsOf declared es := by
  have skips : ∀ (text? : Option (Position × Text)) (declared : List (Text × Text)) (es : List Event),
      elementsOf declared (tidyText text? ++ es) = elementsOf declared es := by
    intro text? declared es
    cases text? <;> rfl
  induction es generalizing text? declared with
  | nil => cases text? <;> rfl
  | cons e es ih =>
    cases e with
    | text => exact ih _ _
    | startTag p name as =>
      rw [tidyFrom_cons rfl, skips]
      exact congrArg ((declared, .startTag p name as) :: ·) (ih none [])
    | startNamespace p pre uri =>
      rw [tidyFrom_cons rfl, skips]
      exact ih none (declared ++ [(pre, uri)])
    | _ =>
      rw [tidyFrom_cons rfl, skips]
      exact ih none declared

end Stencil
