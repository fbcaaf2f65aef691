import Mathlib.Data.List.Basic
import Stencil.Event
import Stencil.Proofs.Document.Brackets

/-!
# Element forests

A well-nested list of markup events is the preorder of a forest: each start tag is closed by the end
tag that belongs to it, and nothing stays open. `Tree.eventsOf` lists the events of a forest,
`wellNested_iff_forest` says that these are the well-nested lists, and `Tree.eventsOf_injective` that
the forest is determined by its events.
-/

namespace Stencil

namespace Event

/-- An event of a document, not one that only templates have. -/
def isMarkup : Event → Bool
  | blank | expression .. | sub .. => false
  | _ => true

/-- The number of open elements after an event; an end tag needs an open element. -/
def nest (depth : Nat) : Event → Option Nat
  | startTag .. => some (depth + 1)
  | endTag .. => if depth = 0 then none else some (depth - 1)
  | _ => some depth

end Event

/-- Markup events whose tags pair up. Names are not compared. -/
structure WellNested (es : List Event) : Prop where
  markup : ∀ e ∈ es, e.isMarkup = true
  closed : es.foldlM Event.nest 0 = some 0

/-- A document in tree form. -/
inductive Tree where
  | element (position : Position) (name : QName) (attributes : Attributes) (children : List Tree)
      (endPosition : Position) (endName : QName)
  /-- an event that is no tag -/
  | leaf (e : Event) (markup : e.isMarkup = true) (noStart : e.isStart = false) (noEnd : e.isEnd = false)

namespace Tree

mutual

/-- The events of an element or event, in document order. -/
def events : Tree → List Event
  | element p name as children q endName => .startTag p name as :: (eventsOf children ++ [.endTag q endName])
  | leaf e _ _ _ => [e]

def eventsOf : List Tree → List Event
  | [] => []
  | n :: ns => n.events ++ eventsOf ns

end

theorem eventsOf_element (p : Position) (name : QName) (as : Attributes) (children : List Tree) (q : Position)
    (endName : QName) (f : List Tree) :
    eventsOf (element p name as children q endName :: f) =
      .startTag p name as :: (eventsOf children ++ .endTag q endName :: eventsOf f) := by
  simp [eventsOf, events]

theorem eventsOf_leaf (e : Event) (markup : e.isMarkup = true) (noStart : e.isStart = false) (noEnd : e.isEnd = false)
    (f : List Tree) : eventsOf (leaf e markup noStart noEnd :: f) = e :: eventsOf f := rfl

end Tree

namespace Event

theorem eq_startTag {e : Event} (h : e.isStart = true) : ∃ p name as, e = startTag p name as := by
  cases e <;> simp_all [isStart]

theorem eq_endTag {e : Event} (h : e.isEnd = true) : ∃ p name, e = endTag p name := by
  cases e <;> simp_all [isEnd]

/-- An event that is no tag leaves the number of open elements as it was. -/
theorem nest_leaf {e : Event} (noStart : e.isStart = false) (noEnd : e.isEnd = false) (d : Nat) :
    e.nest d = some d := by
  cases e <;> simp_all [isStart, isEnd, nest]

end Event

/-! ## Forests are well nested -/

namespace Tree

mutual

/-- The events of a tree leave the number of open elements as it was. -/
theorem nest_events (n : Tree) (d : Nat) : n.events.foldlM Event.nest d = some d := by
  cases n with
  | element p name as children q endName =>
    simp only [events, List.foldlM_cons, List.foldlM_append, Event.nest, Option.bind_eq_bind, Option.bind_some,
      nest_eventsOf children (d + 1), List.foldlM_nil]
    simp
  | leaf e markup noStart noEnd => simp [events, Event.nest_leaf noStart noEnd]

theorem nest_eventsOf (f : List Tree) (d : Nat) : (eventsOf f).foldlM Event.nest d = some d := by
  cases f with
  | nil => rfl
  | cons n ns =>
    simp only [eventsOf, List.foldlM_append, nest_events n d, Option.bind_eq_bind, Option.bind_some,
      nest_eventsOf ns d]

end

mutual

theorem markup_events (n : Tree) : ∀ e ∈ n.events, e.isMarkup = true := by
  cases n with
  | element p name as children q endName =>
    intro e he
    simp only [events, List.mem_cons, List.mem_append, List.not_mem_nil, or_false] at he
    obtain rfl | he | rfl := he
    · rfl
    · exact markup_eventsOf children e he
    · rfl
  | leaf e markup noStart noEnd => simpa [events] using markup

theorem markup_eventsOf (f : List Tree) : ∀ e ∈ eventsOf f, e.isMarkup = true := by
  cases f with
  | nil => simp [eventsOf]
  | cons n ns =>
    intro e he
    rcases List.mem_append.1 he with he | he
    · exact markup_events n e he
    · exact markup_eventsOf ns e he

end

theorem wellNested_eventsOf (f : List Tree) : WellNested (eventsOf f) :=
  ⟨markup_eventsOf f, nest_eventsOf f 0⟩

end Tree

/-! ## Well-nested lists are forests -/

namespace Event

/-- The shape of a forest: elements and events that are no tags, one after another. -/
inductive Balanced : List Event → Prop
  | nil : Balanced []
  | leaf {e : Event} {es : List Event} (noStart : e.isStart = false) (noEnd : e.isEnd = false) (rest : Balanced es) :
      Balanced (e :: es)
  | element {p : Position} {name : QName} {as : Attributes} {children es : List Event} {q : Position} {endName : QName}
      (inner : Balanced children) (rest : Balanced es) :
      Balanced (startTag p name as :: (children ++ endTag q endName :: es))

/-- Tags are brackets. -/
theorem nest_eq_bracketDepth : nest = bracketDepth isStart isEnd := by
  funext d e
  cases e <;> rfl

theorem balanced_of_bracketed {es : List Event} (h : Bracketed isStart isEnd es) : Balanced es := by
  induction h with
  | nil => exact .nil
  | leaf noStart noEnd _ ih => exact ih.leaf noStart noEnd
  | pair opened closed _ _ ihInside ihRest =>
    obtain ⟨p, name, as, rfl⟩ := eq_startTag opened
    obtain ⟨q, endName, rfl⟩ := eq_endTag closed
    exact ihInside.element ihRest

/-- A list in which no tag is left over has the shape of a forest. -/
theorem balanced_of_closed {es : List Event} (h : es.foldlM nest 0 = some 0) : Balanced es := by
  rw [nest_eq_bracketDepth] at h
  exact balanced_of_bracketed (.of_depth h)

end Event

theorem forest_of_balanced {es : List Event} (h : Event.Balanced es) (markup : ∀ e ∈ es, e.isMarkup = true) :
    ∃ f, Tree.eventsOf f = es := by
  induction h with
  | nil => exact ⟨[], rfl⟩
  | @leaf e es noStart noEnd _ ih =>
    simp only [List.mem_cons, forall_eq_or_imp] at markup
    obtain ⟨f, rfl⟩ := ih markup.2
    exact ⟨.leaf e markup.1 noStart noEnd :: f, Tree.eventsOf_leaf ..⟩
  | @element p name as children es q endName _ _ ihInner ihRest =>
    simp only [List.mem_cons, List.mem_append, or_imp, forall_and] at markup
    obtain ⟨-, insideMarkup, -, restMarkup⟩ := markup
    obtain ⟨inside, rfl⟩ := ihInner insideMarkup
    obtain ⟨f, rfl⟩ := ihRest restMarkup
    exact ⟨.element p name as inside q endName :: f, Tree.eventsOf_element ..⟩

/-- The well-nested lists of markup events are those of the forests. -/
theorem wellNested_iff_forest {es : List Event} : WellNested es ↔ ∃ f, Tree.eventsOf f = es := by
  constructor
  · rintro ⟨markup, closed⟩
    exact forest_of_balanced (Event.balanced_of_closed closed) markup
  · rintro ⟨f, rfl⟩
    exact Tree.wellNested_eventsOf f

/-! ## One forest for each list -/

namespace Tree

/-- Nothing, or what an end tag starts: it can't go on with the events of a tree. -/
def EndsForest (es : List Event) : Prop := ∀ e ∈ es.head?, e.isEnd = true

theorem not_endsForest_cons {n : Tree} {f : List Tree} {r : List Event} : ¬ EndsForest (eventsOf (n :: f) ++ r) := by
  cases n with
  | element p name as children q endName => simp [EndsForest, eventsOf_element, Event.isEnd]
  | leaf e markup noStart noEnd => simp [EndsForest, eventsOf_leaf, noEnd]

/-- A forest can be told from what follows it. -/
theorem eventsOf_append_inj : ∀ {f g : List Tree} {r r' : List Event}, EndsForest r → EndsForest r' →
    eventsOf f ++ r = eventsOf g ++ r' → f = g ∧ r = r'
  | [], [], _, _, _, _, h => ⟨rfl, h⟩
  | [], _ :: _, _, _, hr, _, h => by
    simp only [eventsOf, List.nil_append] at h
    exact absurd (h ▸ hr) not_endsForest_cons
  | _ :: _, [], _, _, _, hr', h => by
    simp only [eventsOf, List.nil_append] at h
    exact absurd (h ▸ hr') not_endsForest_cons
  | element p name as cs q endName :: f, element p' name' as' cs' q' endName' :: g, r, r', hr, hr', h => by
    simp only [eventsOf_element, List.cons_append, List.append_assoc, List.cons.injEq, Event.startTag.injEq] at h
    obtain ⟨⟨rfl, rfl, rfl⟩, h⟩ := h
    have ends : ∀ (q : Position) (name : QName) (es : List Event), EndsForest (.endTag q name :: es) := by
      simp [EndsForest, Event.isEnd]
    obtain ⟨rfl, tail⟩ := eventsOf_append_inj (ends _ _ _) (ends _ _ _) h
    simp only [List.cons.injEq, Event.endTag.injEq] at tail
    obtain ⟨⟨rfl, rfl⟩, after⟩ := tail
    obtain ⟨rfl, rfl⟩ := eventsOf_append_inj hr hr' after
    exact ⟨rfl, rfl⟩
  | leaf e _ _ _ :: f, leaf e' _ _ _ :: g, r, r', hr, hr', h => by
    simp only [eventsOf_leaf, List.cons_append, List.cons.injEq] at h
    obtain ⟨rfl, h⟩ := h
    obtain ⟨rfl, rfl⟩ := eventsOf_append_inj hr hr' h
    exact ⟨rfl, rfl⟩
  | element .. :: _, leaf _ _ noStart _ :: _, _, _, _, _, h => by
    simp only [eventsOf_element, eventsOf_leaf, List.cons_append, List.cons.injEq] at h
    rw [← h.1] at noStart
    cases noStart
  | leaf _ _ noStart _ :: _, element .. :: _, _, _, _, _, h => by
    simp only [eventsOf_element, eventsOf_leaf, List.cons_append, List.cons.injEq] at h
    rw [h.1] at noStart
    cases noStart

/-- The forest of a document is determined by its events. -/
theorem eventsOf_injective : Function.Injective eventsOf := by
  intro f g h
  have whole : eventsOf f ++ [] = eventsOf g ++ [] := by simpa using h
  have ends : EndsForest [] := by simp [EndsForest]
  exact (eventsOf_append_inj ends ends whole).1

end Tree

end Stencil
