import Stencil.Proofs.Document.Forest

/-!
# Forests of any events

The events of a stream need not be markup: between the tags there may be expressions and elements with
directives. `Part` is for such streams what `Tree` is for documents, and a list of events is that of some
parts if and only if its tags pair up (`Part.nested_iff_parts`).
-/

namespace Stencil

/-- The tags pair up, whatever the other events are. Names are not compared. -/
def Event.Nested (es : List Event) : Prop := es.foldlM Event.nest 0 = some 0

instance (es : List Event) : Decidable (Event.Nested es) := inferInstanceAs (Decidable (_ = _))

/-- A part of a stream in tree form. -/
inductive Part where
  | element (position : Position) (name : QName) (attributes : Attributes) (children : List Part)
      (endPosition : Position) (endName : QName)
  /-- an event that is no tag -/
  | leaf (e : Event) (noStart : e.isStart = false) (noEnd : e.isEnd = false)

namespace Part

mutual

/-- The events of a part, in order. -/
def events : Part → List Event
  | element p name as children q endName => .startTag p name as :: (eventsOf children ++ [.endTag q endName])
  | leaf e _ _ => [e]

def eventsOf : List Part → List Event
  | [] => []
  | n :: ns => n.events ++ eventsOf ns

end

mutual

/-- The events of a part leave the number of open elements as it was. -/
theorem nest_events (n : Part) (d : Nat) : n.events.foldlM Event.nest d = some d := by
  cases n with
  | element p name as children q endName =>
    simp only [events, List.foldlM_cons, List.foldlM_append, Event.nest, Option.bind_eq_bind, Option.bind_some,
      nest_eventsOf children (d + 1), List.foldlM_nil]
    simp
  | leaf e noStart noEnd => simp [events, Event.nest_leaf noStart noEnd]

theorem nest_eventsOf (ns : List Part) (d : Nat) : (eventsOf ns).foldlM Event.nest d = some d := by
  cases ns with
  | nil => rfl
  | cons n ns =>
    simp only [eventsOf, List.foldlM_append, nest_events n d, Option.bind_eq_bind, Option.bind_some, nest_eventsOf ns d]

end

theorem eventsOf_of_balanced {es : List Event} (h : Event.Balanced es) : ∃ ns, eventsOf ns = es := by
  induction h with
  | nil => exact ⟨[], rfl⟩
  | @leaf e es noStart noEnd _ ih =>
    obtain ⟨ns, rfl⟩ := ih
    exact ⟨.leaf e noStart noEnd :: ns, rfl⟩
  | @element p name as children es q endName _ _ ihInner ihRest =>
    obtain ⟨inside, rfl⟩ := ihInner
    obtain ⟨ns, rfl⟩ := ihRest
    exact ⟨.element p name as inside q endName :: ns, by simp [eventsOf, events]⟩

/-- The lists whose tags pair up are those of parts. -/
theorem nested_iff_parts {es : List Event} : Event.Nested es ↔ ∃ ns, eventsOf ns = es := by
  constructor
  · intro nested
    exact eventsOf_of_balanced (Event.balanced_of_closed nested)
  · rintro ⟨ns, rfl⟩
    exact nest_eventsOf ns 0

end Part
end Stencil
