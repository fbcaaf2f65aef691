import Mathlib.Data.List.Basic
import Stencil.Event

/-!
# Paired tags

The tags in a list of events are paired if each end tag closes the start tag of its name that was opened
last, and no element stays open. The names of the open elements, from the inside out, are the state of
`Event.pair`.
-/

namespace Stencil

namespace Event

/-- The names of the open elements after an event; an end tag needs the innermost one to be its own. -/
def pair (openNames : List Text) : Event → Option (List Text)
  | startTag _ name _ => some (name.qualified :: openNames)
  | endTag _ name => match openNames with
    | [] => none
    | n :: ns => if n = name.qualified then some ns else none
  | _ => some openNames

/-- The names of the open elements after some events. -/
abbrev pairAll (openNames : List Text) (es : List Event) : Option (List Text) := es.foldlM pair openNames

/-- Every end tag closes the start tag of its name that was opened last, and none stays open. -/
def Paired (es : List Event) : Prop := pairAll [] es = some []

instance (es : List Event) : Decidable (Paired es) := inferInstanceAs (Decidable (_ = _))

/-- The events are an element, from its start tag to its end tag. -/
def Whole (es : List Event) : Prop :=
  ∃ p name as inside q endName, es = startTag p name as :: (inside ++ [endTag q endName]) ∧
    name.qualified = endName.qualified ∧ Paired inside

variable {e : Event} {es fs : List Event} {ns ns' outer : List Text}

theorem pair_leaf (noStart : e.isStart = false) (noEnd : e.isEnd = false) (ns : List Text) : e.pair ns = some ns := by
  cases e <;> simp_all [isStart, isEnd, pair]

theorem pair_endTag {p : Position} {name : QName} (h : (endTag p name).pair ns = some ns') :
    ns = name.qualified :: ns' := by
  cases ns with
  | nil => cases h
  | cons n ns =>
    simp only [pair, Option.ite_none_right_eq_some, Option.some.injEq] at h
    rw [h.1, h.2]

@[simp] theorem pair_endTag_self (p : Position) (name : QName) (ns : List Text) :
    (endTag p name).pair (name.qualified :: ns) = some ns := by simp [pair]

theorem pairAll_append : pairAll ns (es ++ fs) = (pairAll ns es).bind fun ns' => pairAll ns' fs := List.foldlM_append ..

theorem pairAll_cons : pairAll ns (e :: es) = (e.pair ns).bind fun ns' => pairAll ns' es := List.foldlM_cons ..

/-- Events are often kept with the last one first. -/
theorem pairAll_reverse_cons {mid : List Text} (before : pairAll ns es.reverse = some mid) (h : e.pair mid = some ns') :
    pairAll ns (e :: es).reverse = some ns' := by
  rw [List.reverse_cons, pairAll_append, before, Option.bind_some, pairAll_cons, h]
  rfl

theorem pairAll_cons_some (h : pairAll ns (e :: es) = some outer) : ∃ ns', e.pair ns = some ns' ∧ pairAll ns' es = some outer := by
  rw [pairAll_cons] at h
  exact Option.bind_eq_some_iff.1 h

/-- Elements that were open before do not matter. -/
theorem pair_frame (h : e.pair ns = some ns') (outer : List Text) : e.pair (ns ++ outer) = some (ns' ++ outer) := by
  cases e with
  | startTag p name as =>
    cases h
    rfl
  | endTag p name =>
    rw [pair_endTag h]
    exact pair_endTag_self p name _
  | _ =>
    cases h
    rfl

theorem pairAll_frame (h : pairAll ns es = some ns') (outer : List Text) :
    pairAll (ns ++ outer) es = some (ns' ++ outer) := by
  induction es generalizing ns with
  | nil =>
    cases h
    rfl
  | cons e es ih =>
    obtain ⟨mid, first, rest⟩ := pairAll_cons_some h
    rw [pairAll_cons, pair_frame first]
    exact ih rest

/-- While an element is open, the ones around it do not matter. -/
theorem pair_inside (isOpen : ns ≠ []) (h : e.pair (ns ++ outer) = some ns') :
    ∃ mid, ns' = mid ++ outer ∧ e.pair ns = some mid ∧
      mid.length = if e.isStart then ns.length + 1 else if e.isEnd then ns.length - 1 else ns.length := by
  cases e with
  | startTag p name as =>
    cases h
    exact ⟨name.qualified :: ns, rfl, rfl, rfl⟩
  | endTag p name =>
    cases ns with
    | nil => exact absurd rfl isOpen
    | cons n ns =>
      have closes := pair_endTag h
      rw [List.cons_append, List.cons.injEq] at closes
      obtain ⟨rfl, rfl⟩ := closes
      exact ⟨ns, rfl, pair_endTag_self p name ns, by simp [isStart, isEnd]⟩
  | _ =>
    cases h
    exact ⟨ns, rfl, rfl, rfl⟩

theorem Paired.append (h : Paired es) (h' : Paired fs) : Paired (es ++ fs) := by
  unfold Paired at h h' ⊢
  rw [pairAll_append, h]
  exact h'

theorem paired_flatMap {α : Type} {f : α → List Event} {xs : List α} (h : ∀ x ∈ xs, Paired (f x)) :
    Paired (xs.flatMap f) := by
  induction xs with
  | nil => rfl
  | cons x xs ih =>
    obtain ⟨first, rest⟩ := List.forall_mem_cons.1 h
    exact first.append (ih rest)

theorem paired_leaves (h : ∀ e ∈ es, e.isStart = false ∧ e.isEnd = false) : Paired es := by
  induction es with
  | nil => rfl
  | cons e es ih =>
    obtain ⟨⟨noStart, noEnd⟩, rest⟩ := List.forall_mem_cons.1 h
    unfold Paired
    rw [pairAll_cons, pair_leaf noStart noEnd]
    exact ih rest

theorem Whole.paired (h : Whole es) : Paired es := by
  obtain ⟨p, name, as, inside, q, endName, rfl, same, paired⟩ := h
  have inner : pairAll [name.qualified] inside = some [name.qualified] := pairAll_frame paired _
  unfold Paired
  rw [pairAll_cons]
  simp only [pair, Option.bind_some]
  rw [pairAll_append, inner, Option.bind_some, same, pairAll_cons, pair_endTag_self]
  rfl

end Event

end Stencil
